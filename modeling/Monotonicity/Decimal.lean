/-!
# Rounding to decimal places

A floating-point number is a whole multiple of a power of two, so its value can be written to any
number of decimal places exactly rounded. `roundDiv` rounds a quotient to the nearest whole number,
a tie to the even one.
-/

namespace Monotonicity.Decimal

/-- `num / den` rounded to the nearest whole number, a tie to the even one. -/
def roundDiv (num den : Nat) : Nat :=
  let q := num / den
  let r := num % den
  if 2 * r < den then q else if den < 2 * r then q + 1 else q + q % 2

/-- A non-negative finite number as `(m, e)` with value `m · 2 ^ e`. The low 52 bits are the
fraction and the next 11 the exponent, whose least value marks the numbers without a leading one. -/
def parts (x : Float) : Nat × Int :=
  let bits := x.toBits.toNat
  let fraction : Nat := bits % 0x10000000000000
  let exponent : Nat := bits / 0x10000000000000 % 0x800
  if exponent = 0 then (fraction, -1074)
  else (fraction + 0x10000000000000, (exponent : Int) - 1075)

/-- `m · 2 ^ e` in tenths, rounded. -/
def tenths (m : Nat) : Int → Nat
  | .ofNat k => m * 10 * Nat.pow 2 k
  | .negSucc k => roundDiv (m * 10) (Nat.pow 2 (k + 1))

def onePlace (x : Float) : String :=
  let (m, e) := parts x
  let n := tenths m e
  toString (n / 10) ++ "." ++ toString (n % 10)

end Monotonicity.Decimal
