import Monotonicity.Decimal

/-!
# Search statistics

What a search counts, and the report on it. The report gives the share of rule applications that
were kept, as a percentage with one place.
-/

namespace Monotonicity

structure Stats where
  steps : Nat := 0
  backtracks : Nat := 0
  unifications : Nat := 0
  probes : Nat := 0
  deferrals : Nat := 0
  /-- The largest number of goals in progress at once. -/
  maxDepth : Nat := 0
deriving DecidableEq, Repr

namespace Stats

def column (n : Nat) : String :=
  let digits := toString n
  "".pushn ' ' (10 - digits.length) ++ digits

/-- `success_rate`: the share of rule applications kept. There is none if more were undone than
made. -/
def kept? (s : Stats) : Option Float :=
  if s.steps = 0 then some 1.0
  else if s.steps < s.backtracks then none
  else some ((s.steps - s.backtracks).toUInt64.toFloat / s.steps.toUInt64.toFloat)

/-- The counters, one to a line. -/
def report? (s : Stats) : Option String :=
  s.kept?.map fun kept =>
    "\n".intercalate
      [ "=== Solve Statistics ===",
        "Steps:            " ++ column s.steps,
        "Backtracks:       " ++ column s.backtracks ++
          " (" ++ Decimal.onePlace (kept * 100.0) ++ "% kept)",
        "Unifications:     " ++ column s.unifications,
        "Candidate probes: " ++ column s.probes,
        "Deferrals:        " ++ column s.deferrals,
        "Max depth:        " ++ column s.maxDepth ]

end Stats

end Monotonicity
