/-! # Runs of characters

A set of characters is given by the runs of consecutive codes in it. Runs are
kept in ascending order with a gap between any two, so a set has one table only.
-/

namespace Consensus.Text

/-- First and last code of each run. -/
abbrev Runs := List (Nat × Nat)

namespace Runs

/-- The code lies in one of the runs. -/
def contains (runs : Runs) (code : Nat) : Bool :=
  runs.any fun (first, last) => first ≤ code && code ≤ last

/-- The number of codes in runs that do not overlap. -/
def size : Runs → Nat
  | [] => 0
  | (first, last) :: rest => last + 1 - first + size rest

/-- No run is empty, none starts below `floor`, and each ends before a gap in front of the
next one. -/
def AscendingFrom (floor : Nat) : Runs → Prop
  | [] => True
  | (first, last) :: rest => floor ≤ first ∧ first ≤ last ∧ AscendingFrom (last + 2) rest

instance decidableAscendingFrom (floor : Nat) :
    (runs : Runs) → Decidable (AscendingFrom floor runs)
  | [] => inferInstanceAs (Decidable True)
  | (first, last) :: rest =>
    have := decidableAscendingFrom (last + 2) rest
    inferInstanceAs
      (Decidable (floor ≤ first ∧ first ≤ last ∧ AscendingFrom (last + 2) rest))

end Runs

end Consensus.Text
