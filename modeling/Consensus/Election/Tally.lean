import Consensus.Log.Key

/-! # Vote tallies

A candidate counts the servers that voted for it in one term. A tally that is
cleared keeps its term, so only a later election counts votes of another one.
-/

namespace Consensus

/-- The votes granted in one term. -/
structure Tally where
  term : Term := 0
  voters : List ServerId := []
  deriving DecidableEq, Repr

namespace Tally

/-- A tally that holds the candidate's own vote. -/
def start (term : Term) (self : ServerId) : Tally := ⟨term, [self]⟩

/-- The vote belongs to the tally's term and is not in it yet. -/
def Counts (tally : Tally) (term : Term) (voter : ServerId) : Prop :=
  term = tally.term ∧ voter ∉ tally.voters

instance (tally : Tally) (term : Term) (voter : ServerId) : Decidable (tally.Counts term voter) :=
  inferInstanceAs (Decidable (term = tally.term ∧ voter ∉ tally.voters))

/-- Adds a vote that counts. -/
def record (tally : Tally) (term : Term) (voter : ServerId) : Tally :=
  if tally.Counts term voter then { tally with voters := voter :: tally.voters } else tally

def clear (tally : Tally) : Tally := { tally with voters := [] }

/-- The number of distinct voters. -/
def size (tally : Tally) : Nat := tally.voters.length

end Tally

end Consensus
