/-! # Log keys

A position of the replicated log is named by the term that created its entry
and by its index. Keys compare how up to date two logs are; they say nothing
about which entries the logs hold below their last ones.
-/

namespace Consensus

/-- A leadership epoch. The integer is exact; frames and metadata give it four bytes. -/
abbrev Term := Int

/-- A position in the log. The first entry has index 0. -/
abbrev Index := Int

/-- Names a server of the cluster. -/
abbrev ServerId := Int

/-- Names a client that submits commands. -/
abbrev SourceId := Int

/-- Numbers the commands of one client. -/
abbrev Sequence := Int

/-- A byte string, first byte first. -/
abbrev Bytes := List UInt8

/-- The last term a server can move to. -/
def maxTerm : Term := 2147483647

/-- The index in front of the first entry. -/
def nullIndex : Index := -1

/-- The term in front of the first entry. -/
def nullTerm : Term := -1

/-- The term and index that identify a log entry. -/
structure LogKey where
  term : Term
  index : Index
  deriving DecidableEq, Repr, Inhabited

namespace LogKey

/-- The key in front of the first entry. Every log holds it. -/
def null : LogKey := ⟨nullTerm, nullIndex⟩

/-- A key stands in front of the first entry by its index alone, whatever its term. -/
def IsNull (key : LogKey) : Prop := key.index = nullIndex

instance (key : LogKey) : Decidable key.IsNull :=
  inferInstanceAs (Decidable (key.index = nullIndex))

/-- A log ending in `key` is at least as up to date as one ending in `other`:
a later last term wins, and within one term the longer log does. -/
def AtLeastAsUpToDate (key other : LogKey) : Prop :=
  other.term < key.term ∨ (key.term = other.term ∧ other.index ≤ key.index)

instance (key other : LogKey) : Decidable (key.AtLeastAsUpToDate other) :=
  inferInstanceAs (Decidable (other.term < key.term ∨
    (key.term = other.term ∧ other.index ≤ key.index)))

/-- A key written as a pair. -/
def text (key : LogKey) : String :=
  s!"({key.term}, {key.index})"

theorem null_isNull : null.IsNull := rfl

theorem atLeastAsUpToDate_refl (key : LogKey) : key.AtLeastAsUpToDate key :=
  Or.inr ⟨rfl, Int.le_refl _⟩

/-- Any two logs can be compared. -/
theorem atLeastAsUpToDate_total (key other : LogKey) :
    key.AtLeastAsUpToDate other ∨ other.AtLeastAsUpToDate key := by
  simp only [AtLeastAsUpToDate]
  lia

theorem atLeastAsUpToDate_trans {first second third : LogKey}
    (hfirst : first.AtLeastAsUpToDate second) (hsecond : second.AtLeastAsUpToDate third) :
    first.AtLeastAsUpToDate third := by
  simp only [AtLeastAsUpToDate] at *
  lia

end LogKey

end Consensus
