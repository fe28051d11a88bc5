import Consensus.Log.Basic
import Mathlib.Data.List.Infix

/-! # Logs as lists of entries

The theory of a log speaks of its entries alone, whatever store holds them. A
position is named by the entries in front of it: `front ++ [entry] <+: log` says
that `entry` stands in `log` right behind `front`.
-/

namespace Consensus

/-- The entries of a log, first one first. -/
abbrev Entries := List Entry

namespace Entries

/-- The entry at an index, none outside the log. -/
def read? (log : Entries) (index : Index) : Option Entry :=
  if index < 0 then none else log[index.toNat]?

/-- The term at an index. The position in front of the first entry has the null term. -/
def termAt? (log : Entries) (index : Index) : Option Term :=
  if index = nullIndex then some nullTerm else (log.read? index).map Entry.term

/-- The entry at an index together with its place. -/
def entryAt? (log : Entries) (index : Index) : Option PlacedEntry :=
  (log.read? index).map fun entry => ⟨entry.term, index, entry.command⟩

/-- The term of the last entry, the null term when there is none. -/
def lastTerm (log : Entries) : Term :=
  match log.getLast? with
  | none => nullTerm
  | some entry => entry.term

/-- The key of the last entry, the null key when there is none. -/
def lastKey (log : Entries) : LogKey := ⟨log.lastTerm, (log.length : Int) - 1⟩

/-- The log holds an entry of the key's index and term, or the key stands in front of
the first entry. -/
def Holds (log : Entries) (key : LogKey) : Prop :=
  key.IsNull ∨ ∃ entry, log.read? key.index = some entry ∧ entry.term = key.term

/-- The log holds an entry of another term at the key's index. -/
def Conflicts (log : Entries) (key : LogKey) : Prop :=
  ∃ entry, log.read? key.index = some entry ∧ entry.term ≠ key.term

/-! ## Reading -/

theorem read?_eq_some_iff {log : Entries} {index : Index} {entry : Entry} :
    log.read? index = some entry ↔ 0 ≤ index ∧ log[index.toNat]? = some entry := by
  unfold read?
  split
  next hneg => simp [Int.not_le.mpr hneg]
  next hnonneg => simp [Int.not_lt.mp hnonneg]

theorem read?_natCast (log : Entries) (place : Nat) : log.read? place = log[place]? := by
  simp [read?, Int.not_lt.mpr (Int.natCast_nonneg place)]

/-- An entry that can be read lies within the log. -/
theorem bounds_of_read? {log : Entries} {index : Index} {entry : Entry}
    (hread : log.read? index = some entry) : 0 ≤ index ∧ index < log.length := by
  obtain ⟨hnonneg, hget⟩ := read?_eq_some_iff.mp hread
  have hlt := (List.getElem?_eq_some_iff.mp hget).1
  lia

/-- The term at an entry is the entry's. -/
theorem termAt?_of_read? {log : Entries} {index : Index} {entry : Entry}
    (hread : log.read? index = some entry) : log.termAt? index = some entry.term := by
  have hnonneg := (bounds_of_read? hread).1
  have hplace : index ≠ nullIndex := by
    intro hnull
    rw [hnull] at hnonneg
    exact absurd hnonneg (by decide)
  rw [termAt?, if_neg hplace, hread]
  rfl

/-- A term is known in front of the first entry or at an entry. -/
theorem termAt?_eq_some {log : Entries} {index : Index} {term : Term}
    (h : log.termAt? index = some term) :
    index = nullIndex ∨ ∃ entry, log.read? index = some entry ∧ entry.term = term := by
  unfold termAt? at h
  split at h
  next hnull => exact .inl hnull
  next => exact .inr (Option.map_eq_some_iff.mp h)

/-- A longer log has the entries of a shorter one at the same places. -/
theorem read?_of_isPrefix {shorter longer : Entries} (hbegins : shorter <+: longer)
    {index : Index} {entry : Entry} (hread : shorter.read? index = some entry) :
    longer.read? index = some entry := by
  obtain ⟨hnonneg, hget⟩ := read?_eq_some_iff.mp hread
  refine read?_eq_some_iff.mpr ⟨hnonneg, ?_⟩
  obtain ⟨hlt, rfl⟩ := List.getElem?_eq_some_iff.mp hget
  exact List.prefix_iff_getElem?.mp hbegins _ hlt

/-- Within the shorter of two logs the longer one has no other entries. -/
theorem read?_of_isPrefix_of_lt {shorter longer : Entries} (hbegins : shorter <+: longer)
    {index : Index} {entry : Entry} (hread : longer.read? index = some entry)
    (hlt : index < shorter.length) : shorter.read? index = some entry := by
  obtain ⟨hnonneg, hget⟩ := read?_eq_some_iff.mp hread
  have hplace : index.toNat < shorter.length := by lia
  have hheld := List.prefix_iff_getElem?.mp hbegins _ hplace
  rw [hget, Option.some.injEq] at hheld
  exact read?_eq_some_iff.mpr ⟨hnonneg, hheld ▸ List.getElem?_eq_getElem hplace⟩

theorem read?_eq_of_isPrefix {shorter longer : Entries} (hbegins : shorter <+: longer)
    {index : Index} (hlt : index < shorter.length) : longer.read? index = shorter.read? index := by
  ext entry
  exact ⟨fun hread => read?_of_isPrefix_of_lt hbegins hread hlt, read?_of_isPrefix hbegins⟩

/-- Every entry of a log stands right behind the entries in front of it. -/
theorem exists_front_of_read? {log : Entries} {index : Index} {entry : Entry}
    (hread : log.read? index = some entry) :
    ∃ front, front ++ [entry] <+: log ∧ (front.length : Int) = index := by
  obtain ⟨hnonneg, hget⟩ := read?_eq_some_iff.mp hread
  have hlt := (List.getElem?_eq_some_iff.mp hget).1
  refine ⟨log.take index.toNat, ?_, ?_⟩
  · have htake : log.take index.toNat ++ [entry] = log.take (index.toNat + 1) := by
      rw [List.take_add_one, hget]
      rfl
    rw [htake]
    exact List.take_prefix _ _
  · rw [List.length_take]
    lia

theorem mem_of_read? {log : Entries} {index : Index} {entry : Entry}
    (hread : log.read? index = some entry) : entry ∈ log :=
  List.mem_of_getElem? (read?_eq_some_iff.mp hread).2

theorem exists_read?_of_mem {log : Entries} {entry : Entry} (hmem : entry ∈ log) :
    ∃ index, log.read? index = some entry := by
  obtain ⟨place, hplace⟩ := List.mem_iff_getElem?.mp hmem
  exact ⟨place, (read?_natCast _ _).trans hplace⟩

theorem exists_front_of_mem {log : Entries} {entry : Entry} (hmem : entry ∈ log) :
    ∃ front, front ++ [entry] <+: log := by
  obtain ⟨front, rest, rfl⟩ := List.append_of_mem hmem
  exact ⟨front, rest, by simp⟩

/-- A key stays held when the log is cut off behind it. -/
theorem Holds.take {log : Entries} {key : LogKey} (h : log.Holds key) {index : Index}
    (hlt : key.index < index) : Holds (log.take index.toNat) key := by
  rcases h with hnull | ⟨entry, hread, hterm⟩
  · exact .inl hnull
  · obtain ⟨hnonneg, hbound⟩ := bounds_of_read? hread
    have hlength : key.index < (log.take index.toNat).length := by
      rw [List.length_take]
      lia
    have hfront : log.take index.toNat <+: log := List.take_prefix _ _
    exact .inr ⟨entry, read?_of_isPrefix_of_lt hfront hread hlength, hterm⟩

/-- A key stays held when the log grows. -/
theorem Holds.of_isPrefix {shorter longer : Entries} {key : LogKey} (h : shorter.Holds key)
    (hbegins : shorter <+: longer) : longer.Holds key := by
  rcases h with hnull | ⟨entry, hread, hterm⟩
  · exact .inl hnull
  · exact .inr ⟨entry, read?_of_isPrefix hbegins hread, hterm⟩

theorem holds_concat (log : Entries) (entry : Entry) :
    Holds (log ++ [entry]) ⟨entry.term, log.length⟩ := by
  refine .inr ⟨entry, ?_, rfl⟩
  rw [read?_natCast]
  simp

/-- What is read from a log that grew by an entry is that entry, or was there before. -/
theorem read?_concat {log : Entries} {entry other : Entry} {index : Index}
    (hread : read? (log ++ [entry]) index = some other) :
    log.read? index = some other ∨ (index = log.length ∧ other = entry) := by
  obtain ⟨_, hlt⟩ := bounds_of_read? hread
  rw [List.length_append, List.length_singleton] at hlt
  by_cases hlast : index = log.length
  · rw [hlast, read?_natCast, List.getElem?_concat_length] at hread
    exact .inr ⟨hlast, (Option.some.inj hread).symm⟩
  · have hinner : index < log.length := by lia
    exact .inl (read?_of_isPrefix_of_lt (List.prefix_append _ _) hread hinner)

/-! ## Last entries -/

@[simp] theorem lastTerm_nil : lastTerm [] = nullTerm := rfl

@[simp] theorem lastTerm_concat (front : Entries) (entry : Entry) :
    lastTerm (front ++ [entry]) = entry.term := by
  simp [lastTerm]

/-- A key that a log has at its index is the last key of the entries up to there. -/
theorem exists_place_of_termAt? {log : Entries} {key : LogKey}
    (hterm : log.termAt? key.index = some key.term) :
    ∃ place : Nat, place ≤ log.length ∧ key.index + 1 = place ∧
      key = lastKey (log.take place) := by
  obtain ⟨term, index⟩ := key
  rcases termAt?_eq_some hterm with hnull | ⟨entry, hread, hentry⟩
  · dsimp only at hnull hterm
    subst hnull
    rw [termAt?, if_pos rfl] at hterm
    refine ⟨0, Nat.zero_le _, rfl, ?_⟩
    rw [← Option.some.inj hterm]
    rfl
  · obtain ⟨front, hfront, hlength⟩ := exists_front_of_read? hread
    have htake : log.take (front.length + 1) = front ++ [entry] := by
      simpa using (List.prefix_iff_eq_take.mp hfront).symm
    refine ⟨front.length + 1, ?_, ?_, ?_⟩
    · simpa using hfront.length_le
    · dsimp only at hlength ⊢
      rw [← hlength]
      rfl
    · dsimp only at hlength hentry
      rw [htake, lastKey, lastTerm_concat, List.length_append, List.length_singleton, hentry,
        ← hlength, Int.natCast_add, Int.natCast_one, Int.add_sub_cancel]

/-! ## Prefixes -/

/-- Two logs that both start with a third one's entries are equal that far. -/
theorem isPrefix_of_isPrefix {first second log : Entries} (hfirst : first <+: log)
    (hsecond : second <+: log) (hlength : first.length ≤ second.length) : first <+: second :=
  List.prefix_of_prefix_length_le hfirst hsecond hlength

/-- What two prefixes of one log hold at the same place is the same. -/
theorem eq_of_read?_of_isPrefix {first second log : Entries} (hfirst : first <+: log)
    (hsecond : second <+: log) {index : Index} {one other : Entry}
    (hone : first.read? index = some one) (hother : second.read? index = some other) :
    one = other :=
  Option.some.inj ((read?_of_isPrefix hfirst hone).symm.trans (read?_of_isPrefix hsecond hother))

end Entries

end Consensus
