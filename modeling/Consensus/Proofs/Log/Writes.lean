import Consensus.Proofs.Log.Coherent
import Consensus.Proofs.Storage.Reliable

/-! # Writes to reliable and sealed stores

On a reliable store nothing fails that a server writes: its term and vote, an entry behind the
end of its log, and the removal of a suffix. The store stays reliable by it. On a sealed one
everything fails, and the durable state stays what it is.
-/

namespace Consensus

variable {σ : Type} [Store σ]

namespace Durable

variable {durable : Durable σ}

/-- A reliable store takes every term and vote. -/
theorem exists_record (h : Store.Reliable durable.log.store) (term : Term)
    (votedFor : Option ServerId) :
    ∃ recorded, durable.record term votedFor = .ok recorded ∧
      Store.Reliable recorded.log.store := by
  obtain ⟨saved, hsave, hreliable⟩ := h.save term votedFor
  exact ⟨_, map_eq_ok.mpr ⟨saved, hsave, rfl⟩, hreliable⟩

theorem exists_moveTo (h : Store.Reliable durable.log.store) (term : Term) :
    ∃ moved, durable.moveTo term = .ok moved ∧ Store.Reliable moved.log.store := by
  unfold moveTo
  split
  next => exact ⟨durable, rfl, h⟩
  next => exact exists_record h term none

/-- A sealed store takes no term and vote. -/
theorem record_ne_ok (h : Store.Sealed durable.log.store) (term : Term)
    (votedFor : Option ServerId) (recorded : Durable σ) :
    durable.record term votedFor ≠ .ok recorded := by
  intro hrecord
  obtain ⟨saved, hsave, _⟩ := map_eq_ok.mp hrecord
  exact h.save term votedFor saved hsave

theorem moveTo_eq_of_sealed (h : Store.Sealed durable.log.store) {term : Term}
    {moved : Durable σ} (hok : durable.moveTo term = .ok moved) : moved = durable := by
  unfold moveTo at hok
  split at hok
  next => exact (Except.ok.inj hok).symm
  next => exact absurd hok (record_ne_ok h term none moved)

end Durable

namespace Log

variable {log : Log σ}

/-- A log ends in front of what is beyond it. -/
theorem length_le_of_standing {key : LogKey} (h : log.standing key = .beyond)
    (hnonneg : 0 ≤ key.index) : (log.entries.length : Int) ≤ key.index := by
  by_contra hshort
  have hplace : key.index.toNat < log.entries.length := by lia
  have hread : log.read? key.index = some log.entries[key.index.toNat] :=
    Entries.read?_eq_some_iff.mpr ⟨hnonneg, List.getElem?_eq_getElem hplace⟩
  have hterm : log.termAt? key.index = some log.entries[key.index.toNat].term :=
    Entries.termAt?_of_read? hread
  unfold standing at h
  rw [hterm] at h
  grind

/-- What a log ends in front of is beyond it. -/
theorem standing_eq_beyond {key : LogKey} (hnonneg : 0 ≤ key.index)
    (hlength : (log.entries.length : Int) ≤ key.index) : log.standing key = .beyond := by
  have hnull : ¬ key.IsNull := by
    intro hnull
    rw [hnull] at hnonneg
    exact absurd hnonneg (by decide)
  have hindex : ¬ key.index = nullIndex := hnull
  have hread : Entries.read? log.entries key.index = none := by
    by_contra hsome
    obtain ⟨entry, hentry⟩ := Option.ne_none_iff_exists'.mp hsome
    have := (Entries.bounds_of_read? hentry).2
    lia
  rw [standing, if_neg hnull, termAt?_eq, Entries.termAt?, if_neg hindex, hread]
  rfl

/-- A reliable store takes an entry behind the last. -/
theorem exists_extend (h : Store.Reliable log.store) {index : Index} {entry : Entry}
    (hindex : (log.entries.length : Int) = index)
    (hlength : entry.command.length < Record.lengthBound) :
    ∃ extended, log.extend index entry = .ok extended ∧ Store.Reliable extended.store := by
  obtain ⟨store, happend, hreliable⟩ := h.append hlength
  refine ⟨⟨store, entry.term⟩, ?_, hreliable⟩
  have hsize : Store.size log.store = index := hindex
  rw [Log.extend, ← hsize, happend]
  rfl

theorem exists_push (h : Store.Reliable log.store) (term : Term) {command : Bytes}
    (hlength : command.length < Record.lengthBound) :
    ∃ pushed, log.push term command = .ok pushed ∧ Store.Reliable pushed.1.store := by
  have hroom : (⟨term, command⟩ : Entry).command.length < Record.lengthBound := hlength
  obtain ⟨extended, hextend, hreliable⟩ := exists_extend h rfl hroom
  exact ⟨_, map_eq_ok.mpr ⟨extended, hextend, rfl⟩, hreliable⟩

/-- A reliable store can be cut off anywhere. -/
theorem exists_truncate (h : Store.Reliable log.store) {index : Index} (hnonneg : 0 ≤ index) :
    ∃ shorter, log.truncate index = .ok shorter ∧ Store.Reliable shorter.store := by
  unfold Log.truncate
  split
  next => exact ⟨log, rfl, h⟩
  next =>
    obtain ⟨store, htruncate, hreliable⟩ := h.truncate hnonneg
    exact ⟨ofStore store, by rw [htruncate]; rfl, hreliable⟩

/-- A reliable store takes an entry at its place. -/
theorem place_ok (h : Store.Reliable log.store) {entry : PlacedEntry} (placement : Placement)
    (hindex : (log.entries.length : Int) = entry.index)
    (hlength : entry.command.length < Record.lengthBound) :
    (log.place entry placement).2 = .ok placement ∧
      Store.Reliable (log.place entry placement).1.store := by
  have hroom : (⟨entry.term, entry.command⟩ : Entry).command.length < Record.lengthBound := hlength
  obtain ⟨extended, hextend, hreliable⟩ := exists_extend h hindex hroom
  rw [place, hextend]
  exact ⟨rfl, hreliable⟩

/-- An entry that belongs in the log or right behind it is taken over. -/
theorem exists_accept [LawfulStore σ] (hcoherent : log.Coherent) (h : Store.Reliable log.store)
    {entry : PlacedEntry} (hnonneg : 0 ≤ entry.index)
    (hindex : entry.index ≤ log.entries.length)
    (hlength : entry.command.length < Record.lengthBound) :
    ∃ placement, (log.accept entry).2 = .ok placement ∧
      Store.Reliable (log.accept entry).1.store := by
  unfold accept
  cases hstanding : log.standing entry.key with
  | held => exact ⟨_, rfl, h⟩
  | beyond =>
    have hend := length_le_of_standing hstanding hnonneg
    exact ⟨_, place_ok h .added (Int.le_antisymm hend hindex) hlength⟩
  | conflicting =>
    obtain ⟨shorter, htruncate, hreliable⟩ := exists_truncate h hnonneg
    have hentries := (hcoherent.truncate_ok hnonneg htruncate).2.1
    rw [htruncate]
    refine ⟨_, place_ok hreliable (.replaced entry.index) ?_ hlength⟩
    rw [hentries, List.length_take]
    lia

/-! ## Sealed stores -/

theorem extend_ne_ok (h : Store.Sealed log.store) (index : Index) (entry : Entry)
    (extended : Log σ) : log.extend index entry ≠ .ok extended := by
  intro hextend
  obtain ⟨appended, happend, _⟩ := map_eq_ok.mp hextend
  exact h.append index entry appended happend

theorem push_ne_ok (h : Store.Sealed log.store) (term : Term) (command : Bytes)
    (pushed : Log σ × LogKey) : log.push term command ≠ .ok pushed := by
  intro hpush
  obtain ⟨extended, hextend, _⟩ := map_eq_ok.mp hpush
  exact extend_ne_ok h _ _ extended hextend

theorem truncate_eq_of_sealed (h : Store.Sealed log.store) {index : Index} {shorter : Log σ}
    (hok : log.truncate index = .ok shorter) : shorter = log := by
  unfold truncate at hok
  split at hok
  next => exact (Except.ok.inj hok).symm
  next =>
    obtain ⟨truncated, htruncate, _⟩ := map_eq_ok.mp hok
    exact absurd htruncate (h.truncate index truncated)

/-- A sealed store leaves the log as it was. -/
theorem place_eq_of_sealed (h : Store.Sealed log.store) (entry : PlacedEntry)
    (placement : Placement) : (log.place entry placement).1 = log := by
  unfold place
  split
  next => rfl
  next extended hextend => exact absurd hextend (extend_ne_ok h _ _ extended)

/-- A log whose store is sealed is left as it is by what it would take over. -/
theorem accept_eq_of_sealed (h : Store.Sealed log.store) (entry : PlacedEntry) :
    (log.accept entry).1 = log := by
  unfold accept
  split
  next => rfl
  next => exact place_eq_of_sealed h entry .added
  next =>
    split
    next => rfl
    next shorter htruncate =>
      obtain rfl := truncate_eq_of_sealed h htruncate
      exact place_eq_of_sealed h entry _

end Log

end Consensus
