import Consensus.Proofs.Log.Writes

/-! # Twin logs

Two logs with the same entries answer every question alike, however their stores came to hold
them. While no write fails, what makes twins of them lasts: the same change leaves twins again.
-/

namespace Consensus

variable {σ : Type} [Store σ]

namespace Log

variable {one other : Log σ}

theorem standing_congr (hentries : one.entries = other.entries) (key : LogKey) :
    one.standing key = other.standing key := by
  unfold standing
  rw [termAt?_eq, termAt?_eq, hentries]

variable [LawfulStore σ]

/-- The logs have the same entries, each as it is stored, in stores that take every write. -/
structure Twins (one other : Log σ) : Prop where
  entries_eq : one.entries = other.entries
  coherent : one.Coherent ∧ other.Coherent
  reliable : Store.Reliable one.store ∧ Store.Reliable other.store

theorem Twins.lastKey_eq (h : one.Twins other) : one.lastKey = other.lastKey := by
  rw [h.coherent.1.lastKey_eq, h.coherent.2.lastKey_eq, h.entries_eq]

/-- What is cut off from both leaves twins. -/
theorem Twins.truncate (h : one.Twins other) {index : Index} (hnonneg : 0 ≤ index) :
    ∃ shorter also, one.truncate index = .ok shorter ∧ other.truncate index = .ok also ∧
      shorter.Twins also := by
  obtain ⟨shorter, hshorter, hreliable⟩ := exists_truncate h.reliable.1 hnonneg
  obtain ⟨also, halso, hreliable_also⟩ := exists_truncate h.reliable.2 hnonneg
  obtain ⟨hcoherent, hentries, _⟩ := h.coherent.1.truncate_ok hnonneg hshorter
  obtain ⟨hcoherent_also, hentries_also, _⟩ := h.coherent.2.truncate_ok hnonneg halso
  refine ⟨shorter, also, hshorter, halso, ?_, ⟨hcoherent, hcoherent_also⟩,
    ⟨hreliable, hreliable_also⟩⟩
  rw [hentries, hentries_also, h.entries_eq]

variable {entry : PlacedEntry}

/-- What is put at the end of both leaves twins. -/
theorem Twins.place (h : one.Twins other) (placement : Placement)
    (hindex : (one.entries.length : Int) = entry.index)
    (hlength : entry.command.length < Record.lengthBound) :
    ∃ longer also, one.place entry placement = (longer, .ok placement) ∧
      other.place entry placement = (also, .ok placement) ∧ longer.Twins also := by
  have hroom : (⟨entry.term, entry.command⟩ : Entry).command.length < Record.lengthBound := hlength
  have hindex_other : (other.entries.length : Int) = entry.index := h.entries_eq ▸ hindex
  obtain ⟨longer, hlonger, hreliable⟩ := exists_extend h.reliable.1 hindex hroom
  obtain ⟨also, halso, hreliable_also⟩ := exists_extend h.reliable.2 hindex_other hroom
  obtain ⟨hcoherent, _, hentries, _⟩ := h.coherent.1.extend_ok hlonger
  obtain ⟨hcoherent_also, _, hentries_also, _⟩ := h.coherent.2.extend_ok halso
  refine ⟨longer, also, ?_, ?_, ?_, ⟨hcoherent, hcoherent_also⟩, ⟨hreliable, hreliable_also⟩⟩
  · rw [Log.place, hlonger]
  · rw [Log.place, halso]
  · rw [hentries, hentries_also, h.entries_eq]

/-- An entry that belongs in both or right behind them is taken over in the same way. -/
theorem Twins.accept (h : one.Twins other) (hnonneg : 0 ≤ entry.index)
    (hindex : entry.index ≤ one.entries.length)
    (hlength : entry.command.length < Record.lengthBound) :
    ∃ accepted also placement, one.accept entry = (accepted, .ok placement) ∧
      other.accept entry = (also, .ok placement) ∧ accepted.Twins also := by
  unfold Log.accept
  rw [← standing_congr h.entries_eq]
  cases hstanding : one.standing entry.key with
  | held => exact ⟨one, other, .alreadyHeld, rfl, rfl, h⟩
  | beyond =>
    have hend := length_le_of_standing hstanding hnonneg
    obtain ⟨longer, also, hlonger, halso, htwins⟩ :=
      h.place .added (Int.le_antisymm hend hindex) hlength
    exact ⟨longer, also, .added, hlonger, halso, htwins⟩
  | conflicting =>
    obtain ⟨shorter, cut, hshorter, hcut, htwins⟩ := h.truncate hnonneg
    have hend : (shorter.entries.length : Int) = entry.index := by
      rw [(h.coherent.1.truncate_ok hnonneg hshorter).2.1, List.length_take]
      lia
    obtain ⟨longer, also, hlonger, halso, hlater⟩ :=
      htwins.place (.replaced entry.index) hend hlength
    rw [hshorter, hcut]
    exact ⟨longer, also, .replaced entry.index, hlonger, halso, hlater⟩

end Log

namespace Durable

variable [LawfulStore σ] {one other recorded : Durable σ}

/-- Beside the term and the vote that are stored, the log stays what it is. -/
theorem record_log {term : Term} {votedFor : Option ServerId} (hcoherent : one.log.Coherent)
    (hok : one.record term votedFor = .ok recorded) :
    recorded.term = term ∧ recorded.votedFor = votedFor ∧ recorded.log.Coherent ∧
      recorded.log.entries = one.log.entries := by
  obtain ⟨store, hsave, rfl⟩ := map_eq_ok.mp hok
  obtain ⟨hvalid, hentries, _⟩ := LawfulStore.save_ok hcoherent.valid hsave
  refine ⟨rfl, rfl, ⟨hvalid, ?_⟩, hentries⟩
  rw [Log.entries, hentries]
  exact hcoherent.lastTerm_eq

/-- A term and a vote can be stored beside twins, whatever was stored there before. -/
theorem exists_record_twins (h : one.log.Twins other.log) (term : Term)
    (votedFor : Option ServerId) :
    ∃ recorded also, one.record term votedFor = .ok recorded ∧
      other.record term votedFor = .ok also ∧ recorded.term = term ∧ also.term = term ∧
      recorded.votedFor = votedFor ∧ also.votedFor = votedFor ∧ recorded.log.Twins also.log := by
  obtain ⟨recorded, hrecorded, hreliable⟩ := exists_record h.reliable.1 term votedFor
  obtain ⟨also, halso, hreliable_also⟩ := exists_record h.reliable.2 term votedFor
  obtain ⟨hterm, hvote, hcoherent, hentries⟩ := record_log h.coherent.1 hrecorded
  obtain ⟨hterm_also, hvote_also, hcoherent_also, hentries_also⟩ :=
    record_log h.coherent.2 halso
  refine ⟨recorded, also, hrecorded, halso, hterm, hterm_also, hvote, hvote_also, ?_,
    ⟨hcoherent, hcoherent_also⟩, ⟨hreliable, hreliable_also⟩⟩
  rw [hentries, hentries_also, h.entries_eq]

end Durable

end Consensus
