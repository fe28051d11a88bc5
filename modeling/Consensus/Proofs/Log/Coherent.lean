import Consensus.Log.Durable
import Consensus.Proofs.Log.Entries
import Consensus.Proofs.Storage.Lawful

/-! # Coherent state

Durable state is coherent while what is kept of it in memory is what a restart would
read from the store. Each change of it that succeeds keeps it so.
-/

namespace Consensus

/-! ## Logs -/

namespace Log

variable {σ : Type} [Store σ] [LawfulStore σ]

/-- The store is valid, and the last term kept at hand is the one stored. -/
structure Coherent (log : Log σ) : Prop where
  valid : LawfulStore.Valid log.store
  lastTerm_eq : log.lastTerm = Entries.lastTerm log.entries

/-! ## Reading -/

omit [LawfulStore σ] in
theorem termAt?_eq (log : Log σ) (index : Index) :
    log.termAt? index = Entries.termAt? log.entries index := rfl

theorem Coherent.lastKey_eq {log : Log σ} (h : log.Coherent) :
    log.lastKey = Entries.lastKey log.entries := by
  rw [Log.lastKey, h.lastTerm_eq]
  rfl

omit [LawfulStore σ] in
theorem storedLastTerm_eq (store : σ) :
    storedLastTerm store = Entries.lastTerm (Store.entries store) := by
  unfold storedLastTerm
  have hread : Store.read? store (Store.size store - 1) = (Store.entries store).getLast? := by
    rw [List.getLast?_eq_getElem?]
    unfold Store.read? Store.size
    split
    next hneg =>
      have hnone : (Store.entries store).length = 0 := by lia
      rw [List.length_eq_zero_iff.mp hnone]
      rfl
    next => congr 1; lia
  rw [hread]
  rfl

/-- A log is coherent when it is taken from a valid store. -/
theorem coherent_ofStore {store : σ} (hvalid : LawfulStore.Valid store) :
    (ofStore store).Coherent :=
  ⟨hvalid, storedLastTerm_eq store⟩

omit [LawfulStore σ] in
theorem standing_eq_held {log : Log σ} {key : LogKey} :
    log.standing key = .held ↔ Entries.Holds log.entries key := by
  unfold standing Entries.Holds
  by_cases hnull : key.IsNull
  · simp [hnull]
  · have hindex : ¬ key.index = nullIndex := hnull
    rw [if_neg hnull, termAt?_eq, Entries.termAt?, if_neg hindex]
    cases hread : Entries.read? log.entries key.index with
    | none => simp [hnull]
    | some entry =>
      by_cases hterm : entry.term = key.term
      · simp [hterm]
      · simp [hterm, hnull]

omit [LawfulStore σ] in
theorem conflicts_of_standing {log : Log σ} {key : LogKey}
    (h : log.standing key = .conflicting) : Entries.Conflicts log.entries key := by
  unfold standing at h
  split at h
  next => cases h
  next hnull =>
    have hindex : ¬ key.index = nullIndex := hnull
    rw [termAt?_eq, Entries.termAt?, if_neg hindex] at h
    cases hread : Entries.read? log.entries key.index with
    | none => simp [hread] at h
    | some entry =>
      refine ⟨entry, hread, fun hterm => ?_⟩
      simp [hread, hterm] at h

/-! ## Changes -/

/-- An entry that is appended becomes the last one, and the term and vote stay. -/
theorem Coherent.extend_ok {log extended : Log σ} (h : log.Coherent) {index : Index}
    {entry : Entry} (hok : log.extend index entry = .ok extended) :
    extended.Coherent ∧ index = log.entries.length ∧
      extended.entries = log.entries ++ [entry] ∧
      Store.load extended.store = Store.load log.store := by
  obtain ⟨store, happend, rfl⟩ := map_eq_ok.mp hok
  obtain ⟨hvalid, hindex, hentries, hload⟩ := LawfulStore.append_ok h.valid happend
  refine ⟨⟨hvalid, ?_⟩, hindex, hentries, hload⟩
  rw [Log.entries, hentries, Entries.lastTerm_concat]

/-- A cut leaves the entries in front of the index, and the term and vote. -/
theorem Coherent.truncate_ok {log shorter : Log σ} (h : log.Coherent) {index : Index}
    (hnonneg : 0 ≤ index) (hok : log.truncate index = .ok shorter) :
    shorter.Coherent ∧ shorter.entries = log.entries.take index.toNat ∧
      Store.load shorter.store = Store.load log.store := by
  unfold truncate at hok
  split at hok
  next hlong =>
    cases hok
    refine ⟨h, (List.take_of_length_le ?_).symm, rfl⟩
    have : (log.entries.length : Int) ≤ index := hlong
    lia
  next =>
    obtain ⟨store, htruncate, rfl⟩ := map_eq_ok.mp hok
    obtain ⟨hvalid, hentries, hload⟩ := LawfulStore.truncate_ok h.valid hnonneg htruncate
    exact ⟨coherent_ofStore hvalid, hentries, hload⟩

end Log

/-! ## Terms and votes -/

namespace Durable

variable {σ : Type} [Store σ] [LawfulStore σ]

/-- The log is coherent, and the store gives no other term and vote than those at hand. -/
structure Coherent (durable : Durable σ) : Prop where
  log : durable.log.Coherent
  loaded_eq : ∀ loaded, Store.load durable.log.store = .ok loaded →
    loaded = (durable.term, durable.votedFor)

/-- A log that is stored beside the same term and vote can take the place of another. -/
theorem Coherent.with_log {durable : Durable σ} (h : durable.Coherent) {log : Log σ}
    (hlog : log.Coherent) (hload : Store.load log.store = Store.load durable.log.store) :
    { durable with log }.Coherent :=
  ⟨hlog, fun loaded hloaded => h.loaded_eq loaded (hload ▸ hloaded)⟩

/-- A stored term and vote are the ones in force, beside the same entries. -/
theorem Coherent.record_ok {durable recorded : Durable σ} (h : durable.Coherent) {term : Term}
    {votedFor : Option ServerId} (hok : durable.record term votedFor = .ok recorded) :
    recorded.Coherent ∧ recorded.term = term ∧ recorded.votedFor = votedFor ∧
      recorded.log.entries = durable.log.entries := by
  obtain ⟨store, hsave, rfl⟩ := map_eq_ok.mp hok
  obtain ⟨hvalid, hentries, hload⟩ := LawfulStore.save_ok h.log.valid hsave
  refine ⟨⟨⟨hvalid, ?_⟩, hload⟩, rfl, rfl, hentries⟩
  rw [Log.entries, hentries]
  exact h.log.lastTerm_eq

/-- A newer term begins without a vote. -/
theorem Coherent.moveTo_ok {durable moved : Durable σ} (h : durable.Coherent) {term : Term}
    (hnewer : durable.term < term) (hok : durable.moveTo term = .ok moved) :
    moved.Coherent ∧ moved.term = term ∧ moved.votedFor = none ∧
      moved.log.entries = durable.log.entries := by
  rw [moveTo, if_neg (Int.not_le.mpr hnewer)] at hok
  exact h.record_ok hok

/-- An election is begun in the next term, with the vote for oneself. -/
theorem Coherent.openElection_ok {durable opened : Durable σ} (h : durable.Coherent)
    {self : ServerId} (hok : durable.openElection self = .ok opened) :
    durable.term < maxTerm ∧ opened.Coherent ∧ opened.term = durable.term + 1 ∧
      opened.votedFor = some self ∧ opened.log.entries = durable.log.entries := by
  unfold openElection at hok
  split at hok
  next => cases hok
  next hroom => exact ⟨Int.not_le.mp hroom, h.record_ok (mapError_eq_ok.mp hok)⟩

/-- What is loaded is what the store has. -/
theorem coherent_load {store : σ} (hvalid : LawfulStore.Valid store) {durable : Durable σ}
    (hok : load store = .ok durable) :
    durable.Coherent ∧ Store.load store = .ok (durable.term, durable.votedFor) ∧
      durable.log.entries = Store.entries store := by
  obtain ⟨⟨term, votedFor⟩, hload, rfl⟩ := map_eq_ok.mp hok
  refine ⟨⟨Log.coherent_ofStore hvalid, fun loaded hloaded => ?_⟩, hload, rfl⟩
  exact Except.ok.inj (hloaded.symm.trans hload)

end Durable

end Consensus
