import Consensus.Proofs.Storage.Lawful
import Consensus.Proofs.Wire.Exact
import Consensus.Storage.Backend

/-! # Reliable and sealed stores

A store is reliable while none of its writes can fail: not now, and not after other writes.
Nothing is asked of an append that is out of place, or of a command that is too long for a
record, since no server asks for those. A store is sealed while all of its writes fail.
-/

namespace Consensus

namespace Store

variable {σ : Type} [Store σ]

/-- These stores take whatever is written to them, and stay among themselves by it. -/
structure Willing (among : σ → Prop) : Prop where
  save : ∀ store, among store → ∀ term votedFor,
    ∃ saved, Store.save store term votedFor = .ok saved ∧ among saved
  append : ∀ store, among store → ∀ entry : Entry, entry.command.length < Record.lengthBound →
    ∃ appended, Store.append store (Store.size store) entry = .ok appended ∧ among appended
  truncate : ∀ store, among store → ∀ index, 0 ≤ index →
    ∃ truncated, Store.truncate store index = .ok truncated ∧ among truncated

/-- No write to the store fails, now or later. -/
def Reliable (store : σ) : Prop := ∃ among : σ → Prop, Willing among ∧ among store

variable {store : σ}

theorem Reliable.save (h : Reliable store) (term : Term) (votedFor : Option ServerId) :
    ∃ saved, Store.save store term votedFor = .ok saved ∧ Reliable saved := by
  obtain ⟨among, hwilling, hstore⟩ := h
  obtain ⟨saved, hsave, hsaved⟩ := hwilling.save store hstore term votedFor
  exact ⟨saved, hsave, among, hwilling, hsaved⟩

theorem Reliable.append (h : Reliable store) {entry : Entry}
    (hlength : entry.command.length < Record.lengthBound) :
    ∃ appended, Store.append store (Store.size store) entry = .ok appended ∧
      Reliable appended := by
  obtain ⟨among, hwilling, hstore⟩ := h
  obtain ⟨appended, happend, happended⟩ := hwilling.append store hstore entry hlength
  exact ⟨appended, happend, among, hwilling, happended⟩

theorem Reliable.truncate (h : Reliable store) {index : Index} (hnonneg : 0 ≤ index) :
    ∃ truncated, Store.truncate store index = .ok truncated ∧ Reliable truncated := by
  obtain ⟨among, hwilling, hstore⟩ := h
  obtain ⟨truncated, htruncate, htruncated⟩ := hwilling.truncate store hstore index hnonneg
  exact ⟨truncated, htruncate, among, hwilling, htruncated⟩

/-- No write to the store succeeds. -/
structure Sealed (store : σ) : Prop where
  save : ∀ term votedFor saved, Store.save store term votedFor ≠ .ok saved
  append : ∀ index entry appended, Store.append store index entry ≠ .ok appended
  truncate : ∀ index truncated, Store.truncate store index ≠ .ok truncated

end Store

/-! ## Both kinds of store -/

/-- A store in memory is reliable while no fault is set. -/
theorem MemoryStore.reliable {store : MemoryStore} (hfaultless : store.faulty = false) :
    Store.Reliable store := by
  refine ⟨fun store => store.faulty = false, ⟨?_, ?_, ?_⟩, hfaultless⟩
  · intro store hstore term votedFor
    exact ⟨_, MemoryStore.write_of_faultless hstore, hstore⟩
  · intro store hstore entry _
    refine ⟨{ store with entries := store.entries ++ [entry] }, ?_, hstore⟩
    show MemoryStore.append store store.entries.length entry = _
    rw [MemoryStore.append_of_faultless hstore, if_pos rfl]
  · intro store hstore index _
    exact ⟨_, MemoryStore.write_of_faultless hstore, hstore⟩

/-- A store in memory is sealed while a fault is set. -/
theorem MemoryStore.sealed {store : MemoryStore} (hfaulty : store.faulty = true) :
    Store.Sealed store := by
  have hwrite : ∀ changed written, store.write changed ≠ .ok written := by
    intro changed written hwritten
    unfold write at hwritten
    rw [if_pos hfaulty] at hwritten
    cases hwritten
  refine ⟨fun _ _ => hwrite _, fun index entry appended happended => ?_, fun _ => hwrite _⟩
  obtain ⟨written, hwritten, _⟩ := bind_eq_ok.mp happended
  exact hwrite _ written hwritten

/-- A store in memory takes all that is written to it, or nothing. -/
theorem MemoryStore.reliable_or_sealed (store : MemoryStore) :
    Store.Reliable store ∨ Store.Sealed store := by
  cases hfaulty : store.faulty with
  | false => exact .inl (reliable hfaulty)
  | true => exact .inr (sealed hfaulty)

/-- A store on disk takes what is written to it while the operating system does. -/
theorem DiskStore.reliable {store : DiskStore} (hcalm : store.fates = []) :
    Store.Reliable store := by
  refine ⟨fun store => store.fates = [], ⟨?_, ?_, ?_⟩, hcalm⟩
  · exact fun store hstore term votedFor => ⟨_, rfl, hstore⟩
  · intro store hstore entry hlength
    refine ⟨store.extended entry, ?_, hstore⟩
    show store.append store.entries.length entry = _
    rw [DiskStore.append, if_neg (not_not_intro rfl), if_neg (Nat.not_le.mpr hlength),
      DiskStore.commit, hstore]
  · intro store hstore index hnonneg
    show ∃ truncated, store.truncate index = .ok truncated ∧ truncated.fates = []
    rw [DiskStore.truncate, if_neg (Int.not_lt.mpr hnonneg)]
    split
    next => exact ⟨_, rfl, hstore⟩
    next offset _ =>
      exact ⟨store.shortened index.toNat offset, by rw [DiskStore.commit, hstore], hstore⟩

/-! ## Commands -/

/-- What is read as a command is short enough for a record. -/
theorem Command.Decodes.length_lt {bytes : Bytes} (h : Command.Decodes bytes) :
    bytes.length < Record.lengthBound := by
  obtain ⟨command, hread⟩ := h
  obtain ⟨hlayout, hpayload⟩ := Command.layout_of_decode hread
  rw [← hlayout, Command.length_layout]
  simp only [Command.encodedLength, commandHeaderLength, Command.maxPayload, Record.lengthBound,
    Word.bound] at hpayload ⊢
  omega

end Consensus
