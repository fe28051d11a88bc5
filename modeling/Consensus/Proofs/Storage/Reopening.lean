import Consensus.Proofs.Storage.Disk

/-! # Reopening a store

A store on disk may be dropped and its directory opened again between any two calls. Its
callers cannot tell: they get the answers of a store in memory that is never dropped.
-/

namespace Consensus

/-! ## Calls -/

/-- A call to a store. -/
inductive StoreCall where
  | save (term : Term) (votedFor : Option ServerId)
  | load
  | append (index : Index) (entry : Entry)
  | read (index : Index)
  | truncate (index : Index)
  | size
  deriving DecidableEq, Repr

/-- What a call that succeeds gives back. -/
inductive StoreReply where
  | done
  | vote (term : Term) (votedFor : Option ServerId)
  | entry (found : Option Entry)
  | size (count : Index)
  deriving DecidableEq, Repr

/-- What the caller gets: a reply, or the kind of a failure. -/
abbrev StoreAnswer := Except StorageFailure.Kind StoreReply

namespace StoreCall

/-- The numbers of a call fit their words and its command a record, and no truncation
is from a negative index. -/
def Fits : StoreCall → Prop
  | .save term votedFor => Word.InRange 4 term ∧ ∀ server ∈ votedFor, Word.InRange 4 server
  | .append index entry => Word.InRange 8 index ∧ Record.Fits entry
  | .truncate index => 0 ≤ index
  | .load => True
  | .read _ => True
  | .size => True

instance (call : StoreCall) : Decidable call.Fits :=
  match call with
  | .save term votedFor => inferInstanceAs
      (Decidable (Word.InRange 4 term ∧ ∀ server ∈ votedFor, Word.InRange 4 server))
  | .append index entry => inferInstanceAs (Decidable (Word.InRange 8 index ∧ Record.Fits entry))
  | .truncate index => inferInstanceAs (Decidable (0 ≤ index))
  | .load => inferInstanceAs (Decidable True)
  | .read _ => inferInstanceAs (Decidable True)
  | .size => inferInstanceAs (Decidable True)

section Serving

variable {σ : Type} [Store σ]

/-- The store left behind by a change, and the answer to it. A failed change leaves the
store alone. -/
def settle (store : σ) : Except StorageFailure σ → σ × StoreAnswer
  | .ok changed => (changed, .ok .done)
  | .error cause => (store, .error cause.kind)

/-- The store left behind by a call, and the answer to it. -/
def serve (store : σ) : StoreCall → σ × StoreAnswer
  | .save term votedFor => settle store (Store.save store term votedFor)
  | .append index entry => settle store (Store.append store index entry)
  | .truncate index => settle store (Store.truncate store index)
  | .load =>
    let loaded := (Store.load store).map fun (term, votedFor) => .vote term votedFor
    (store, loaded.mapError StorageFailure.kind)
  | .read index => (store, .ok (.entry (Store.read? store index)))
  | .size => (store, .ok (.size (Store.size store)))

/-- The store left behind by calls, and the answers to them. -/
def serveAll (store : σ) : List StoreCall → σ × List StoreAnswer
  | [] => (store, [])
  | call :: rest =>
    let served := serve store call
    let final := serveAll served.1 rest
    (final.1, served.2 :: final.2)

end Serving

end StoreCall

namespace DiskStore

/-- What happens to a store on disk. -/
inductive Event where
  | call (call : StoreCall)
  /-- The store is dropped, and its directory opened again. -/
  | reopen
  deriving DecidableEq, Repr

/-- The calls among events. -/
def calls : List Event → List StoreCall
  | [] => []
  | .call call :: rest => call :: calls rest
  | .reopen :: rest => calls rest

/-- The store left behind by events, and the answers to the calls among them. It ends with
the first reopening that fails. -/
def live (store : DiskStore) : List Event → Except StorageFailure (DiskStore × List StoreAnswer)
  | [] => .ok (store, [])
  | .call call :: rest => do
    let served := call.serve store
    let (final, answers) ← served.1.live rest
    return (final, served.2 :: answers)
  | .reopen :: rest => do
    let opened ← openDirectory store.directory
    opened.live rest

/-! ## Mirrored calls -/

/-- A store in memory that takes writes holds what the store on disk holds. -/
structure Mirrors (store : DiskStore) (memory : MemoryStore) : Prop where
  faithful : store.Faithful
  entries_eq : store.entries = memory.entries
  load_eq : store.load = .ok (memory.term, memory.votedFor)
  faultless : memory.faulty = false

variable {store : DiskStore} {memory : MemoryStore}

/-- Two outcomes of a change: both fail with one kind, or both leave mirrored stores. -/
def MirroredChange : Except StorageFailure DiskStore → Except StorageFailure MemoryStore → Prop
  | .ok changed, .ok mirrored => changed.Mirrors mirrored
  | .error cause, .error mirrored => cause.kind = mirrored.kind
  | _, _ => False

theorem Mirrors.save (h : store.Mirrors memory) {term : Term} {votedFor : Option ServerId}
    (hterm : Word.InRange 4 term) (hvote : ∀ server ∈ votedFor, Word.InRange 4 server) :
    MirroredChange (Store.save store term votedFor) (Store.save memory term votedFor) := by
  have hmemory : Store.save memory term votedFor = .ok { memory with term, votedFor } :=
    MemoryStore.write_of_faultless h.faultless
  rw [hmemory]
  exact ⟨h.faithful.save term votedFor, h.entries_eq, Metadata.read_render_of_fits hterm hvote,
    h.faultless⟩

theorem Mirrors.append (h : store.Mirrors memory) {index : Index} {entry : Entry}
    (hindex : Word.InRange 8 index) (hentry : Record.Fits entry) :
    MirroredChange (Store.append store index entry) (Store.append memory index entry) := by
  have hmemory : Store.append memory index entry = _ :=
    MemoryStore.append_of_faultless h.faultless index entry
  rw [hmemory, ← h.entries_eq]
  split
  next hplace =>
    subst hplace
    obtain ⟨appended, happend, hfaithful, hentries⟩ := h.faithful.append hentry hindex
    have hdisk : Store.append store (store.entries.length : Index) entry = .ok appended := happend
    rw [hdisk]
    exact ⟨hfaithful, hentries, (load_of_metadata_eq (append_eq_ok happend).2.2.2).trans h.load_eq,
      h.faultless⟩
  next hplace =>
    have hdisk : Store.append store index entry =
        .error (.appendOutOfOrder index store.entries.length) := if_pos hplace
    rw [hdisk]
    rfl

theorem Mirrors.truncate (h : store.Mirrors memory) {index : Index} (hnonneg : 0 ≤ index) :
    MirroredChange (Store.truncate store index) (Store.truncate memory index) := by
  have hmemory : Store.truncate memory index =
      .ok { memory with entries := memory.entries.take index.toNat } :=
    MemoryStore.write_of_faultless h.faultless
  obtain ⟨truncated, htruncate, hfaithful, hentries⟩ := h.faithful.truncate hnonneg
  have hdisk : Store.truncate store index = .ok truncated := htruncate
  have hmetadata := (truncate_eq_ok h.faithful.length_offsets htruncate).2.2
  rw [hmemory, hdisk]
  exact ⟨hfaithful, h.entries_eq ▸ hentries, (load_of_metadata_eq hmetadata).trans h.load_eq,
    h.faultless⟩

theorem Mirrors.settle (h : store.Mirrors memory) {changed : Except StorageFailure DiskStore}
    {mirrored : Except StorageFailure MemoryStore} (hchange : MirroredChange changed mirrored) :
    (StoreCall.settle store changed).1.Mirrors (StoreCall.settle memory mirrored).1 ∧
      (StoreCall.settle store changed).2 = (StoreCall.settle memory mirrored).2 := by
  cases changed with
  | ok changed =>
    cases mirrored with
    | ok mirrored => exact ⟨hchange, rfl⟩
    | error cause => exact hchange.elim
  | error cause =>
    cases mirrored with
    | ok mirrored => exact hchange.elim
    | error mirrored => exact ⟨h, congrArg Except.error hchange⟩

/-- Both stores give one answer to a call, and stay mirrored by it. -/
theorem Mirrors.serve (h : store.Mirrors memory) {call : StoreCall} (hfits : call.Fits) :
    (call.serve store).1.Mirrors (call.serve memory).1 ∧
      (call.serve store).2 = (call.serve memory).2 := by
  cases call with
  | save term votedFor => exact h.settle (h.save hfits.1 hfits.2)
  | append index entry => exact h.settle (h.append hfits.1 hfits.2)
  | truncate index => exact h.settle (h.truncate hfits)
  | load =>
    have hdisk : Store.load store = .ok (memory.term, memory.votedFor) := h.load_eq
    refine ⟨h, ?_⟩
    rw [StoreCall.serve, hdisk]
    rfl
  | read index =>
    have hentries : Store.entries store = Store.entries memory := h.entries_eq
    refine ⟨h, ?_⟩
    simp only [StoreCall.serve, Store.read?, hentries]
  | size =>
    have hentries : Store.entries store = Store.entries memory := h.entries_eq
    refine ⟨h, ?_⟩
    simp only [StoreCall.serve, Store.size, hentries]

/-- Reopening never fails in a mirrored life, and the answers are those of the mirror. -/
theorem Mirrors.live (h : store.Mirrors memory) {events : List Event}
    (hfits : ∀ call ∈ calls events, call.Fits) :
    ∃ final, store.live events = .ok (final, (StoreCall.serveAll memory (calls events)).2) ∧
      final.Mirrors (StoreCall.serveAll memory (calls events)).1 := by
  induction events generalizing store memory with
  | nil => exact ⟨store, rfl, h⟩
  | cons event rest ih =>
    cases event with
    | call call =>
      obtain ⟨hserved, hanswer⟩ := h.serve (hfits call List.mem_cons_self)
      obtain ⟨final, hlive, hfinal⟩ :=
        ih hserved fun later hlater => hfits later (List.mem_cons_of_mem _ hlater)
      refine ⟨final, ?_, hfinal⟩
      rw [DiskStore.live, hlive, hanswer]
      rfl
    | reopen =>
      obtain ⟨final, hlive, hfinal⟩ := ih h hfits
      refine ⟨final, ?_, hfinal⟩
      rw [DiskStore.live, h.faithful.openDirectory]
      exact hlive

theorem mirrors_fresh : Mirrors ⟨⟨some [], none⟩, [], [], 0, []⟩ {} :=
  ⟨faithful_fresh, rfl, rfl, rfl⟩

/-- A store on disk that starts in a fresh directory and is reopened at any points answers
each call as a new store in memory does. -/
theorem reopening_unnoticed {events : List Event} (hfits : ∀ call ∈ calls events, call.Fits) :
    ∃ opened final, openDirectory {} = .ok opened ∧
      opened.live events =
        .ok (final, (StoreCall.serveAll ({} : MemoryStore) (calls events)).2) := by
  obtain ⟨final, hlive, _⟩ := mirrors_fresh.live hfits
  exact ⟨_, final, openDirectory_fresh, hlive⟩

/-- A log that loses its last entry and grows again, with reopenings in between. -/
def regrowth : List Event := [
  .call (.save 3 (some 2)), .call (.append 0 ⟨1, [7, 8]⟩), .reopen, .call (.append 1 ⟨1, []⟩),
  .call (.append 1 ⟨3, [9]⟩), .call (.truncate 1), .reopen, .call (.append 1 ⟨3, [9]⟩), .reopen,
  .call (.read 1), .call (.read (-1)), .call .size, .call .load]

theorem reopening_unnoticed_regrowth :
    (∀ call ∈ calls regrowth, call.Fits) ∧
      ∃ opened final, openDirectory {} = .ok opened ∧
        opened.live regrowth = .ok (final, [
          .ok .done, .ok .done, .ok .done, .error .invalidInput, .ok .done, .ok .done,
          .ok (.entry (some ⟨3, [9]⟩)), .ok (.entry none), .ok (.size 2),
          .ok (.vote 3 (some 2))]) :=
  ⟨by decide, reopening_unnoticed (by decide)⟩

end DiskStore

end Consensus
