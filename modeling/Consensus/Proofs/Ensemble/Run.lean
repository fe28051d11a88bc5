import Consensus.Proofs.Config.Quorum
import Consensus.Proofs.Storage.Lawful
import Consensus.Server.Operations
import Mathlib.Logic.Function.Basic

/-! # Ensembles

An ensemble is a cluster whose network owes nobody anything: what was offered once can
arrive late, again and out of order, or never. Clock readings and timer draws are
whatever they happen to be, and a server can be restarted at any time.
-/

namespace Consensus

/-- A frame on the channel from its sender to its receiver. -/
structure Parcel where
  sender : ServerId
  receiver : ServerId
  frame : Bytes
  deriving DecidableEq

/-- Servers by their ids, and every frame that one of them ever offered. -/
structure Ensemble (σ : Type) where
  servers : ServerId → Server σ
  offered : List Parcel

namespace Ensemble

variable {σ : Type}

/-- Puts a server in the place of another. -/
def replace (ensemble : Ensemble σ) (id : ServerId) (server : Server σ) : Ensemble σ :=
  { ensemble with servers := Function.update ensemble.servers id server }

/-- A frame counts as offered whether or not the transport takes it. -/
def offer (ensemble : Ensemble σ) (messages : List (ServerId × Message)) (sender : ServerId) :
    Ensemble σ :=
  { ensemble with
    offered := ensemble.offered ++ messages.map fun (receiver, message) =>
      ⟨sender, receiver, message.encode⟩ }

/-- Takes over what a call to a server left behind. -/
def settle {α : Type} (ensemble : Ensemble σ) (id : ServerId) (outcome : Outcome σ α) :
    Ensemble σ :=
  (ensemble.replace id outcome.server).offer outcome.messages id

@[simp] theorem servers_replace_self (ensemble : Ensemble σ) (id : ServerId) (server : Server σ) :
    (ensemble.replace id server).servers id = server :=
  Function.update_self ..

theorem servers_replace_of_ne (ensemble : Ensemble σ) {id other : ServerId} (server : Server σ)
    (hne : other ≠ id) : (ensemble.replace id server).servers other = ensemble.servers other :=
  Function.update_of_ne hne ..

@[simp] theorem servers_settle_self {α : Type} (ensemble : Ensemble σ) (id : ServerId)
    (outcome : Outcome σ α) : (ensemble.settle id outcome).servers id = outcome.server :=
  ensemble.servers_replace_self id outcome.server

theorem servers_settle_of_ne {α : Type} (ensemble : Ensemble σ) {id other : ServerId}
    (outcome : Outcome σ α) (hne : other ≠ id) :
    (ensemble.settle id outcome).servers other = ensemble.servers other :=
  ensemble.servers_replace_of_ne outcome.server hne

/-- What is offered after a call was offered before, or is the frame of a message that the
call posted. -/
theorem mem_offered_settle {α : Type} {ensemble : Ensemble σ} {id : ServerId}
    {outcome : Outcome σ α} {parcel : Parcel}
    (h : parcel ∈ (ensemble.settle id outcome).offered) :
    parcel ∈ ensemble.offered ∨ ∃ posting ∈ outcome.postings,
      parcel = ⟨id, posting.receiver, posting.message.encode⟩ := by
  rcases List.mem_append.mp h with hold | hnew
  · exact .inl hold
  · rw [Outcome.messages, List.map_map] at hnew
    obtain ⟨posting, hposting, rfl⟩ := List.mem_map.mp hnew
    exact .inr ⟨posting, hposting, rfl⟩

variable [Store σ] [LawfulStore σ]

/-- Members that have just started, each from an empty store and with a configuration that
lists the others. -/
structure Started (members : Finset ServerId) (ensemble : Ensemble σ) : Prop where
  ids_fit : ∀ id ∈ members, Word.InRange 4 id
  offered_eq : ensemble.offered = []
  started : ∀ id ∈ members, ∃ config store draws now, config.serverId = id ∧
    (∀ other, other ∈ config.peerIds ↔ other ∈ members ∧ other ≠ id) ∧
    LawfulStore.Valid store ∧ Store.load store = .ok (0, none) ∧ Store.entries store = [] ∧
    Server.start config store draws now = .ok (ensemble.servers id)

/-- What can happen to a member at any time. Indices are words of 64 bits with a sign, so a
command is only added while there is an index left for it. -/
inductive Step (members : Finset ServerId) (before : Ensemble σ) : Ensemble σ → Prop where
  /-- Receive a frame that was offered, on the channel of its sender. -/
  | receive {id sender : ServerId} {frame : Bytes} (now : Duration) (hmember : id ∈ members)
      (hoffered : ⟨sender, id, frame⟩ ∈ before.offered) :
      Step members before
        (before.settle id ((before.servers id).receive now sender frame))
  | submit {id : ServerId} (now : Duration) (command : Command) (hmember : id ∈ members)
      (hroom : (before.servers id).log.size < Cursor.maxIndex) :
      Step members before (before.settle id ((before.servers id).submit now command))
  | receiveCommand {id : ServerId} (now : Duration) (frame : Bytes) (hmember : id ∈ members)
      (hroom : (before.servers id).log.size < Cursor.maxIndex) :
      Step members before (before.settle id ((before.servers id).receiveCommand now frame))
  | pollTimer {id : ServerId} (now : Duration) (hmember : id ∈ members) :
      Step members before (before.settle id ((before.servers id).pollTimer now))
  | perform {id : ServerId} (now : Duration) (hmember : id ∈ members) :
      Step members before (before.settle id ((before.servers id).perform now))
  /-- Ask a peer to take over the leadership. -/
  | transfer {id target : ServerId} {message : Message} (hmember : id ∈ members)
      (hrequest : (before.servers id).transferRequest target = .ok message) :
      Step members before (before.offer [(target, message)] id)
  /-- Start again from a store that holds what the server had stored. -/
  | restart {id : ServerId} {store : σ} {server : Server σ} (draws : Draws) (now : Duration)
      (hmember : id ∈ members) (hvalid : LawfulStore.Valid store)
      (hload : Store.load store = Store.load (before.servers id).log.store)
      (hentries : Store.entries store = (before.servers id).log.entries)
      (hstart : Server.start (before.servers id).config store draws now = .ok server) :
      Step members before (before.replace id server)

/-- The moments of a run, the latest one first. -/
inductive Run (members : Finset ServerId) : List (Ensemble σ) → Prop where
  | start {ensemble : Ensemble σ} (h : Started members ensemble) : Run members [ensemble]
  | step {before after : Ensemble σ} {earlier : List (Ensemble σ)}
      (h : Run members (before :: earlier)) (hstep : Step members before after) :
      Run members (after :: before :: earlier)

end Ensemble

end Consensus
