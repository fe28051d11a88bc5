import Consensus.Proofs.Log.Coherent
import Consensus.Proofs.Protocol.View
import Consensus.Proofs.Turn.Action

/-! # Traces

A turn traces the protocol when it goes from move to move and vouches for each of its
postings at the moment it posts it. Changes that no other server can notice, of the
timer or of what is to be sent next, leave the view as it is.
-/

namespace Consensus

variable {σ : Type} [Store σ] [LawfulStore σ]

/-- What the server keeps at hand agrees with its store, and only a leader has cursors. -/
structure Server.Coherent (server : Server σ) : Prop where
  durable : server.durable.Coherent
  commit_ge : nullIndex ≤ server.commitIndex
  cursors_eq : server.role.isLeader = false → server.progress.cursors = []

theorem Server.Coherent.lastKey_eq {server : Server σ} (h : server.Coherent) :
    server.log.lastKey = server.view.log.lastKey :=
  h.durable.log.lastKey_eq

omit [LawfulStore σ] in
theorem Server.view_with_durable (server : Server σ) (durable : Durable σ) :
    ({ server with durable } : Server σ).view = { server.view with
      term := durable.term, votedFor := durable.votedFor, log := durable.log.entries } := rfl

namespace Turn

/-- The turn has come from `first` to `last` by moves and postings of a server that is given
`intake`. -/
inductive Trace (intake : View.Intake) (first : Turn σ) : Turn σ → Prop where
  | start (hcoherent : first.server.Coherent) : Trace intake first first
  | move {last : Turn σ} {server : Server σ} (h : Trace intake first last)
      (hmove : last.server.view.Move intake server.view) (hcoherent : server.Coherent) :
      Trace intake first { last with server }
  | still {last : Turn σ} {server : Server σ} (h : Trace intake first last)
      (hview : server.view = last.server.view) (hcoherent : server.Coherent) :
      Trace intake first { last with server }
  | post {last : Turn σ} {receiver : ServerId} {message : Message} (h : Trace intake first last)
      (hvouches : last.server.view.Vouches intake receiver message) :
      Trace intake first { last with
        postings := last.postings ++ [⟨receiver, message, last.server⟩] }

variable {intake : View.Intake} {first last : Turn σ}

/-- A traced turn leaves the server coherent. -/
theorem Trace.coherent (h : Trace intake first last) : last.server.Coherent := by
  induction h with
  | start hcoherent => exact hcoherent
  | move _ _ hcoherent => exact hcoherent
  | still _ _ hcoherent => exact hcoherent
  | post _ _ ih => exact ih

/-- No other server can notice a change of the timer. -/
theorem Trace.timer (h : Trace intake first last) (timer : Countdown) :
    Trace intake first { last with server := { last.server with timer } } :=
  h.still rfl ⟨h.coherent.durable, h.coherent.commit_ge, h.coherent.cursors_eq⟩

/-- Of a role, other servers can notice only whether it leads. -/
theorem Trace.role (h : Trace intake first last) (role : Role)
    (hsame : role.isLeader = last.server.role.isLeader) :
    Trace intake first { last with server := { last.server with role } } := by
  refine h.still ?_ ⟨h.coherent.durable, h.coherent.commit_ge, fun hfollows => ?_⟩
  · exact congrArg (fun leads => { last.server.view with leads }) hsame
  · exact h.coherent.cursors_eq (hsame.symm.trans hfollows)

end Turn

/-- Whatever turn it is part of, the action traces the protocol, also when it fails. -/
def Action.Faithful {α : Type} (intake : View.Intake) (action : Action σ α) : Prop :=
  ∀ ⦃first turn : Turn σ⦄, Turn.Trace intake first turn →
    action.Ends (fun _ last => Turn.Trace intake first last) (Turn.Trace intake first) turn

end Consensus
