import Consensus.Proofs.Replication.Sending
import Consensus.Proofs.Turn.Through
import Mathlib.Data.List.Nodup

/-! # The books of a leader

From its election until it steps down, a leader has one cursor for each peer, within its log,
and its log only grows. No answer of a follower and no write that fails can change that.
-/

namespace Consensus

variable {σ : Type} [Store σ]

@[simp] theorem Progress.cursors_raiseCommit (progress : Progress) (index : Index) :
    (progress.raiseCommit index).cursors = progress.cursors := by
  unfold raiseCommit
  split <;> rfl

@[simp] theorem Progress.tally_raiseCommit (progress : Progress) (index : Index) :
    (progress.raiseCommit index).tally = progress.tally := by
  unfold raiseCommit
  split <;> rfl

/-! ## Books in order -/

namespace Server

/-- The server has one cursor for each peer, within its log. -/
structure Tracks (server : Server σ) : Prop where
  peers : (server.progress.cursors.map Cursor.serverId).Perm server.config.peerIds
  within : ∀ cursor ∈ server.progress.cursors, cursor.Within server.log.size

/-- The peers are distinct, and a leader tracks them. -/
structure InOrder (server : Server σ) : Prop where
  distinct : server.config.peerIds.Nodup
  tracks : server.role.isLeader = true → server.Tracks

/-- The later server leads in the term in which the earlier one led. Its log has grown, and it
has lost no vote. -/
structure LedOn (earlier later : Server σ) : Prop where
  leads : earlier.role.isLeader = true
  config_eq : later.config = earlier.config
  term_eq : later.term = earlier.term
  log_isPrefix : earlier.log.entries <+: later.log.entries
  voters_subset : earlier.progress.tally.voters ⊆ later.progress.tally.voters

/-- Books that are in order stay so, and whoever leads later has led before. -/
def Upholds (earlier later : Server σ) : Prop :=
  earlier.InOrder → later.InOrder ∧ (later.role.isLeader = true → earlier.LedOn later)

variable {earlier middle later server : Server σ}

/-- A leadership that goes on twice goes on. -/
theorem LedOn.trans (h : earlier.LedOn middle) (hnext : middle.LedOn later) :
    earlier.LedOn later :=
  ⟨h.leads, hnext.config_eq.trans h.config_eq, hnext.term_eq.trans h.term_eq,
    h.log_isPrefix.trans hnext.log_isPrefix, List.Subset.trans h.voters_subset hnext.voters_subset⟩

instance : IsPreorder (Server σ) Upholds where
  refl server h := ⟨h, fun hleads => ⟨hleads, rfl, rfl, List.prefix_rfl, List.Subset.refl _⟩⟩
  trans earlier middle later h hnext horder := by
    obtain ⟨hmiddle, hled⟩ := h horder
    obtain ⟨hlater, hleads⟩ := hnext hmiddle
    exact ⟨hlater, fun hlast => (hled (hleads hlast).leads).trans (hleads hlast)⟩

/-- A server that does not lead has no books to keep. -/
theorem upholds_of_follows (hconfig : later.config = earlier.config)
    (hfollows : later.role.isLeader = false) : earlier.Upholds later := by
  refine fun horder => ⟨⟨hconfig ▸ horder.distinct, fun hleads => ?_⟩, fun hleads => ?_⟩
  all_goals exact absurd hleads (by simp [hfollows])

/-- The log may grow while the cursors stay where they are. -/
theorem upholds_of_grown (hconfig : later.config = earlier.config)
    (hleads : later.role.isLeader = earlier.role.isLeader) (hterm : later.term = earlier.term)
    (hlog : earlier.log.entries <+: later.log.entries)
    (hcursors : later.progress.cursors = earlier.progress.cursors)
    (hvoters : earlier.progress.tally.voters ⊆ later.progress.tally.voters) :
    earlier.Upholds later := by
  have hsize : earlier.log.size ≤ later.log.size := Int.ofNat_le.mpr hlog.length_le
  refine fun horder => ⟨⟨hconfig ▸ horder.distinct, fun hlater => ?_⟩, fun hlater => ?_⟩
  · obtain ⟨hpeers, hwithin⟩ := horder.tracks (hleads ▸ hlater)
    refine ⟨by rw [hcursors, hconfig]; exact hpeers, fun cursor hcursor => ?_⟩
    exact (hwithin cursor (hcursors ▸ hcursor)).mono hsize
  · exact ⟨hleads ▸ hlater, hconfig, hterm, hlog, hvoters⟩

/-- The cursor of a peer may move within the log. -/
theorem upholds_updateCursor {peer : ServerId} {cursor : Cursor} {change : Cursor → Cursor}
    (hcursor : server.progress.cursor? peer = some cursor)
    (hserver : (change cursor).serverId = cursor.serverId)
    (hwithin : cursor.Within server.log.size → (change cursor).Within server.log.size) :
    server.Upholds { server with progress := server.progress.updateCursor peer change } := by
  obtain ⟨hmember, hpeer⟩ := Cursors.mem_of_find? hcursor
  refine fun horder => ⟨⟨horder.distinct, fun hleads => ?_⟩, fun hleads => ?_⟩
  · obtain ⟨hpeers, hwithin_all⟩ := horder.tracks hleads
    -- No other cursor is of this peer.
    have honly : ∀ other ∈ server.progress.cursors, other.serverId = peer → other = cursor := by
      intro other hother hsame
      have hdistinct : (server.progress.cursors.map Cursor.serverId).Nodup :=
        hpeers.nodup_iff.mpr horder.distinct
      exact List.inj_on_of_nodup_map hdistinct hother hmember (hsame.trans hpeer.symm)
    refine ⟨?_, fun other hother => ?_⟩
    · have hservers := Cursors.serverIds_update server.progress.cursors fun other hother hsame => by
        rw [honly other hother hsame, hserver, hpeer]
      exact hservers ▸ hpeers
    · rcases Cursors.mem_update hother with hold | ⟨old, hold, hsame, rfl⟩
      · exact hwithin_all other hold
      · rw [honly old hold hsame]
        exact hwithin (hwithin_all cursor hmember)
  · exact ⟨hleads, rfl, rfl, List.prefix_rfl, List.Subset.refl _⟩

/-- The server as it is when it has just been elected. -/
def elected (server : Server σ) (now : Duration) : Server σ :=
  { server with
    role := .leader now
    progress := server.progress.resetCursors server.config.peerIds server.log.size
    timer := server.timer.restart now }

/-- A server that is elected starts its books. -/
theorem InOrder.elected (h : server.InOrder) (now : Duration) :
    (server.elected now).InOrder := by
  have hperm := Cursors.reset_perm server.log.size h.distinct
  have hservers : (server.config.peerIds.map (Cursor.fresh · server.log.size)).map
      Cursor.serverId = server.config.peerIds := by
    simp [Function.comp_def, Cursor.fresh]
  refine ⟨h.distinct, fun _ => ⟨?_, fun cursor hcursor => ?_⟩⟩
  · have hreset := hperm.map Cursor.serverId
    rwa [hservers] at hreset
  · obtain ⟨peer, _, rfl⟩ := List.mem_map.mp (hperm.mem_iff.mp hcursor)
    exact Cursor.within_fresh peer (Int.natCast_nonneg _)

end Server

namespace Action

open Server (Upholds upholds_of_grown upholds_updateCursor)

variable {first turn : Turn σ}

/-! ## Leading -/

/-- Sending an entry upholds the books. -/
theorem sendAppend_upholds (peer : ServerId) :
    KeepsTo Upholds (sendAppend peer : Action σ Unit) := by
  intro first turn h
  unfold sendAppend
  simp only [ends_bind, ends_server]
  split
  next => exact h
  next cursor hcursor =>
    simp only [ends_bind, ends_modifyProgress, ends_server]
    have hmoved : first.Through Upholds { turn with server := { turn.server with
        progress := turn.server.progress.updateCursor peer
          ({ · with nextIndex := min cursor.nextIndex turn.server.log.size }) } } := by
      refine h.step rfl (upholds_updateCursor hcursor rfl fun hwithin => ?_)
      rw [Int.min_eq_left hwithin.next_le]
      exact hwithin
    split
    next => exact hmoved
    next request _ => exact hmoved.post peer (.appendRequest request)

/-- Raising the commit index upholds the books. -/
theorem raiseCommit_upholds : KeepsTo Upholds (raiseCommit : Action σ Unit) := by
  intro first turn h
  unfold raiseCommit
  simp only [ends_bind, ends_server]
  refine ends_ite (fun _ => ?_) (fun _ => h)
  rw [ends_modifyProgress]
  exact h.step rfl (upholds_of_grown rfl rfl rfl List.prefix_rfl (by simp) (by simp))

/-- Appending a command upholds the books, for the log only grows. -/
theorem appendCommand_upholds [LawfulStore σ] {command : Command}
    (h : first.Through Upholds turn) (hcoherent : turn.server.durable.Coherent) :
    (appendCommand command).Ends (fun _ last => first.Through Upholds last)
      (first.Through Upholds) turn := by
  unfold appendCommand
  simp only [ends_bind, ends_server]
  split
  next => exact h
  next bytes _ =>
    rw [ends_bind]
    refine ends_changeDurable (fun durable hchange => ?_) h
    obtain ⟨⟨longer, key⟩, hpush, rfl⟩ := map_eq_ok.mp (mapError_eq_ok.mp hchange)
    obtain ⟨extended, hextend, hpair⟩ := map_eq_ok.mp hpush
    obtain rfl : extended = longer := congrArg Prod.fst hpair
    have hlog : turn.server.log.entries <+: extended.entries := by
      rw [(hcoherent.log.extend_ok hextend).2.2.1]
      exact List.prefix_append _ _
    have hadded : first.Through Upholds { turn with server := { turn.server with
        durable := { turn.server.durable with log := extended } } } :=
      h.step rfl (upholds_of_grown rfl rfl rfl hlog rfl (List.Subset.refl _))
    rw [ends_bind]
    apply (keepsTo_forM ?_ hadded).mono
    · intro _ last hlast
      exact raiseCommit_upholds hlast
    · intro peer first turn h
      simp only [ends_bind, ends_server]
      exact ends_ite (fun _ => sendAppend_upholds peer h) (fun _ => h)

/-- Moving a cursor forward upholds the books. -/
theorem followerMatched_upholds {peer : ServerId} {cursor : Cursor} (matchLogIndex : Index)
    (h : first.Through Upholds turn) (hcursor : turn.server.progress.cursor? peer = some cursor) :
    (followerMatched peer cursor matchLogIndex).Ends (fun _ last => first.Through Upholds last)
      (first.Through Upholds) turn := by
  unfold followerMatched
  simp only [ends_bind, ends_server, ends_modifyProgress]
  have hmoved : first.Through Upholds { turn with server := { turn.server with
      progress := turn.server.progress.updateCursor peer fun _ =>
        cursor.advance (min matchLogIndex turn.server.log.lastIndex) } } :=
    h.step rfl (upholds_updateCursor hcursor (Cursor.serverId_advance _ _)
      fun hwithin => hwithin.advance matchLogIndex)
  apply (raiseCommit_upholds hmoved).mono
  intro _ last hlast
  exact ends_ite (fun _ => sendAppend_upholds peer hlast) (fun _ => hlast)

/-- Taking a response upholds the books, whatever the response says. -/
theorem takeAppendResponse_upholds (response : AppendResponse) :
    KeepsTo Upholds (takeAppendResponse response : Action σ Unit) := by
  intro first turn h
  unfold takeAppendResponse
  simp only [ends_bind, ends_server]
  split
  next => exact h
  next cursor hcursor =>
    apply ends_ite
    · intro _
      exact followerMatched_upholds response.matchLogIndex h hcursor
    · intro _
      unfold followerRefused
      rw [ends_bind, ends_modifyProgress]
      apply sendAppend_upholds
      exact h.step rfl (upholds_updateCursor hcursor rfl fun hwithin => hwithin.backOff _)

/-- Heartbeats uphold the books. -/
theorem sendHeartbeats_upholds (nextHeartbeat : Duration) (h : first.Through Upholds turn)
    (hleads : turn.server.role.isLeader = true) :
    (sendHeartbeats nextHeartbeat).Ends (fun _ last => first.Through Upholds last)
      (first.Through Upholds) turn := by
  unfold sendHeartbeats
  simp only [ends_bind, ends_now]
  apply ends_ite
  · intro _
    simp only [ends_bind, ends_server, ends_setRole]
    apply keepsTo_forM sendAppend_upholds
    exact h.step rfl (upholds_of_grown rfl hleads.symm rfl List.prefix_rfl rfl (List.Subset.refl _))
  · intro _
    exact h

end Action

end Consensus
