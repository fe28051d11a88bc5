import Consensus.Proofs.Turn.Applying
import Consensus.Proofs.Turn.Leading
import Consensus.Server.Operations

/-! # Sending to one follower

What a leader sends to a follower is decided by the follower's cursor, and each answer of the
follower moves that cursor and nothing else that matters to it. As long as the cursor stays
within the log, every answer but the last one is followed by one more request.
-/

namespace Consensus

/-- The cursor points into a log of this size or behind its end, past what is known. -/
structure Cursor.Within (cursor : Cursor) (size : Int) : Prop where
  matched_ge : nullIndex ≤ cursor.matchIndex
  matched_lt : cursor.matchIndex < cursor.nextIndex
  next_le : cursor.nextIndex ≤ size

namespace Cursor

variable {cursor : Cursor} {size : Int}

/-- A fresh cursor is within the log. -/
theorem within_fresh (server : ServerId) (hnonneg : 0 ≤ size) :
    (fresh server size).Within size := by
  refine ⟨Int.le_refl _, ?_, Int.le_refl _⟩
  simp only [fresh, nullIndex]
  lia

theorem Within.next_nonneg (h : cursor.Within size) : 0 ≤ cursor.nextIndex := by
  have hlow : -1 ≤ cursor.matchIndex := h.matched_ge
  have hlt := h.matched_lt
  lia

/-- A cursor stays within a log that grows. -/
theorem Within.mono (h : cursor.Within size) {larger : Int} (hsize : size ≤ larger) :
    cursor.Within larger :=
  ⟨h.matched_ge, h.matched_lt, Int.le_trans h.next_le hsize⟩

/-- Whatever index a cursor is moved up to, it stays within the log. -/
theorem Within.advance (h : cursor.Within size) (matched : Index) :
    (cursor.advance (min matched (size - 1))).Within size := by
  obtain ⟨hlow, hlt, hle⟩ := h
  unfold Cursor.advance
  split
  next => refine ⟨?_, ?_, ?_⟩ <;> dsimp only <;> lia
  next => exact ⟨hlow, hlt, hle⟩

/-- Whatever the hint, a cursor that steps back stays above what is known. -/
theorem Within.backOff (h : cursor.Within size) (hint : Index) :
    (cursor.backOff hint).Within size := by
  have hnonneg := h.next_nonneg
  obtain ⟨hlow, hlt, hle⟩ := h
  refine ⟨hlow, ?_, ?_⟩ <;> simp only [Cursor.backOff] <;> lia

/-- What an answer makes of a cursor into a log of this size. -/
def answered (cursor : Cursor) (size : Int) (response : AppendResponse) : Cursor :=
  if response.successful then cursor.advance (min response.matchLogIndex (size - 1))
  else cursor.backOff response.matchLogIndex

/-- A response leaves the cursor within the log, whatever it says. -/
theorem Within.answered (h : cursor.Within size) (response : AppendResponse) :
    (cursor.answered size response).Within size := by
  unfold Cursor.answered
  split
  next => exact h.advance response.matchLogIndex
  next => exact h.backOff response.matchLogIndex

end Cursor

variable {σ : Type} [Store σ]

/-- The server leads in a term with this log, and has a cursor for the peer. -/
structure Server.Leads (server : Server σ) (term : Term) (log : Entries) (peer : ServerId)
    (cursor : Cursor) : Prop where
  leads : server.role.isLeader = true
  term_eq : server.term = term
  entries_eq : server.log.entries = log
  cursor_eq : server.progress.cursor? peer = some cursor
  commit_ge : nullIndex ≤ server.commitIndex
  applicable : server.Applicable

/-- The request shows the leader's log at an index. -/
structure AppendRequest.Shows (request : AppendRequest) (leader : ServerId) (term : Term)
    (log : Entries) (next : Index) : Prop where
  term_eq : request.term = term
  leaderId_eq : request.leaderId = leader
  prev_index : request.prevLogEntry.index = next - 1
  shows : log.Shows request
  commit_ge : nullIndex ≤ request.leaderCommit
  commit_lt : request.leaderCommit < log.length

variable {term : Term} {log : Entries} {peer : ServerId} {cursor : Cursor}

namespace Server

variable {server later : Server σ}

theorem Leads.applied (h : server.Leads term log peer cursor) (happlied : later.Applied server) :
    later.Leads term log peer cursor := by
  have hterm : later.term = server.term := congrArg Durable.term happlied.durable_eq
  have hlog : later.log = server.log := congrArg Durable.log happlied.durable_eq
  refine ⟨happlied.role_eq ▸ h.leads, hterm.trans h.term_eq, hlog ▸ h.entries_eq, ?_,
    happlied.commitIndex_eq ▸ h.commit_ge, happlied.applicable h.applicable⟩
  rw [Progress.cursor?, happlied.cursors_eq]
  exact h.cursor_eq

theorem Leads.updateCursor (h : server.Leads term log peer cursor) {change : Cursor → Cursor}
    (hserver : (change cursor).serverId = cursor.serverId) :
    Leads { server with progress := server.progress.updateCursor peer change } term log peer
      (change cursor) :=
  ⟨h.leads, h.term_eq, h.entries_eq, Cursors.find?_update h.cursor_eq hserver, h.commit_ge,
    ⟨h.applicable.applied_ge, h.applicable.commit_lt, h.applicable.decodes⟩⟩

/-- A request can be made for every index up to the end of the log. -/
theorem Leads.exists_request (h : server.Leads term log peer cursor) {next : Index}
    (hnonneg : 0 ≤ next) (hnext : next ≤ log.length) :
    ∃ request, server.appendRequest? next = some request ∧
      request.Shows server.id term log next := by
  have hterm : ∃ prev, server.log.termAt? (next - 1) = some prev := by
    by_cases hnull : next - 1 = nullIndex
    · exact ⟨nullTerm, if_pos hnull⟩
    · have hfirst : ¬ next - 1 = -1 := hnull
      have hplace : (next - 1).toNat < server.log.entries.length := by
        rw [h.entries_eq]
        lia
      exact ⟨_, Entries.termAt?_of_read?
        (Entries.read?_eq_some_iff.mpr ⟨by lia, List.getElem?_eq_getElem hplace⟩)⟩
  obtain ⟨prev, hprev⟩ := hterm
  have hrequest : server.appendRequest? next = some {
      term := server.term
      leaderId := server.id
      prevLogEntry := ⟨prev, next - 1⟩
      leaderCommit := server.commitIndex
      entry := server.log.entryAt? next } := by
    rw [appendRequest?, Log.keyBefore?, hprev]
    rfl
  obtain ⟨_, _, _, hshows⟩ := appendRequest?_eq_some hrequest
  refine ⟨_, hrequest, h.term_eq, rfl, rfl, h.entries_eq ▸ hshows, h.commit_ge, ?_⟩
  rw [← h.entries_eq]
  exact h.applicable.commit_lt

end Server

/-! ## Turns -/

namespace Turn

/-- The turn goes on with the cursor as given and posts nothing. -/
structure Keeps (term : Term) (log : Entries) (peer : ServerId) (cursor : Cursor)
    (first last : Turn σ) : Prop where
  leads : last.server.Leads term log peer cursor
  config_eq : last.server.config = first.server.config
  postings_eq : last.postings = first.postings

theorem Keeps.updateCursor {first turn : Turn σ} (h : Keeps term log peer cursor first turn)
    {change : Cursor → Cursor} {moved : Cursor} (hmoved : change cursor = moved)
    (hserver : moved.serverId = cursor.serverId) :
    Keeps term log peer moved first { turn with
      server := { turn.server with
        progress := turn.server.progress.updateCursor peer change } } := by
  subst hmoved
  exact ⟨h.leads.updateCursor hserver, h.config_eq, h.postings_eq⟩

/-- The turn goes on with the cursor as given and sends the peer what is there. -/
structure Sends (term : Term) (log : Entries) (peer : ServerId) (cursor : Cursor)
    (first last : Turn σ) : Prop where
  leads : last.server.Leads term log peer cursor
  config_eq : last.server.config = first.server.config
  posted : ∃ request sender, request.Shows first.server.id term log cursor.nextIndex ∧
    last.postings = first.postings ++ [⟨peer, .appendRequest request, sender⟩]

/-- The turn moves the cursor by a response. It stops when the follower holds the whole log by
that response, and otherwise sends the peer what is there. -/
def Responds (term : Term) (log : Entries) (peer : ServerId) (response : AppendResponse)
    (moved : Cursor) (first last : Turn σ) : Prop :=
  (response.successful = true ∧ moved.nextIndex = log.length ∧
      Keeps term log peer moved first last) ∨
    ((response.successful = true → moved.nextIndex < log.length) ∧
      Sends term log peer moved first last)

end Turn

namespace Action

open Turn

variable {first turn : Turn σ}

/-- A leader sends what is at the cursor of the peer. -/
theorem sendAppend_sends (h : Keeps term log peer cursor first turn)
    (hwithin : cursor.Within log.length) :
    (sendAppend peer).Ends (fun _ last => Sends term log peer cursor first last)
      (fun _ => False) turn := by
  have hsize : turn.server.log.size = log.length := by
    rw [← h.leads.entries_eq]
    rfl
  have hnext : min cursor.nextIndex turn.server.log.size = cursor.nextIndex := by
    rw [hsize]
    exact Int.min_eq_left hwithin.next_le
  unfold sendAppend
  rw [ends_bind, ends_server, h.leads.cursor_eq]
  dsimp only
  rw [hnext]
  simp only [ends_bind, ends_modifyProgress, ends_server]
  have hkept : Keeps term log peer cursor first { turn with
      server := { turn.server with
        progress := turn.server.progress.updateCursor peer
          ({ · with nextIndex := cursor.nextIndex }) } } := h.updateCursor rfl rfl
  obtain ⟨request, hrequest, hshows⟩ :=
    hkept.leads.exists_request hwithin.next_nonneg hwithin.next_le
  rw [hrequest]
  refine ⟨hkept.leads, h.config_eq, request, _, ?_, by rw [h.postings_eq]⟩
  have hid : turn.server.id = first.server.id := congrArg Config.serverId h.config_eq
  exact hid ▸ hshows

/-- Raising the commit index leaves the cursors alone. -/
theorem raiseCommit_keeps (h : Keeps term log peer cursor first turn) :
    raiseCommit.Ends (fun _ last => Keeps term log peer cursor first last) (fun _ => False)
      turn := by
  unfold raiseCommit
  simp only [ends_bind, ends_server]
  refine ends_ite (fun hcommits => ?_) (fun _ => h)
  obtain ⟨hraise, hterm⟩ := hcommits
  have hheld : turn.server.majorityMatch < turn.server.log.entries.length := by
    rcases Entries.termAt?_eq_some hterm with hnull | ⟨entry, hread, _⟩
    · rw [hnull]
      exact Int.lt_of_lt_of_le (by decide) (Int.natCast_nonneg _)
    · exact (Entries.bounds_of_read? hread).2
  have hprogress : turn.server.progress.raiseCommit turn.server.majorityMatch =
      { turn.server.progress with commitIndex := turn.server.majorityMatch } := if_pos hraise
  rw [ends_modifyProgress, hprogress]
  have hleads := h.leads
  have happlicable := hleads.applicable
  exact ⟨⟨hleads.leads, hleads.term_eq, hleads.entries_eq, hleads.cursor_eq,
    Int.le_trans hleads.commit_ge (Int.le_of_lt hraise),
    ⟨happlicable.applied_ge, hheld, happlicable.decodes⟩⟩, h.config_eq, h.postings_eq⟩

variable {response : AppendResponse}

/-- The cursor moves up to what is acknowledged, and what comes next is sent. -/
theorem followerMatched_ends_moved {moved : Cursor} (h : Keeps term log peer cursor first turn)
    (hmoved : cursor.advance (min response.matchLogIndex (log.length - 1)) = moved)
    (hwithin : moved.Within log.length) :
    (followerMatched peer cursor response.matchLogIndex).Ends
      (fun _ last =>
        (moved.nextIndex = log.length ∧ Keeps term log peer moved first last) ∨
          (moved.nextIndex < log.length ∧ Sends term log peer moved first last))
      (fun _ => False) turn := by
  have hlast : turn.server.log.lastIndex = log.length - 1 := by
    rw [← h.leads.entries_eq]
    rfl
  have hserver : moved.serverId = cursor.serverId := by
    rw [← hmoved, Cursor.serverId_advance]
  unfold followerMatched
  simp only [ends_bind, ends_server, ends_modifyProgress, hlast, hmoved]
  apply (raiseCommit_keeps (h.updateCursor rfl hserver)).mono
  intro _ last hkeeps
  apply ends_ite
  · intro hbehind
    apply (sendAppend_sends hkeeps hwithin).mono
    exact fun _ final hsends => .inr ⟨by lia, hsends⟩
  · intro hcaught_up
    have hend := hwithin.next_le
    exact .inl ⟨by lia, hkeeps⟩

/-- The cursor moves as a response says, and the response is responded to. -/
theorem takeAppendResponse_ends_moved {moved : Cursor} (h : Keeps term log peer cursor first turn)
    (hpeer : response.serverId = peer) (hmoved : cursor.answered log.length response = moved)
    (hwithin : moved.Within log.length) :
    (takeAppendResponse response).Ends
      (fun _ last => Responds term log peer response moved first last) (fun _ => False)
      turn := by
  unfold takeAppendResponse
  rw [ends_bind, ends_server, hpeer, h.leads.cursor_eq]
  dsimp only
  unfold Cursor.answered at hmoved
  split at hmoved
  next hsuccessful =>
    rw [if_pos hsuccessful]
    apply (followerMatched_ends_moved h hmoved hwithin).mono
    rintro _ last (⟨hend, hkeeps⟩ | ⟨hbehind, hsends⟩)
    · exact .inl ⟨hsuccessful, hend, hkeeps⟩
    · exact .inr ⟨fun _ => hbehind, hsends⟩
  next hrefused =>
    rw [if_neg hrefused]
    unfold followerRefused
    rw [ends_bind, ends_modifyProgress]
    apply (sendAppend_sends (h.updateCursor hmoved (hmoved ▸ rfl)) hwithin).mono
    exact fun _ last hsends => .inr ⟨fun hsuccessful => absurd hsuccessful hrefused, hsends⟩

theorem applyCommitted_sends (h : Sends term log peer cursor first turn) :
    (applyCommitted : Action σ Unit).Ends (fun _ last => Sends term log peer cursor first last)
      (fun _ => False) turn := by
  apply applyCommitted_applies.imp
  · rintro _ last ⟨happlied, hpostings⟩
    obtain ⟨request, sender, hshows, hposted⟩ := h.posted
    exact ⟨h.leads.applied happlied, happlied.config_eq.trans h.config_eq, request, sender, hshows,
      hpostings.trans hposted⟩
  · exact fun last hlast => hlast.2 h.leads.applicable

theorem applyCommitted_keeps (h : Keeps term log peer cursor first turn) :
    (applyCommitted : Action σ Unit).Ends (fun _ last => Keeps term log peer cursor first last)
      (fun _ => False) turn := by
  apply applyCommitted_applies.imp
  · rintro _ last ⟨happlied, hpostings⟩
    exact ⟨h.leads.applied happlied, happlied.config_eq.trans h.config_eq,
      hpostings.trans h.postings_eq⟩
  · exact fun last hlast => hlast.2 h.leads.applicable

/-- A leader moves the cursor by an answer, and sends what is next unless there is nothing. -/
theorem dispatch_response_ends {sender : ServerId} {moved : Cursor}
    (h : turn.server.Leads term log peer cursor)
    (hterm : response.term = term) (hpeer : response.serverId = peer)
    (hmoved : cursor.answered log.length response = moved) (hwithin : moved.Within log.length) :
    (dispatch (.received sender (.appendResponse response))).Ends
      (fun _ last => Responds term log peer response moved turn last) (fun _ => False)
      turn := by
  have hsame : response.term = turn.server.term := hterm.trans h.term_eq.symm
  have hcurrent : ¬ turn.server.term < response.term := by
    rw [hsame]
    exact Int.lt_irrefl _
  obtain ⟨nextHeartbeat, hrole⟩ : ∃ nextHeartbeat, turn.server.role = .leader nextHeartbeat := by
    have hleads := h.leads
    cases hrole : turn.server.role with
    | leader nextHeartbeat => exact ⟨nextHeartbeat, rfl⟩
    | _ =>
      rw [hrole] at hleads
      cases hleads
  unfold dispatch handle roleEvent leaderEvent
  simp only [Event.term?, Message.term, ends_bind, ends_server]
  rw [if_neg hcurrent, ends_bind, ends_server, hrole]
  simp only [ends_bind, ends_server, hsame, if_true]
  apply (takeAppendResponse_ends_moved ⟨h, rfl, rfl⟩ hpeer hmoved hwithin).mono
  rintro _ last (⟨hsuccessful, hend, hkeeps⟩ | ⟨hbehind, hsends⟩)
  · exact (applyCommitted_keeps hkeeps).mono fun _ _ hfinal => .inl ⟨hsuccessful, hend, hfinal⟩
  · exact (applyCommitted_sends hsends).mono fun _ _ hfinal => .inr ⟨hbehind, hfinal⟩

end Action

end Consensus
