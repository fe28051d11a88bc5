import Consensus.Proofs.Life.Applying
import Consensus.Proofs.Life.Declining

/-! # Redelivery

A server that has answered an append request has taken what it will ever take of it. The second
delivery may take another branch than the first one did: what conflicted is cut off and now lies
beyond the log, and what was added is now held. The reply is the same.
-/

namespace Consensus

variable {σ : Type} [Store σ]

/-! ## Spent requests -/

namespace Server

/-- The server refuses the request, and has nothing to drop for it. -/
inductive Withstands (server : Server σ) (request : AppendRequest) : Prop
  | beyond (h : server.log.standing request.prevLogEntry = .beyond)
  | committed (h : server.log.standing request.prevLogEntry = .conflicting)
      (hcommit : request.prevLogEntry.index ≤ server.commitIndex)
  | entry {entry : PlacedEntry} (h : server.log.standing request.prevLogEntry = .held)
      (hentry : request.entry = some entry) (hrefuses : server.Refuses request entry)

/-- The server has taken what it takes of the request, and answers it with `reply`. -/
inductive Spent (server : Server σ) (request : AppendRequest) : Message → Prop
  | refused (h : server.Withstands request) : Spent server request server.appendRefusal
  | accepted (hreflects : Entries.Reflects server.log.entries request)
      (hcommit : min request.leaderCommit request.lastNewIndex ≤ server.commitIndex) :
      Spent server request
        (.appendResponse ⟨server.term, true, server.id, request.lastNewIndex⟩)

variable {server later : Server σ} {request : AppendRequest} {reply : Message}

theorem appendRefusal_of_same (hconfig : later.config = server.config)
    (hdurable : later.durable = server.durable) : later.appendRefusal = server.appendRefusal := by
  have hlog : later.log = server.log := congrArg Durable.log hdurable
  have hterm : later.term = server.term := congrArg Durable.term hdurable
  have hid : later.id = server.id := congrArg Config.serverId hconfig
  rw [appendRefusal, appendRefusal, hlog, hterm, hid]

/-- A log that withstands a request does so as long as it stays. -/
theorem Withstands.of_same (h : server.Withstands request) (hlog : later.log = server.log)
    (hcommit : later.commitIndex = server.commitIndex) : later.Withstands request := by
  cases h with
  | beyond h => exact .beyond (hlog ▸ h)
  | committed h hcommitted => exact .committed (hlog ▸ h) (hcommit ▸ hcommitted)
  | entry h hentry hrefuses =>
    refine .entry (hlog ▸ h) hentry ?_
    unfold Refuses at hrefuses ⊢
    rwa [hlog, hcommit]

/-- A spent request stays so whatever becomes of the role, the timer and what is applied. -/
theorem Spent.of_same (h : server.Spent request reply) (hconfig : later.config = server.config)
    (hdurable : later.durable = server.durable)
    (hcommit : later.commitIndex = server.commitIndex) : later.Spent request reply := by
  have hlog : later.log = server.log := congrArg Durable.log hdurable
  have hterm : later.term = server.term := congrArg Durable.term hdurable
  have hid : later.id = server.id := congrArg Config.serverId hconfig
  cases h with
  | refused h =>
    rw [← appendRefusal_of_same hconfig hdurable]
    exact .refused (h.of_same hlog hcommit)
  | accepted hreflects hcommitted =>
    rw [← hterm, ← hid]
    exact .accepted (hlog ▸ hreflects) (hcommit ▸ hcommitted)

end Server

namespace Action

variable {turn : Turn σ} {peer : ServerId} {request : AppendRequest} {reply : Message}

omit [Store σ] in
/-- A commit index that was followed is not followed again. -/
theorem followCommit_of_spent {done : Unit → Turn σ → Prop} {failed : Turn σ → Prop}
    (hcommit : min request.leaderCommit request.lastNewIndex ≤ turn.server.commitIndex) :
    (followCommit request).Ends done failed turn ↔ done () turn := by
  have hsame : turn.server.progress.raiseCommit
      (min request.leaderCommit request.lastNewIndex) = turn.server.progress :=
    if_neg (Int.not_lt.mpr hcommit)
  unfold followCommit
  rw [ends_modifyProgress, hsame]

/-- An entry that is held is not taken over again. -/
theorem takeEntry_of_held {entry : PlacedEntry} {done : Unit → Turn σ → Prop}
    {failed : Turn σ → Prop} (hheld : turn.server.log.standing entry.key = .held) :
    (takeEntry entry).Ends done failed turn ↔ done () turn := by
  have haccept : turn.server.log.accept entry = (turn.server.log, .ok .alreadyHeld) := by
    rw [Log.accept, hheld]
  unfold takeEntry
  rw [ends_bind, ends_server, haccept]
  rfl

/-- What is reflected and committed is accepted again, and nothing is taken. -/
theorem acceptAppend_of_spent {done : Bool → Turn σ → Prop} {failed : Turn σ → Prop}
    (hreflects : Entries.Reflects turn.server.log.entries request)
    (hcommit : min request.leaderCommit request.lastNewIndex ≤ turn.server.commitIndex) :
    (acceptAppend request).Ends done failed turn ↔ done true turn := by
  unfold acceptAppend
  cases hentry : request.entry with
  | none =>
    dsimp only
    rw [ends_bind, followCommit_of_spent hcommit, ends_pure]
  | some entry =>
    obtain ⟨hindex, hholds⟩ := hreflects.holds_entry entry hentry
    have hheld : turn.server.log.standing entry.key = .held := Log.standing_eq_held.mpr hholds
    have htakes : ¬ turn.server.Refuses request entry := by
      rintro (hmisplaced | ⟨hconflicting, _⟩)
      · exact hmisplaced hindex
      · cases hheld.symm.trans hconflicting
    dsimp only
    rw [ends_bind, ends_server, if_neg htakes, ends_bind, takeEntry_of_held hheld, ends_bind,
      followCommit_of_spent hcommit, ends_pure]

/-- Of a spent request nothing is left to do but to reply. -/
theorem answerAppendRequest_of_spent (hterm : request.term = turn.server.term)
    (h : turn.server.Spent request reply) :
    (answerAppendRequest peer request).Ends
      (fun _ last => last =
        { turn with postings := turn.postings ++ [⟨peer, reply, turn.server⟩] })
      (fun _ => False) turn := by
  have hcurrent : ¬ request.term < turn.server.term := by
    rw [hterm]
    exact Int.lt_irrefl _
  unfold answerAppendRequest
  rw [ends_bind, ends_server, if_neg hcurrent]
  cases h with
  | refused h =>
    cases h with
    | beyond hstanding =>
      rw [hstanding]
      exact rfl
    | committed hstanding hcommit =>
      rw [hstanding]
      dsimp only
      unfold dropConflict
      rw [ends_bind, ends_bind, ends_server, if_neg (Int.not_lt.mpr hcommit)]
      exact rfl
    | entry hstanding hentry hrefuses =>
      rw [hstanding]
      dsimp only
      unfold acceptAppend
      rw [hentry, ends_bind]
      dsimp only
      rw [ends_bind, ends_server, if_pos hrefuses]
      exact rfl
  | accepted hreflects hcommit =>
    rw [Log.standing_eq_held.mpr hreflects.holds_prev]
    dsimp only
    rw [ends_bind, acceptAppend_of_spent hreflects hcommit]
    exact rfl

end Action

/-! ## The first delivery -/

namespace Turn

/-- The turn has come from `first` to `last` in one role and term, with a reply to a request
that is spent. -/
structure Spends (peer : ServerId) (request : AppendRequest) (reply : Message)
    (first last : Turn σ) : Prop where
  role_eq : last.server.role = first.server.role
  term_eq : last.server.term = first.server.term
  messages_eq : last.messages = first.messages ++ [(peer, reply)]
  spent : last.server.Spent request reply

variable {first last : Turn σ} {peer : ServerId} {request : AppendRequest} {reply : Message}

theorem Silent.spends (h : first.Silent last) (hspent : last.server.Spent request reply) :
    first.Spends peer request reply { last with
      postings := last.postings ++ [⟨peer, reply, last.server⟩] } := by
  refine ⟨h.role_eq, h.term_eq, ?_, hspent⟩
  rw [← messages_eq_of_postings h.postings_eq]
  exact List.map_append

end Turn

namespace Action

variable {turn : Turn σ} {peer : ServerId} {request : AppendRequest}

omit [Store σ] in
/-- The commit index of a request is reached as far as the request vouches for it. -/
theorem followCommit_reaches {failed : Turn σ → Prop} :
    (followCommit request).Ends (fun _ last =>
      min request.leaderCommit request.lastNewIndex ≤ last.server.commitIndex) failed turn := by
  unfold followCommit
  rw [ends_modifyProgress]
  show _ ≤ (turn.server.progress.raiseCommit _).commitIndex
  unfold Progress.raiseCommit
  split
  next => exact Int.le_refl _
  next hreached => exact Int.not_lt.mp hreached

/-- What is accepted is committed as far as the leader has, and what is not is left alone. -/
theorem acceptAppend_concludes :
    (acceptAppend request).Ends
      (fun accepted last =>
        (accepted = true →
          min request.leaderCommit request.lastNewIndex ≤ last.server.commitIndex) ∧
        (accepted = false → last = turn ∧
          ∃ entry, request.entry = some entry ∧ turn.server.Refuses request entry))
      (fun _ => True) turn := by
  unfold acceptAppend
  split
  next =>
    rw [ends_bind]
    apply followCommit_reaches.mono
    exact fun _ last hlast => ⟨fun _ => hlast, fun hrefused => Bool.noConfusion hrefused⟩
  next entry hentry =>
    rw [ends_bind, ends_server]
    apply ends_ite
    · exact fun hrefuses =>
        ⟨fun haccepted => Bool.noConfusion haccepted, fun _ => ⟨rfl, entry, hentry, hrefuses⟩⟩
    · intro _
      rw [ends_bind]
      apply takeEntry_silent.mono
      intro _ middle _
      rw [ends_bind]
      apply followCommit_reaches.mono
      exact fun _ last hlast => ⟨fun _ => hlast, fun hrefused => Bool.noConfusion hrefused⟩

variable [LawfulStore σ]

/-- What conflicts is committed, or lies beyond the log once it is cut off. -/
theorem dropConflict_withstands (hcoherent : turn.server.log.Coherent)
    (hstanding : turn.server.log.standing request.prevLogEntry = .conflicting) :
    (dropConflict request.prevLogEntry).Ends (fun _ last => last.server.Withstands request)
      (fun _ => True) turn := by
  obtain ⟨_, hread, _⟩ := Log.conflicts_of_standing hstanding
  have hnonneg : 0 ≤ request.prevLogEntry.index := (Entries.bounds_of_read? hread).1
  unfold dropConflict
  rw [ends_bind, ends_server]
  apply ends_ite
  · intro _
    refine ends_changeDurable (fun durable hchange => ?_) trivial
    obtain ⟨shorter, htruncate, rfl⟩ := map_eq_ok.mp (mapError_eq_ok.mp hchange)
    have hentries := (hcoherent.truncate_ok hnonneg htruncate).2.1
    have hlength : (shorter.entries.length : Int) ≤ request.prevLogEntry.index := by
      rw [hentries, List.length_take]
      lia
    exact .beyond (Log.standing_eq_beyond hnonneg hlength)
  · intro hcommitted
    exact .committed hstanding (Int.not_lt.mp hcommitted)

/-- A request of the server's term is spent when it has been replied to. -/
theorem answerAppendRequest_spends {intake : View.Intake} {first : Turn σ}
    (h : Turn.Trace intake first turn) (hheeds : turn.server.view.Heeds intake request) :
    (answerAppendRequest peer request).Ends
      (fun _ last => ∃ reply, turn.Spends peer request reply last) (fun _ => True) turn := by
  have hcurrent : ¬ request.term < turn.server.term :=
    Int.not_lt.mpr (Int.le_of_eq hheeds.term_eq.symm)
  unfold answerAppendRequest
  rw [ends_bind, ends_server, if_neg hcurrent]
  split
  next hstanding => exact ⟨_, (Turn.silent_refl turn).spends (.refused (.beyond hstanding))⟩
  next hstanding =>
    rw [ends_bind]
    apply (dropConflict_silent.and
      (dropConflict_withstands h.coherent.durable.log hstanding)).imp ?_ fun _ _ => trivial
    rintro _ last ⟨hsilent, hwithstands⟩
    exact ⟨_, hsilent.spends (.refused hwithstands)⟩
  next hstanding =>
    rw [ends_bind]
    have haccepts := acceptAppend_ends h hheeds (Log.standing_eq_held.mp hstanding)
    apply (haccepts.and (acceptAppend_silent.and acceptAppend_concludes)).imp ?_ fun _ _ => trivial
    rintro accepted last ⟨⟨_, _, hreflects⟩, hsilent, hcommitted, hrefused⟩
    cases accepted with
    | true => exact ⟨_, hsilent.spends (.accepted (hreflects rfl) (hcommitted rfl))⟩
    | false =>
      obtain ⟨rfl, entry, hentry, hrefuses⟩ := hrefused rfl
      exact ⟨_, hsilent.spends (.refused (.entry hstanding hentry hrefuses))⟩

end Action

/-! ## Both deliveries -/

/-- The server answers the request with `reply` and is left as it is but for its timer. -/
inductive Server.Repeats (server : Server σ) (request : AppendRequest) : Message → Prop
  | stale (hstale : request.term < server.term) : Repeats server request server.appendRefusal
  | leads (hleads : server.role.isLeader = true) (hterm : request.term = server.term) :
      Repeats server request server.appendRefusal
  | follows {reply : Message} (hrole : server.role = .follower (some request.leaderId))
      (hterm : request.term = server.term) (h : server.Spent request reply) :
      Repeats server request reply

/-- A server that has applied more repeats its reply all the same. -/
theorem Server.Repeats.applied {server later : Server σ} {request : AppendRequest}
    {reply : Message} (h : server.Repeats request reply) (happlied : later.Applied server) :
    later.Repeats request reply := by
  have hterm : later.term = server.term := congrArg Durable.term happlied.durable_eq
  have hrefusal := appendRefusal_of_same happlied.config_eq happlied.durable_eq
  cases h with
  | stale hstale =>
    rw [← hrefusal]
    exact .stale (hterm ▸ hstale)
  | leads hleads hcurrent =>
    rw [← hrefusal]
    exact .leads (happlied.role_eq ▸ hleads) (hcurrent.trans hterm.symm)
  | follows hrole hcurrent hspent =>
    exact .follows (happlied.role_eq.trans hrole) (hcurrent.trans hterm.symm)
      (hspent.of_same happlied.config_eq happlied.durable_eq happlied.commitIndex_eq)

namespace Action

variable {turn : Turn σ} {peer : ServerId} {request : AppendRequest} {reply : Message}

/-- A leader declines what another server asks for as the leader of its term. -/
theorem handle_declines_of_leads (hleads : turn.server.role.isLeader = true)
    (hterm : request.term = turn.server.term) :
    (handle (.received peer (.appendRequest request))).Declines peer (.appendRequest request)
      turn := by
  have hcurrent : (Message.appendRequest request).term ≤ turn.server.term := Int.le_of_eq hterm
  apply ends_handle_of_current hcurrent
  unfold roleEvent
  rw [ends_bind, ends_server]
  cases hrole : turn.server.role with
  | leader nextHeartbeat => exact ⟨rfl, rfl⟩
  | _ => simp [hrole, Role.isLeader] at hleads

/-- A server that repeats its reply does nothing else but wind up its timer. -/
theorem handle_of_repeats (h : turn.server.Repeats request reply) :
    (handle (.received peer (.appendRequest request))).Ends
      (fun change last => change = .stay ∧ (∃ timer, last.server = { turn.server with timer }) ∧
        last.messages = turn.messages ++ [(peer, reply)]) (fun _ => False) turn := by
  have hdeclined : (handle (.received peer (.appendRequest request))).Declines peer
      (.appendRequest request) turn →
      (handle (.received peer (.appendRequest request))).Ends
        (fun change last => change = .stay ∧
          (∃ timer, last.server = { turn.server with timer }) ∧
          last.messages = turn.messages ++ [(peer, turn.server.appendRefusal)])
        (fun _ => False) turn := by
    intro hdeclines
    apply hdeclines.mono
    rintro change last ⟨rfl, rfl⟩
    exact ⟨rfl, ⟨_, rfl⟩, List.map_append⟩
  cases h with
  | stale hstale => exact hdeclined (handle_declines hstale)
  | leads hleads hterm => exact hdeclined (handle_declines_of_leads hleads hterm)
  | follows hrole hterm hspent =>
    refine ends_handle_of_follower hrole hterm fun timer => ?_
    rw [← hrole]
    have hsame : Server.Spent { turn.server with timer } request reply :=
      hspent.of_same rfl rfl rfl
    refine Ends.mono (answerAppendRequest_of_spent hterm hsame) ?_
    rintro _ last rfl
    exact ⟨rfl, ⟨timer, rfl⟩, List.map_append⟩

variable [LawfulStore σ] {intake : View.Intake} {first : Turn σ}

/-- A follower that has handled a request would repeat its reply. -/
theorem handle_repeats {leader : Option ServerId} (h : Turn.Trace intake first turn)
    (hreceived : intake.received peer (.appendRequest request))
    (hrole : turn.server.role = .follower leader) (hterm : request.term = turn.server.term) :
    (handle (.received peer (.appendRequest request))).Ends
      (fun change last => change = .stay ∧ ∃ reply,
        last.messages = turn.messages ++ [(peer, reply)] ∧ last.server.Repeats request reply)
      (fun _ => True) turn := by
  refine ends_handle_of_follower hrole hterm fun timer => ?_
  have hfollows : turn.server.role.isLeader = false := by
    rw [hrole]
    rfl
  have hfollowing := (h.timer timer).role (.follower (some request.leaderId)) hfollows.symm
  apply (answerAppendRequest_spends hfollowing ⟨⟨peer, hreceived⟩, hterm, rfl⟩).mono
  rintro _ last ⟨reply, hspends⟩
  exact ⟨rfl, reply, hspends.messages_eq,
    .follows hspends.role_eq (hterm.trans hspends.term_eq.symm) hspends.spent⟩

/-- Whatever role it is delivered to, a request leaves a server that would repeat its reply. -/
theorem react_repeats (hcoherent : turn.server.Coherent)
    (hreceived : intake.received peer (.appendRequest request)) :
    (react (.received peer (.appendRequest request))).Ends
      (fun _ last => ∃ reply, last.messages = turn.messages ++ [(peer, reply)] ∧
        last.server.Repeats request reply)
      (fun _ => True) turn := by
  have hbegun : Turn.Trace intake turn turn := .start hcoherent
  apply ends_react
  rcases Int.lt_trichotomy request.term turn.server.term with hstale | hterm | hnewer
  · refine Ends.imp (handle_declines hstale) ?_ fun _ _ => trivial
    rintro change last ⟨rfl, rfl⟩
    exact .inl ⟨rfl, turn.server.appendRefusal, List.map_append, .stale hstale⟩
  · cases hrole : turn.server.role with
    | follower leader =>
      exact (handle_repeats hbegun hreceived hrole hterm).mono fun _ _ hlast => .inl hlast
    | candidate electionPending =>
      -- The candidate gives way, and it is the follower that replies.
      have hready : RoleChange.follow.Ready intake turn.server := fun hleads => by
        rw [hrole] at hleads
        cases hleads
      have hentered := ends_becomeFollower.mp (becomeFollower_ends hbegun hready)
      refine ends_handle_of_candidate hrole hterm (.inr ⟨rfl, ?_⟩)
      exact handle_repeats hentered hreceived rfl hterm
    | leader nextHeartbeat =>
      have hleads : turn.server.role.isLeader = true := by
        rw [hrole]
        rfl
      refine Ends.imp (handle_declines_of_leads hleads hterm) ?_ fun _ _ => trivial
      rintro change last ⟨rfl, rfl⟩
      exact .inl ⟨rfl, turn.server.appendRefusal, List.map_append, .leads hleads hterm⟩
  · refine ends_handle_of_newer hnewer (fun durable hmoved => ?_) fun _ _ => trivial
    have hentered :=
      ends_becomeFollower.mp (becomeFollower_ends_of_newer hbegun hreceived hnewer hmoved)
    have hterm := (hcoherent.durable.moveTo_ok hnewer hmoved).2.1
    exact .inr ⟨rfl, handle_repeats hentered hreceived rfl hterm.symm⟩

/-- A server that has taken a request would repeat its reply. -/
theorem dispatch_repeats (hcoherent : turn.server.Coherent)
    (hreceived : intake.received peer (.appendRequest request)) :
    (dispatch (.received peer (.appendRequest request))).Ends
      (fun _ last => ∃ reply, last.messages = turn.messages ++ [(peer, reply)] ∧
        last.server.Repeats request reply)
      (fun _ => True) turn := by
  rw [dispatch_eq, ends_bind]
  apply (react_repeats hcoherent hreceived).mono
  rintro _ last ⟨reply, hmessages, hrepeats⟩
  refine applyCommitted_applies.imp ?_ fun _ _ => trivial
  rintro _ final ⟨happlied, hpostings⟩
  exact ⟨reply, (Turn.messages_eq_of_postings hpostings).trans hmessages, hrepeats.applied happlied⟩

omit [LawfulStore σ] in
/-- A server that repeats its reply and has nothing to apply changes at most its timer. -/
theorem dispatch_of_repeats (h : turn.server.Repeats request reply)
    (happlied : turn.server.progress.lastApplied = turn.server.commitIndex) :
    (dispatch (.received peer (.appendRequest request))).Ends
      (fun _ last => (∃ timer, last.server = { turn.server with timer }) ∧
        last.messages = turn.messages ++ [(peer, reply)])
      (fun _ => False) turn := by
  rw [dispatch_eq, ends_bind]
  apply (ends_react ((handle_of_repeats h).mono fun _ _ hlast => .inl hlast)).mono
  rintro _ last ⟨⟨timer, hserver⟩, hmessages⟩
  refine ends_applyCommitted_of_le ?_ ⟨⟨timer, hserver⟩, hmessages⟩
  rw [hserver]
  exact Int.le_of_eq happlied.symm

end Action

namespace Server

variable [LawfulStore σ] {server : Server σ} {sender : ServerId} {frame : Bytes}
variable {request : AppendRequest} {reply : Message}

/-- While writes succeed, a request leaves a server that would repeat its reply. -/
theorem Sound.receive_repeats (h : server.Sound) (hpeer : server.config.isPeer sender = true)
    (hdecode : Message.decode frame = .ok (.appendRequest request)) (now : Duration) :
    ∃ reply, (server.receive now sender frame).messages = [(sender, reply)] ∧
      (server.receive now sender frame).server.Repeats request reply := by
  have hanswer := (h.receive now sender frame).2
  have hreceived : (Call.receive sender frame).intake.received sender (.appendRequest request) :=
    ⟨frame, rfl, hdecode⟩
  have hends : (Action.dispatch (.received sender (.appendRequest request))).Ends
      (fun _ last => ∃ reply, last.messages = [(sender, reply)] ∧
        last.server.Repeats request reply)
      (fun _ => True) ⟨server, now, []⟩ := Action.dispatch_repeats h.coherent hreceived
  rw [receive_eq_turn hpeer hdecode] at hanswer ⊢
  rcases hends.turn_cases with ⟨_, last, hturn, hlast⟩ | ⟨_, last, hturn, _⟩
  · rw [hturn]
    exact hlast
  · rw [hturn] at hanswer
    cases hanswer

/-- A sound server that is sent a request again repeats its reply and changes at most its timer. -/
theorem Sound.receive_of_repeats (h : server.Sound) (hpeer : server.config.isPeer sender = true)
    (hdecode : Message.decode frame = .ok (.appendRequest request))
    (hrepeats : server.Repeats request reply) (now : Duration) :
    (∃ timer, (server.receive now sender frame).server = { server with timer }) ∧
      (server.receive now sender frame).messages = [(sender, reply)] := by
  have hends : (Action.dispatch (.received sender (.appendRequest request))).Ends
      (fun _ last => (∃ timer, last.server = { server with timer }) ∧
        last.messages = [(sender, reply)])
      (fun _ => False) ⟨server, now, []⟩ :=
    Action.dispatch_of_repeats hrepeats h.lastApplied_eq
  rw [receive_eq_turn hpeer hdecode]
  obtain ⟨_, last, hturn, hlast⟩ := hends.turn_done
  rw [hturn]
  exact hlast

/-- A sound server answers a request that arrives again as it did at first, and is left as it was
then but for its timer. -/
theorem Sound.receive_again (h : server.Sound) (hpeer : server.config.isPeer sender = true)
    (hdecode : Message.decode frame = .ok (.appendRequest request)) (now later : Duration) :
    (∃ timer, ((server.receive now sender frame).server.receive later sender frame).server =
        { (server.receive now sender frame).server with timer }) ∧
      ∃ reply, (server.receive now sender frame).messages = [(sender, reply)] ∧
        ((server.receive now sender frame).server.receive later sender frame).messages =
          [(sender, reply)] := by
  have hmoves := call_moves h.coherent now (.receive sender frame)
  have hpeer_still : (server.receive now sender frame).server.config.isPeer sender = true :=
    (congrArg (Config.isPeer · sender) hmoves.config_eq).trans hpeer
  obtain ⟨reply, hmessages, hrepeats⟩ := h.receive_repeats hpeer hdecode now
  obtain ⟨hserver, hagain⟩ :=
    (h.receive now sender frame).1.receive_of_repeats hpeer_still hdecode hrepeats later
  exact ⟨hserver, reply, hmessages, hagain⟩

/-- Redelivery is idempotent. While writes succeed, the frame of a peer's append request that
arrives again leaves the whole server as its first arrival left it, whatever the role it found
then, only that the election timer may have been set again. It is answered with the same reply,
or with none again if it cannot be read. -/
theorem redelivery_idempotent (hreachable : server.Reachable)
    (hdecodes : ∀ entry ∈ server.log.entries, Command.Decodes entry.command)
    (hreliable : Store.Reliable server.log.store) (hpeer : server.config.isPeer sender = true)
    (hframe : ∀ message, Message.decode frame = .ok message → message.kind = .appendRequest)
    (now later : Duration) {first second : Outcome σ Unit}
    (hfirst : server.receive now sender frame = first)
    (hsecond : first.server.receive later sender frame = second) :
    first.answer = .ok () ∧ second.answer = .ok () ∧
      (∃ timer, second.server = { first.server with timer }) ∧
      second.messages = first.messages ∧
      ∀ message, Message.decode frame = .ok message →
        ∃ reply, first.messages = [(sender, reply)] := by
  subst hfirst hsecond
  have hsound : server.Sound :=
    ⟨hreachable.coherent, ⟨hreachable.orderly, hdecodes⟩, hreachable.diligent, hreliable⟩
  obtain ⟨hstill, hanswer⟩ := hsound.receive now sender frame
  refine ⟨hanswer, (hstill.receive later sender frame).2, ?_⟩
  cases hdecode : Message.decode frame with
  | error cause =>
    have hinert : ∀ (server : Server σ) (now : Duration),
        server.receive now sender frame = .idle server () := by
      intro server now
      simp [receive, hdecode]
    rw [hinert, hinert]
    refine ⟨⟨_, rfl⟩, rfl, fun _ hread => ?_⟩
    cases hread
  | ok message =>
    cases message with
    | appendRequest request =>
      obtain ⟨hserver, reply, hmessages, hagain⟩ := hsound.receive_again hpeer hdecode now later
      exact ⟨hserver, hagain.trans hmessages.symm, fun _ _ => ⟨reply, hmessages⟩⟩
    | _ => cases hframe _ hdecode

end Server

namespace Trio

/-- A leader of term 1 has a command that no other server has. -/
def seclusion : List Incident :=
  campaign ++ [.call (.ofSeconds 1 0) (.submit Handover.command)]

/-- The leader of term 2 builds on an entry of its own term in the first place. -/
def rift : AppendRequest := ⟨2, 3, ⟨2, 0⟩, nullIndex, none⟩

end Trio

/-- A leader of term 1 follows the leader of term 2 and drops its entry for it. When it is asked
again it has no entry to drop, and refuses in the same way. -/
theorem Server.redelivery_idempotent_rift :
    (Trio.server.after Trio.seclusion).role.isLeader = true ∧
      (Trio.server.after Trio.seclusion).log.size = 1 ∧
      ∃ first second : Outcome MemoryStore Unit,
        (Trio.server.after Trio.seclusion).receive (.ofSeconds 1 0) 3
          (Message.appendRequest Trio.rift).encode = first ∧
        first.server.receive (.ofSeconds 2 0) 3 (Message.appendRequest Trio.rift).encode = second ∧
        first.server.log.size = 0 ∧
        (∃ timer, second.server = { first.server with timer }) ∧
        ∃ reply, first.messages = [(3, reply)] ∧ second.messages = [(3, reply)] := by
  have hdecodes : ∀ entry ∈ (Trio.server.after Trio.seclusion).log.entries,
      Command.Decodes entry.command := by
    decide +kernel
  have hreliable : Store.Reliable (Trio.server.after Trio.seclusion).log.store :=
    MemoryStore.reliable (by decide +kernel)
  have hpeer : (Trio.server.after Trio.seclusion).config.isPeer 3 = true := by
    decide +kernel
  have hdecode : Message.decode (Message.appendRequest Trio.rift).encode =
      .ok (.appendRequest Trio.rift) := by
    decide +kernel
  have hframe : ∀ message, Message.decode (Message.appendRequest Trio.rift).encode = .ok message →
      message.kind = .appendRequest := by
    intro message hread
    cases hdecode.symm.trans hread
    rfl
  obtain ⟨_, _, hserver, hagain, hreply⟩ := redelivery_idempotent
    (Trio.reachable_server.after Trio.seclusion) hdecodes hreliable hpeer hframe (.ofSeconds 1 0)
    (.ofSeconds 2 0) rfl rfl
  obtain ⟨reply, hfirst⟩ := hreply _ hdecode
  exact ⟨by decide +kernel, by decide +kernel, _, _, rfl, rfl, by decide +kernel, hserver, reply,
    hfirst, hagain.trans hfirst⟩

end Consensus
