import Consensus.Proofs.Log.Gains
import Consensus.Proofs.Turn.Operations

/-! # Receiving from one leader

A server that matches a leader's log answers each of the leader's requests once, gains on the
leader's log by it, and reports no more than the two logs have in common. Only a write to
the store, or a command that is none, can keep it from answering.
-/

namespace Consensus

/-- The request is one that a leader of the term with this log can send. -/
structure AppendRequest.Honest (request : AppendRequest) (term : Term) (leaderLog : Entries) :
    Prop where
  term_eq : request.term = term
  quotes : leaderLog.Quotes request
  decodes : ∀ entry, request.entry = some entry → Command.Decodes entry.command

variable {σ : Type} [Store σ]

/-- Nothing that a leader asks of the server's log can fail. -/
structure Server.Sure (server : Server σ) : Prop where
  log : server.log.Sure
  applied_ge : nullIndex ≤ server.progress.lastApplied

variable [LawfulStore σ] {term : Term} {leaderLog : Entries}

/-! ## Servers behind a leader -/

namespace Server

/-- The server does not lead, is in no newer term than the leader, matches the leader's log
and has committed only what the logs have in common. -/
structure Trails (server : Server σ) (term : Term) (leaderLog : Entries) : Prop where
  coherent : server.log.Coherent
  follows : server.role.isLeader = false
  term_le : server.term ≤ term
  matching : Entries.Matches server.log.entries leaderLog
  commit_lt : server.commitIndex < (server.log.shared leaderLog).length

/-- The later server still trails the leader, and its log gained on the leader's. -/
structure Nears (later earlier : Server σ) (term : Term) (leaderLog : Entries) : Prop where
  trails : later.Trails term leaderLog
  config_eq : later.config = earlier.config
  term_le : earlier.term ≤ later.term
  shared_isPrefix : earlier.log.shared leaderLog <+: later.log.shared leaderLog
  length_le : later.log.entries.length ≤ max earlier.log.entries.length leaderLog.length
  sure : earlier.Sure → later.Sure

variable {server later middle earlier : Server σ}

theorem Trails.nears (h : server.Trails term leaderLog) : server.Nears server term leaderLog :=
  ⟨h, rfl, Int.le_refl _, List.prefix_rfl, Nat.le_max_left _ _, fun hsure => hsure⟩

/-- Coming nearer twice is coming nearer. -/
theorem Nears.trans (h : later.Nears middle term leaderLog)
    (hfirst : middle.Nears earlier term leaderLog) : later.Nears earlier term leaderLog :=
  ⟨h.trails, h.config_eq.trans hfirst.config_eq, Int.le_trans hfirst.term_le h.term_le,
    hfirst.shared_isPrefix.trans h.shared_isPrefix,
    h.length_le.trans (max_le hfirst.length_le (Nat.le_max_right _ _)),
    fun hsure => h.sure (hfirst.sure hsure)⟩

/-- A server that has come to the leader's term stays there. -/
theorem Nears.term_eq (h : later.Nears earlier term leaderLog) (hterm : earlier.term = term) :
    later.term = term :=
  Int.le_antisymm h.trails.term_le (hterm ▸ h.term_le)

/-- A server that comes nearer has no less in common with the leader. -/
theorem Nears.shared_le (h : later.Nears earlier term leaderLog) :
    (earlier.log.shared leaderLog).length ≤ (later.log.shared leaderLog).length :=
  h.shared_isPrefix.length_le

/-- Neither its timer nor what it knows of others makes a difference to a follower. -/
theorem Trails.still (h : server.Trails term leaderLog) (hfollows : later.role.isLeader = false)
    (hconfig : later.config = server.config) (hdurable : later.durable = server.durable)
    (hcommit : later.commitIndex = server.commitIndex)
    (happlied : server.progress.lastApplied ≤ later.progress.lastApplied) :
    later.Nears server term leaderLog := by
  have hlog : later.log = server.log := congrArg Durable.log hdurable
  have hterm : later.term = server.term := congrArg Durable.term hdurable
  refine ⟨⟨hlog ▸ h.coherent, hfollows, hterm ▸ h.term_le, hlog ▸ h.matching, ?_⟩, hconfig,
    Int.le_of_eq hterm.symm, hlog ▸ List.prefix_rfl, hlog ▸ Nat.le_max_left _ _,
    fun hsure => ⟨hlog ▸ hsure.log, ?_⟩⟩
  · rw [hcommit, hlog]
    exact h.commit_lt
  · exact Int.le_trans hsure.applied_ge happlied

theorem Trails.applied (h : server.Trails term leaderLog) (happlied : later.Applied server) :
    later.Nears server term leaderLog :=
  h.still (happlied.role_eq ▸ h.follows) happlied.config_eq happlied.durable_eq
    happlied.commitIndex_eq happlied.applied_le

/-- A log that gains on the leader's brings its server nearer. -/
theorem Trails.with_log (h : server.Trails term leaderLog) {log : Log σ}
    (hgains : log.Gains server.log leaderLog) :
    Nears { server with durable := { server.durable with log } } server term leaderLog := by
  refine ⟨⟨hgains.coherent, h.follows, h.term_le, hgains.matching, ?_⟩, rfl,
    Int.le_refl _, hgains.shared_isPrefix, hgains.length_le,
    fun hsure => ⟨hgains.sure hsure.log, hsure.applied_ge⟩⟩
  exact Int.lt_of_lt_of_le h.commit_lt (Int.ofNat_le.mpr hgains.shared_isPrefix.length_le)

/-- A server may commit what it has in common with the leader. -/
theorem Trails.raiseCommit (h : server.Trails term leaderLog) {index : Index}
    (hindex : index < (server.log.shared leaderLog).length) :
    Nears { server with progress := server.progress.raiseCommit index } server term leaderLog := by
  unfold Progress.raiseCommit
  split
  next =>
    exact ⟨{ h with commit_lt := hindex }, rfl, Int.le_refl _, List.prefix_rfl,
      Nat.le_max_left _ _, fun hsure => ⟨hsure.log, hsure.applied_ge⟩⟩
  next => exact h.nears

/-- A newer term that is stored leaves the log as it is. -/
theorem Trails.moveTo (h : server.Trails term leaderLog) (hnewer : server.term < term)
    {moved : Durable σ} (hmoved : server.durable.moveTo term = .ok moved) :
    Nears { server with durable := moved } server term leaderLog ∧ moved.term = term := by
  have hmoves : ¬ term ≤ server.durable.term := Int.not_le.mpr hnewer
  rw [Durable.moveTo, if_neg hmoves] at hmoved
  obtain ⟨store, hsave, rfl⟩ := map_eq_ok.mp hmoved
  obtain ⟨hvalid, hentries, _⟩ := LawfulStore.save_ok h.coherent.valid hsave
  have hgains : Log.Gains { server.log with store } server.log leaderLog := by
    have hsame : Log.entries { server.log with store } = server.log.entries := hentries
    refine ⟨⟨hvalid, hsame ▸ h.coherent.lastTerm_eq⟩, hsame ▸ h.matching, ?_,
      hsame ▸ Nat.le_max_left _ _, fun hsure => ⟨?_, ?_⟩⟩
    · unfold Log.shared
      rw [hsame]
    · exact (of_exists_ok (hsure.reliable.save term none) hsave :)
    · exact hsame ▸ hsure.decodes
  have hlogged := h.with_log hgains
  exact ⟨⟨{ hlogged.trails with term_le := Int.le_refl _ }, rfl, h.term_le,
    hlogged.shared_isPrefix, hlogged.length_le,
    fun hsure => ⟨hgains.sure hsure.log, hsure.applied_ge⟩⟩, rfl⟩

/-- A server that trails a leader can apply what it has committed. -/
theorem Sure.applicable (h : server.Sure) (htrails : server.Trails term leaderLog) :
    server.Applicable := by
  have hshared := (server.log.shared_isPrefix leaderLog).length_le
  have hcommit := htrails.commit_lt
  exact ⟨h.applied_ge, by lia, h.log.decodes⟩

end Server

/-! ## Turns -/

namespace Turn

/-- The turn has come from `first` to `last` without an answer. -/
structure Approaches (term : Term) (leaderLog : Entries) (first last : Turn σ) : Prop where
  nears : last.server.Nears first.server term leaderLog
  postings_eq : last.postings = first.postings

/-- The turn has come from `first` to `last` with one answer to a request, which reports what
the logs have in common by then, or what they do not. -/
structure Answers (term : Term) (leaderLog : Entries) (receiver : ServerId)
    (request : AppendRequest) (first : Turn σ) (response : AppendResponse) (sender : Server σ)
    (last : Turn σ) : Prop where
  nears : last.server.Nears first.server term leaderLog
  postings_eq : last.postings = first.postings ++ [⟨receiver, .appendResponse response, sender⟩]
  log_eq : last.server.log = sender.log
  term_eq : response.term = term
  serverId_eq : response.serverId = first.server.id
  matched : response.successful = true → response.matchLogIndex = request.lastNewIndex ∧
    request.lastNewIndex < (last.server.log.shared leaderLog).length
  refused : response.successful = false →
    response.matchLogIndex = last.server.log.lastIndex ∧
      (first.server.log.shared leaderLog).length ≤ request.prevLogEntry.index

/-- The turn has come from `first` to `last` with an answer. -/
def Answered (term : Term) (leaderLog : Entries) (receiver : ServerId) (request : AppendRequest)
    (first last : Turn σ) : Prop :=
  ∃ response sender, Answers term leaderLog receiver request first response sender last

/-- The turn broke off, with or without an answer, as it cannot when the server is sure. -/
def Stalls (term : Term) (leaderLog : Entries) (receiver : ServerId) (request : AppendRequest)
    (first last : Turn σ) : Prop :=
  (Approaches term leaderLog first last ∨ Answered term leaderLog receiver request first last) ∧
    ¬ first.server.Sure

variable {receiver : ServerId} {request : AppendRequest} {first middle last : Turn σ}

theorem Approaches.stalls (h : Approaches term leaderLog first last)
    (hunsure : ¬ first.server.Sure) :
    Stalls term leaderLog receiver request first last := ⟨.inl h, hunsure⟩

theorem Approaches.answered (h : Approaches term leaderLog first middle)
    (hanswered : Answered term leaderLog receiver request middle last) :
    Answered term leaderLog receiver request first last := by
  obtain ⟨response, sender, hanswers⟩ := hanswered
  refine ⟨response, sender, { hanswers with
    nears := hanswers.nears.trans h.nears
    postings_eq := h.postings_eq ▸ hanswers.postings_eq
    serverId_eq := ?_
    refused := fun hrefused => ?_ }⟩
  · exact hanswers.serverId_eq.trans (congrArg Config.serverId h.nears.config_eq)
  · obtain ⟨hhint, hprev⟩ := hanswers.refused hrefused
    exact ⟨hhint, Int.le_trans (Int.ofNat_le.mpr h.nears.shared_le) hprev⟩

theorem Approaches.stalled (h : Approaches term leaderLog first middle)
    (hstalls : Stalls term leaderLog receiver request middle last) :
    Stalls term leaderLog receiver request first last := by
  obtain ⟨hlast, hunsure⟩ := hstalls
  refine ⟨hlast.imp (fun happroaches => ?_) h.answered, fun hsure => hunsure (h.nears.sure hsure)⟩
  exact ⟨happroaches.nears.trans h.nears, happroaches.postings_eq.trans h.postings_eq⟩

theorem Answered.nears (h : Answered term leaderLog receiver request first last) :
    last.server.Nears first.server term leaderLog := by
  obtain ⟨_, _, hanswers⟩ := h
  exact hanswers.nears

/-- What is applied after an answer brings the server no further away. -/
theorem Answered.applied (h : Answered term leaderLog receiver request first middle)
    (happlies : Action.Applies middle last) :
    Answered term leaderLog receiver request first last := by
  obtain ⟨response, sender, hanswers⟩ := h
  have hlog : last.server.log = middle.server.log := congrArg Durable.log happlies.1.durable_eq
  refine ⟨response, sender, { hanswers with
    nears := (hanswers.nears.trails.applied happlies.1).trans hanswers.nears
    postings_eq := happlies.2.trans hanswers.postings_eq
    log_eq := hlog.trans hanswers.log_eq
    matched := ?_
    refused := ?_ }⟩
  · rw [hlog]
    exact hanswers.matched
  · rw [hlog]
    exact hanswers.refused

end Turn

namespace Action

open Turn

variable {turn : Turn σ} {receiver : ServerId} {request : AppendRequest}

/-- An entry of the leader's log is taken over, or the store fails. -/
theorem takeEntry_ends_taken (h : turn.server.Trails term leaderLog) {entry : PlacedEntry}
    (hindex : entry.index ≤ (turn.server.log.shared leaderLog).length)
    (hread : leaderLog.read? entry.index = some ⟨entry.term, entry.command⟩)
    (hdecodes : Command.Decodes entry.command) :
    (takeEntry entry).Ends
      (fun _ last => Approaches term leaderLog turn last ∧
        entry.index < (last.server.log.shared leaderLog).length)
      (fun last => Approaches term leaderLog turn last ∧ ¬ turn.server.Sure) turn := by
  have htakes := Log.takes_accept h.coherent h.matching hindex hread hdecodes
  unfold takeEntry
  simp only [ends_bind, ends_server, ends_modifyServer]
  split
  next placed hresult =>
    exact ⟨⟨h.with_log htakes.gains, rfl⟩, htakes.taken placed hresult⟩
  next cause hresult =>
    exact ⟨⟨h.with_log htakes.gains, rfl⟩, fun hsure => htakes.unsure cause hresult hsure.log⟩

/-- Behind a key that the log holds, an honest request is always accepted. -/
theorem acceptAppend_accepts (h : turn.server.Trails term leaderLog)
    (hhonest : request.Honest term leaderLog)
    (hprev : request.prevLogEntry.index < (turn.server.log.shared leaderLog).length) :
    (acceptAppend request).Ends
      (fun accepted last => accepted = true ∧ Approaches term leaderLog turn last ∧
        request.lastNewIndex < (last.server.log.shared leaderLog).length)
      (fun last => Approaches term leaderLog turn last ∧ ¬ turn.server.Sure) turn := by
  unfold acceptAppend
  split
  next hentry =>
    have hlast : request.lastNewIndex = request.prevLogEntry.index := by
      rw [AppendRequest.lastNewIndex, hentry]
    rw [← hlast] at hprev
    unfold followCommit
    simp only [ends_bind, ends_modifyProgress, ends_pure]
    exact ⟨trivial, ⟨h.raiseCommit (by lia), rfl⟩, hprev⟩
  next entry hentry =>
    obtain ⟨hindex, hread⟩ := hhonest.quotes.read?_entry hentry
    have hlast : request.lastNewIndex = entry.index := by
      rw [AppendRequest.lastNewIndex, hentry]
    simp only [ends_bind, ends_server]
    apply ends_ite
    · -- What is committed is in both logs, so the entry does not conflict with it.
      rintro (hmisplaced | ⟨hstanding, hcommitted⟩)
      · exact absurd hindex hmisplaced
      · have hshared : ((turn.server.log.shared leaderLog).length : Int) ≤ entry.index :=
          Entries.common_le_of_not_holds (hhonest.quotes.names_entry hentry)
            (Log.conflicts_of_standing hstanding).not_holds
        have hcommit := h.commit_lt
        lia
    · intro _
      rw [ends_bind]
      apply (takeEntry_ends_taken h (by lia) hread (hhonest.decodes entry hentry)).mono
      rintro _ last ⟨hlast_nears, htaken⟩
      rw [← hlast] at htaken
      unfold followCommit
      simp only [ends_bind, ends_modifyProgress, ends_pure]
      have hvouched : min request.leaderCommit request.lastNewIndex <
          (last.server.log.shared leaderLog).length := by lia
      exact ⟨trivial, ⟨(hlast_nears.nears.trails.raiseCommit hvouched).trans hlast_nears.nears,
        hlast_nears.postings_eq⟩, htaken⟩

/-- What is dropped behind the common entries is no loss. -/
theorem dropConflict_ends_kept (h : turn.server.Trails term leaderLog) {key : LogKey}
    (hkey : ((turn.server.log.shared leaderLog).length : Int) ≤ key.index) :
    (dropConflict key).Ends (fun _ last => Approaches term leaderLog turn last)
      (fun last => Approaches term leaderLog turn last ∧ ¬ turn.server.Sure) turn := by
  unfold dropConflict
  simp only [ends_bind, ends_server]
  refine ends_ite (fun _ => ?_) (fun _ => ⟨h.nears, rfl⟩)
  refine ends_changeDurable_cases (fun durable hchange => ?_) (fun failure hchange => ?_)
  · obtain ⟨shorter, htruncate, rfl⟩ := map_eq_ok.mp (mapError_eq_ok.mp hchange)
    have hgains := (Log.Gains.truncate h.coherent h.matching hkey htruncate).1
    exact ⟨h.with_log hgains, rfl⟩
  · refine ⟨⟨h.nears, rfl⟩, fun hsure => ?_⟩
    have hnonneg : 0 ≤ key.index := by lia
    obtain ⟨cause, hfailed⟩ := exists_of_mapError_eq_error hchange
    exact ne_error_of_exists_ok cause (Log.exists_truncate hsure.log.reliable hnonneg)
      (map_eq_error.mp hfailed)

variable {first : Turn σ}

/-- A request from beyond the common entries may be answered by a refusal. -/
theorem refuseAppend_answers (h : Approaches term leaderLog first turn)
    (hterm : turn.server.term = term)
    (hprev : (first.server.log.shared leaderLog).length ≤ request.prevLogEntry.index)
    {failed : Turn σ → Prop} :
    (refuseAppend receiver).Ends
      (fun _ last => Answered term leaderLog receiver request first last) failed turn := by
  unfold refuseAppend answerAppend
  simp only [ends_bind, ends_server, ends_post]
  refine ⟨_, turn.server, h.nears, by rw [h.postings_eq], rfl, hterm, ?_, ?_, fun _ => ⟨rfl, hprev⟩⟩
  · exact congrArg Config.serverId h.nears.config_eq
  · exact fun hsuccessful => Bool.noConfusion hsuccessful

/-- An honest request is answered and brings the server nearer, or the store fails. -/
theorem answerAppendRequest_answers (h : turn.server.Trails term leaderLog)
    (hterm : turn.server.term = term) (hhonest : request.Honest term leaderLog) :
    (answerAppendRequest receiver request).Ends
      (fun _ last => Answered term leaderLog receiver request turn last)
      (Stalls term leaderLog receiver request turn) turn := by
  have hstart : Approaches term leaderLog turn turn := ⟨h.nears, rfl⟩
  have hnames := hhonest.quotes.names_prev
  have hcurrent : ¬ request.term < turn.server.term := by
    rw [hhonest.term_eq, hterm]
    exact Int.lt_irrefl _
  unfold answerAppendRequest
  rw [ends_bind, ends_server, if_neg hcurrent]
  split
  next hstanding =>
    have hmissing : ¬ Entries.Holds turn.server.log.entries request.prevLogEntry := by
      rw [← Log.standing_eq_held, hstanding]
      decide
    exact refuseAppend_answers hstart hterm (Entries.common_le_of_not_holds hnames hmissing)
  next hstanding =>
    have hkey : ((turn.server.log.shared leaderLog).length : Int) ≤ request.prevLogEntry.index :=
      Entries.common_le_of_not_holds hnames (Log.conflicts_of_standing hstanding).not_holds
    rw [ends_bind]
    apply (dropConflict_ends_kept h hkey).imp
    · intro _ last hlast
      exact refuseAppend_answers hlast (hlast.nears.term_eq hterm) hkey
    · rintro last ⟨hlast, hunsure⟩
      exact hlast.stalls hunsure
  -- The key is held, so the logs agree up to it and the entry goes right behind.
  next hstanding =>
    have hprev := (Log.standing_eq_held.mp hstanding).lt_common h.matching hnames
    rw [ends_bind]
    apply (acceptAppend_accepts h hhonest hprev).imp
    · rintro accepted last ⟨rfl, hlast, htaken⟩
      unfold answerAppend
      simp only [if_true, ends_bind, ends_server, ends_post]
      refine ⟨_, last.server, hlast.nears, by rw [hlast.postings_eq], rfl,
        hlast.nears.term_eq hterm, ?_, fun _ => ⟨rfl, htaken⟩, Bool.noConfusion⟩
      exact congrArg Config.serverId hlast.nears.config_eq
    · rintro last ⟨hlast, hunsure⟩
      exact hlast.stalls hunsure

/-! ## Events -/

/-- A follower in the leader's term answers. -/
theorem handle_answers_of_follower (h : turn.server.Trails term leaderLog)
    (hterm : turn.server.term = term) (hhonest : request.Honest term leaderLog)
    {leader : Option ServerId} (hrole : turn.server.role = .follower leader) :
    (handle (.received receiver (.appendRequest request))).Ends
      (fun change last => change = .stay ∧ Answered term leaderLog receiver request turn last)
      (Stalls term leaderLog receiver request turn) turn := by
  have hrequest : request.term = turn.server.term := hhonest.term_eq.trans hterm.symm
  refine ends_handle_of_follower hrole hrequest fun timer => ?_
  have hfollowing : Approaches term leaderLog turn { turn with
      server := { turn.server with role := .follower (some request.leaderId), timer } } :=
    ⟨h.still rfl rfl rfl rfl (Int.le_refl _), rfl⟩
  apply (answerAppendRequest_answers hfollowing.nears.trails hterm hhonest).imp
  · exact fun _ last hlast => ⟨rfl, hfollowing.answered hlast⟩
  · exact fun last hlast => hfollowing.stalled hlast

/-- A server that trails a leader answers it, or follows it first. -/
theorem handle_answers (h : turn.server.Trails term leaderLog)
    (hhonest : request.Honest term leaderLog) :
    (handle (.received receiver (.appendRequest request))).Ends
      (fun change last =>
        (change = .stay ∧ Answered term leaderLog receiver request turn last) ∨
          (change = .follow ∧ Approaches term leaderLog turn last ∧ last.server.term = term))
      (Stalls term leaderLog receiver request turn) turn := by
  have hstart : Approaches term leaderLog turn turn := ⟨h.nears, rfl⟩
  by_cases hnewer : turn.server.term < term
  · have hrequest : (Message.appendRequest request).term = term := hhonest.term_eq
    apply ends_handle_of_newer (hrequest ▸ hnewer)
    · intro durable hmoved
      obtain ⟨hnears, hterm⟩ := h.moveTo hnewer (hrequest ▸ hmoved)
      exact .inr ⟨rfl, ⟨hnears, rfl⟩, hterm⟩
    · intro cause hfailed
      refine hstart.stalls fun hsure => ?_
      exact ne_error_of_exists_ok cause (Durable.exists_moveTo hsure.log.reliable _) hfailed
  · have hterm : turn.server.term = term := Int.le_antisymm h.term_le (Int.not_lt.mp hnewer)
    cases hrole : turn.server.role with
    | follower leader =>
      exact (handle_answers_of_follower h hterm hhonest hrole).mono fun _ _ hlast => .inl hlast
    | candidate electionPending =>
      have hrequest : request.term = turn.server.term := hhonest.term_eq.trans hterm.symm
      exact ends_handle_of_candidate hrole hrequest (.inr ⟨rfl, hstart, hterm⟩)
    | leader nextHeartbeat =>
      have hfollows := h.follows
      rw [hrole] at hfollows
      cases hfollows

/-- What is answered stays answered while the server applies what is committed. -/
theorem applyCommitted_answered {first : Turn σ}
    (h : Answered term leaderLog receiver request first turn) :
    (applyCommitted : Action σ Unit).Ends
      (fun _ last => Answered term leaderLog receiver request first last)
      (Stalls term leaderLog receiver request first) turn := by
  apply applyCommitted_applies.imp
  · exact fun _ last happlies => h.applied happlies
  · rintro last ⟨happlies, hunfit⟩
    refine ⟨.inr (h.applied happlies), fun hsure => hunfit ?_⟩
    exact (h.nears.sure hsure).applicable h.nears.trails

/-- A server that trails a leader answers each request of the leader once. -/
theorem dispatch_answers (h : turn.server.Trails term leaderLog)
    (hhonest : request.Honest term leaderLog) :
    (dispatch (.received receiver (.appendRequest request))).Ends
      (fun _ last => Answered term leaderLog receiver request turn last)
      (Stalls term leaderLog receiver request turn) turn := by
  unfold dispatch
  rw [ends_bind]
  apply (handle_answers h hhonest).mono
  rintro _ middle (⟨rfl, hanswered⟩ | ⟨rfl, happroaches, hterm⟩)
  · exact applyCommitted_answered hanswered
  · unfold enter becomeFollower
    simp only [ends_bind, ends_setRole, ends_modifyTimer, ends_modifyProgress, if_true]
    have hfollowing : Approaches term leaderLog turn { middle with
        server := { middle.server with
          role := .follower none
          timer := middle.server.timer.restart middle.now
          progress := { middle.server.progress.clearCursors with
            tally := middle.server.progress.clearCursors.tally.clear } } } := by
      refine ⟨Server.Nears.trans ?_ happroaches.nears, happroaches.postings_eq⟩
      exact happroaches.nears.trails.still rfl rfl rfl rfl (Int.le_refl _)
    -- As a follower in the leader's term it answers when it looks at the request again.
    apply (handle_answers_of_follower hfollowing.nears.trails hterm hhonest rfl).imp
    · rintro _ last ⟨rfl, hanswered⟩
      exact applyCommitted_answered (hfollowing.answered hanswered)
    · exact fun last hlast => hfollowing.stalled hlast

end Action

/-! ## Frames -/

namespace Server

variable {server : Server σ} {request : AppendRequest} {frame : Bytes}

/-- A peer's honest request is answered, unless something failed that cannot fail for a
server that is sure. -/
theorem receive_answers (h : server.Trails term leaderLog) (now : Duration) {sender : ServerId}
    (hpeer : server.config.isPeer sender = true)
    (hread : Message.decode frame = .ok (.appendRequest request))
    (hhonest : request.Honest term leaderLog) :
    (∃ last, server.receive now sender frame = ⟨last.server, last.postings, .ok ()⟩ ∧
        Turn.Answered term leaderLog sender request ⟨server, now, []⟩ last) ∨
      ∃ failure last, server.receive now sender frame =
          ⟨last.server, last.postings, .error failure⟩ ∧
        Turn.Stalls term leaderLog sender request ⟨server, now, []⟩ last := by
  rw [receive_eq_turn hpeer hread]
  rcases (Action.dispatch_answers h hhonest).turn_cases with ⟨⟨⟩, last, hturn, hlast⟩ | hfailed
  · exact .inl ⟨last, hturn, hlast⟩
  · exact .inr hfailed

end Server

end Consensus
