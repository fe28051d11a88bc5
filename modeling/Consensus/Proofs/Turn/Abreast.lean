import Consensus.Proofs.Log.Twins
import Consensus.Proofs.Turn.Replies

/-! # Two turns abreast

What a follower does depends on its past only as far as its log, its vote and its state machine
show it. Two servers that are alike in these handle a message in the same way, whatever else they
have been through, as long as neither has a write that fails.
-/

namespace Consensus

variable {σ : Type} [Store σ]

namespace Server

/-- Only their timers, the terms of their tallies and the making of their stores can tell the
servers apart. -/
structure Alike (one other : Server σ) : Prop where
  config_eq : one.config = other.config
  role_eq : one.role = other.role
  term_eq : one.term = other.term
  votedFor_eq : one.votedFor = other.votedFor
  entries_eq : one.log.entries = other.log.entries
  commitIndex_eq : one.commitIndex = other.commitIndex
  lastApplied_eq : one.progress.lastApplied = other.progress.lastApplied
  cursors_eq : one.progress.cursors = other.progress.cursors
  voters_eq : one.progress.tally.voters = other.progress.tally.voters
  delivered_eq : one.delivered = other.delivered

/-- The server is in the term with nothing left of an election or of leading. -/
structure Renewed (server : Server σ) (term : Term) : Prop where
  term_eq : server.term = term
  cursors_eq : server.progress.cursors = []
  voters_eq : server.progress.tally.voters = []

variable {one other : Server σ}

omit [Store σ] in
theorem id_eq_of_config (h : one.config = other.config) : one.id = other.id :=
  congrArg Config.serverId h

theorem Alike.knownLeader_eq (h : one.Alike other) : one.knownLeader = other.knownLeader := by
  unfold knownLeader
  rw [h.role_eq, id_eq_of_config h.config_eq]

theorem Alike.voteCount_eq (h : one.Alike other) : one.voteCount = other.voteCount :=
  congrArg List.length h.voters_eq

/-- Servers that are alike refuse the same entries. -/
theorem Alike.refuses_iff (h : one.Alike other) (request : AppendRequest) (entry : PlacedEntry) :
    one.Refuses request entry ↔ other.Refuses request entry := by
  unfold Refuses
  rw [Log.standing_congr h.entries_eq, h.commitIndex_eq]

/-- Servers that are alike, on twin logs, grant the same votes. -/
theorem Alike.grants_iff [LawfulStore σ] (h : one.Alike other) (htwins : one.log.Twins other.log)
    (request : VoteRequest) : one.Grants request ↔ other.Grants request := by
  unfold Grants FreeToVote
  rw [h.term_eq, h.votedFor_eq, htwins.lastKey_eq]

end Server

variable [LawfulStore σ]

/-- The two turns have posted the same messages. Their servers are alike and in the term, on
twin logs. -/
structure Turn.Abreast (term : Term) (one other : Turn σ) : Prop where
  alike : one.server.Alike other.server
  renewed : one.server.Renewed term
  twins : one.server.log.Twins other.server.log
  messages_eq : one.messages = other.messages

namespace Turn

variable {term : Term} {one other : Turn σ} {server also : Server σ}

/-- Turns stay abreast when their servers give way to servers that are alike. -/
theorem Abreast.step (h : Abreast term one other) (halike : server.Alike also)
    (hrenewed : server.Renewed term) (htwins : server.log.Twins also.log) :
    Abreast term { one with server } { other with server := also } :=
  ⟨halike, hrenewed, htwins, h.messages_eq⟩

theorem Abreast.timers (h : Abreast term one other) (timer timer' : Countdown) :
    Abreast term { one with server := { one.server with timer } }
      { other with server := { other.server with timer := timer' } } :=
  h.step { h.alike with } { h.renewed with } h.twins

theorem Abreast.role (h : Abreast term one other) (role : Role) :
    Abreast term { one with server := { one.server with role } }
      { other with server := { other.server with role } } :=
  h.step { h.alike with role_eq := rfl } { h.renewed with } h.twins

/-- Turns stay abreast when their logs give way to twins. -/
theorem Abreast.log (h : Abreast term one other) {log log' : Log σ} (htwins : log.Twins log') :
    Abreast term
      { one with server := { one.server with durable := { one.server.durable with log } } }
      { other with
        server := { other.server with durable := { other.server.durable with log := log' } } } :=
  h.step { h.alike with entries_eq := htwins.entries_eq } { h.renewed with } htwins

/-- A vote is given in the term on both sides, and stored beside twin logs. -/
theorem Abreast.durable (h : Abreast term one other) {durable durable' : Durable σ}
    (hterm : durable.term = term) (hterm' : durable'.term = term)
    (hvote : durable.votedFor = durable'.votedFor) (htwins : durable.log.Twins durable'.log) :
    Abreast term { one with server := { one.server with durable } }
      { other with server := { other.server with durable := durable' } } :=
  h.step { h.alike with
    term_eq := hterm.trans hterm'.symm, votedFor_eq := hvote, entries_eq := htwins.entries_eq }
    { h.renewed with term_eq := hterm } htwins

theorem Abreast.raiseCommit (h : Abreast term one other) (index : Index) :
    Abreast term
      { one with server := { one.server with progress := one.server.progress.raiseCommit index } }
      { other with
        server := { other.server with progress := other.server.progress.raiseCommit index } } := by
  have hcommit : one.server.progress.commitIndex = other.server.progress.commitIndex :=
    h.alike.commitIndex_eq
  unfold Progress.raiseCommit
  rw [hcommit]
  split
  next => exact h.step { h.alike with commitIndex_eq := rfl } { h.renewed with } h.twins
  next => exact h

/-- Turns stay abreast when both hand out the same command. -/
theorem Abreast.deliver (h : Abreast term one other) (index : Index) (command : Command) :
    Abreast term
      { one with server := { one.server with
        delivered := one.server.delivered.push index command
        progress := one.server.progress.markApplied index } }
      { other with server := { other.server with
        delivered := other.server.delivered.push index command
        progress := other.server.progress.markApplied index } } :=
  h.step { h.alike with lastApplied_eq := rfl, delivered_eq := by rw [h.alike.delivered_eq] }
    { h.renewed with } h.twins

/-- Turns stay abreast when both servers begin to campaign. -/
theorem Abreast.campaign (h : Abreast term one other) :
    Abreast term
      { one with server := { one.server with
        role := .candidate true, progress := one.server.progress.clearCursors } }
      { other with server := { other.server with
        role := .candidate true, progress := other.server.progress.clearCursors } } :=
  h.step { h.alike with role_eq := rfl, cursors_eq := rfl } { h.renewed with cursors_eq := rfl }
    h.twins

/-- Turns stay abreast when both post the same message. -/
theorem Abreast.post (h : Abreast term one other) (receiver : ServerId) {message also : Message}
    (hmessage : message = also) :
    Abreast term
      { one with postings := one.postings ++ [⟨receiver, message, one.server⟩] }
      { other with postings := other.postings ++ [⟨receiver, also, other.server⟩] } := by
  subst hmessage
  refine ⟨h.alike, h.renewed, h.twins, ?_⟩
  simpa [Turn.messages] using h.messages_eq

end Turn

namespace Action

variable {α β γ δ : Type} {term : Term} {turn turn' : Turn σ}

/-! ## Rules -/

/-- Each run from a turn of its own, the actions both succeed as `done` says, or they fail for the
same cause with their turns abreast. -/
def EndBeside (term : Term) (one : Action σ α) (other : Action σ β)
    (done : α → Turn σ → β → Turn σ → Prop) (turn turn' : Turn σ) : Prop :=
  match one.run turn, other.run turn' with
  | .ok answer last, .ok also last' => done answer last also last'
  | .error failure last, .error cause last' => failure = cause ∧ last.Abreast term last'
  | _, _ => False

variable {done : α → Turn σ → β → Turn σ → Prop}

theorem EndBeside.mono {wider : α → Turn σ → β → Turn σ → Prop} {one : Action σ α}
    {other : Action σ β} (h : EndBeside term one other done turn turn')
    (hdone : ∀ answer last also last', done answer last also last' →
      wider answer last also last') : EndBeside term one other wider turn turn' := by
  unfold EndBeside at h ⊢
  cases hone : one.run turn <;> cases hother : other.run turn'
  all_goals
    rw [hone, hother] at h
  · exact hdone _ _ _ _ h
  · exact h
  · exact h
  · exact h

/-- Actions end beside each other when their first parts do and, from there, their rests. -/
theorem endBeside_bind {one : Action σ γ} {other : Action σ δ} {rest : γ → Action σ α}
    {rest' : δ → Action σ β}
    (h : EndBeside term one other
      (fun answer last also last' =>
        EndBeside term (rest answer) (rest' also) done last last') turn turn') :
    EndBeside term (one >>= rest) (other >>= rest') done turn turn' := by
  unfold EndBeside at h ⊢
  rw [EStateM.run_bind, EStateM.run_bind]
  cases hone : one.run turn <;> cases hother : other.run turn'
  all_goals
    rw [hone, hother] at h
  · exact h
  · exact h.elim
  · exact h.elim
  · exact h

theorem endBeside_server {rest : Server σ → Action σ α} {rest' : Server σ → Action σ β} :
    EndBeside term (server >>= rest) (server >>= rest') done turn turn' ↔
      EndBeside term (rest turn.server) (rest' turn'.server) done turn turn' := Iff.rfl

/-- Actions that take the same branch end beside each other when the branches do. -/
theorem endBeside_ite {p q : Prop} [Decidable p] [Decidable q] (hsame : p ↔ q)
    {one one' : Action σ α} {other other' : Action σ β}
    (hfirst : p → q → EndBeside term one other done turn turn')
    (hsecond : ¬ p → ¬ q → EndBeside term one' other' done turn turn') :
    EndBeside term (if p then one else one') (if q then other else other') done turn turn' := by
  by_cases hp : p
  · rw [if_pos hp, if_pos (hsame.mp hp)]
    exact hfirst hp (hsame.mp hp)
  · have hq : ¬ q := fun hq => hp (hsame.mpr hq)
    rw [if_neg hp, if_neg hq]
    exact hsecond hp hq

/-- Changes of what is durable that both succeed end beside each other. -/
theorem endBeside_changeDurable {change change' : Durable σ → Except Failure (Durable σ)}
    {done : Unit → Turn σ → Unit → Turn σ → Prop} {durable durable' : Durable σ}
    (hchange : change turn.server.durable = .ok durable)
    (hchange' : change' turn'.server.durable = .ok durable')
    (hdone : done () { turn with server := { turn.server with durable } }
      () { turn' with server := { turn'.server with durable := durable' } }) :
    EndBeside term (changeDurable change) (changeDurable change') done turn turn' := by
  unfold changeDurable
  rw [endBeside_server, hchange, hchange']
  exact hdone

/-! ## Answers -/

/-- What an action answers is the same for both, and the turns stay abreast. -/
def Together (term : Term) (answer : α) (last : Turn σ) (also : α) (last' : Turn σ) : Prop :=
  answer = also ∧ last.Abreast term last'

theorem refuseAppend_together (h : turn.Abreast term turn') (receiver : ServerId) :
    EndBeside term (refuseAppend receiver) (refuseAppend receiver) (Together term) turn turn' := by
  refine ⟨rfl, h.post receiver ?_⟩
  have hsize : turn.server.log.lastIndex = turn'.server.log.lastIndex := by
    show (turn.server.log.entries.length : Int) - 1 = turn'.server.log.entries.length - 1
    rw [h.alike.entries_eq]
  rw [h.alike.term_eq, Server.id_eq_of_config h.alike.config_eq, hsize]

theorem answerAppend_together (h : turn.Abreast term turn') (receiver : ServerId)
    (successful : Bool) (matchLogIndex : Index) :
    EndBeside term (answerAppend receiver successful matchLogIndex)
      (answerAppend receiver successful matchLogIndex) (Together term) turn turn' := by
  refine ⟨rfl, h.post receiver ?_⟩
  rw [h.alike.term_eq, Server.id_eq_of_config h.alike.config_eq]

/-- Both grant a vote or both refuse it. -/
theorem answerVoteRequest_together (h : turn.Abreast term turn') (sender : ServerId)
    (request : VoteRequest) :
    EndBeside term (answerVoteRequest sender request) (answerVoteRequest sender request)
      (Together term) turn turn' := by
  have hterm : turn.server.durable.term = term := h.renewed.term_eq
  have hterm' : turn'.server.durable.term = term := h.alike.term_eq.symm.trans hterm
  have hreply (granted : Bool) : Message.voteResponse ⟨turn.server.term, granted⟩ =
      .voteResponse ⟨turn'.server.term, granted⟩ := by rw [h.alike.term_eq]
  unfold answerVoteRequest
  rw [endBeside_server]
  apply endBeside_ite (h.alike.grants_iff h.twins request)
  · intro _ _
    apply endBeside_ite (by rw [h.alike.votedFor_eq])
    · intro _ _
      obtain ⟨voted, voted', hrecord, hrecord', hkept, hkept', hvoted, hvoted', htwins⟩ :=
        Durable.exists_record_twins h.twins term (some request.candidateId)
      have hvote : turn.server.durable.voteFor request.candidateId = .ok voted := by
        rw [Durable.voteFor, hterm, hrecord]
      have hvote' : turn'.server.durable.voteFor request.candidateId = .ok voted' := by
        rw [Durable.voteFor, hterm', hrecord']
      apply endBeside_bind
      refine endBeside_changeDurable (mapError_eq_ok.mpr hvote) (mapError_eq_ok.mpr hvote') ?_
      have hvoting := h.durable hkept hkept' (hvoted.trans hvoted'.symm) htwins
      exact ⟨rfl, hvoting.post sender (hreply true)⟩
    · intro _ _
      exact ⟨rfl, h.post sender (hreply true)⟩
  · intro _ _
    exact ⟨rfl, h.post sender (hreply false)⟩

/-! ## Entries -/

/-- Both take over an entry that leaves no gap behind their logs. -/
theorem takeEntry_together (h : turn.Abreast term turn') {entry : PlacedEntry}
    (hnonneg : 0 ≤ entry.index) (hindex : entry.index ≤ turn.server.log.entries.length)
    (hdecodes : Command.Decodes entry.command) :
    EndBeside term (takeEntry entry) (takeEntry entry) (Together term) turn turn' := by
  obtain ⟨accepted, also, placement, haccept, haccept', htwins⟩ :=
    h.twins.accept hnonneg hindex hdecodes.length_lt
  unfold takeEntry
  rw [endBeside_server, haccept, haccept']
  exact ⟨rfl, h.log htwins⟩

/-- Both accept what a request carries behind a key that their logs hold, or both refuse it. -/
theorem acceptAppend_together (h : turn.Abreast term turn') {request : AppendRequest}
    (hprev : Entries.Holds turn.server.log.entries request.prevLogEntry)
    (hcarried : Message.Carried (.appendRequest request)) :
    EndBeside term (acceptAppend request) (acceptAppend request) (Together term) turn turn' := by
  unfold acceptAppend followCommit
  cases hentry : request.entry with
  | none => exact ⟨rfl, h.raiseCommit _⟩
  | some entry =>
    dsimp only
    rw [endBeside_server]
    apply endBeside_ite (h.alike.refuses_iff request entry)
    · exact fun _ _ => ⟨rfl, h⟩
    · intro haccepts _
      have hplace : entry.index = request.prevLogEntry.index + 1 := by
        by_contra hmisplaced
        exact haccepts (.inl hmisplaced)
      have hlow : -1 ≤ request.prevLogEntry.index := Entries.Holds.index_ge hprev
      have hhigh := Entries.Holds.index_lt hprev
      apply endBeside_bind
      apply (takeEntry_together h (by lia) (by lia) (hcarried request entry rfl hentry)).mono
      rintro _ last _ last' ⟨_, hlast⟩
      exact ⟨rfl, hlast.raiseCommit _⟩

/-- Both drop what conflicts with a key, if anything does. -/
theorem dropConflict_together (h : turn.Abreast term turn') {key : LogKey}
    (hnonneg : 0 ≤ key.index) :
    EndBeside term (dropConflict key) (dropConflict key) (Together term) turn turn' := by
  obtain ⟨shorter, also, hshorter, halso, htwins⟩ := h.twins.truncate hnonneg
  unfold dropConflict
  rw [endBeside_server]
  apply endBeside_ite (by rw [h.alike.commitIndex_eq])
  · intro _ _
    refine endBeside_changeDurable (mapError_eq_ok.mpr (map_eq_ok.mpr ⟨shorter, hshorter, rfl⟩))
      (mapError_eq_ok.mpr (map_eq_ok.mpr ⟨also, halso, rfl⟩)) ?_
    exact ⟨rfl, h.log htwins⟩
  · exact fun _ _ => ⟨rfl, h⟩

/-- Both give an append request the same answer, and their logs stay twins. -/
theorem answerAppendRequest_together (h : turn.Abreast term turn') (sender : ServerId)
    {request : AppendRequest} (hcarried : Message.Carried (.appendRequest request)) :
    EndBeside term (answerAppendRequest sender request) (answerAppendRequest sender request)
      (Together term) turn turn' := by
  unfold answerAppendRequest
  rw [endBeside_server]
  apply endBeside_ite (by rw [h.alike.term_eq])
  · exact fun _ _ => refuseAppend_together h sender
  · intro _ _
    rw [← Log.standing_congr h.alike.entries_eq]
    cases hstanding : turn.server.log.standing request.prevLogEntry with
    | beyond => exact refuseAppend_together h sender
    | conflicting =>
      obtain ⟨_, hread, _⟩ := Log.conflicts_of_standing hstanding
      apply endBeside_bind
      apply (dropConflict_together h (Entries.bounds_of_read? hread).1).mono
      rintro _ last _ last' ⟨_, hlast⟩
      exact refuseAppend_together hlast sender
    | held =>
      apply endBeside_bind
      apply (acceptAppend_together h (Log.standing_eq_held.mp hstanding) hcarried).mono
      rintro accepted last _ last' ⟨rfl, hlast⟩
      apply endBeside_ite Iff.rfl
      · exact fun _ _ => answerAppend_together hlast sender true request.lastNewIndex
      · exact fun _ _ => refuseAppend_together hlast sender

/-! ## Events -/

/-- Followers make the same of a message. They may campaign by it, and change to nothing else. -/
theorem followerEvent_together (h : turn.Abreast term turn') (sender : ServerId)
    {message : Message} (hcarried : message.Carried) :
    EndBeside term (followerEvent (.received sender message))
      (followerEvent (.received sender message))
      (fun change last also last' => (change = .stay ∨ change = .campaign) ∧
        Together term change last also last') turn turn' := by
  unfold followerEvent
  rw [endBeside_server]
  cases message with
  | appendRequest request =>
    apply endBeside_ite (by rw [h.alike.term_eq])
    · intro _ _
      have hfollowing := (h.timers (turn.server.timer.reset turn.now)
        (turn'.server.timer.reset turn'.now)).role (.follower (some request.leaderId))
      apply endBeside_bind
      apply endBeside_bind
      apply endBeside_bind
      apply (answerAppendRequest_together hfollowing sender hcarried).mono
      rintro _ last _ last' ⟨_, hlast⟩
      exact ⟨.inl rfl, rfl, hlast⟩
    · intro _ _
      apply endBeside_bind
      apply (answerAppendRequest_together h sender hcarried).mono
      rintro _ last _ last' ⟨_, hlast⟩
      exact ⟨.inl rfl, rfl, hlast⟩
  | voteRequest request =>
    apply endBeside_bind
    apply (answerVoteRequest_together h sender request).mono
    rintro granted last _ last' ⟨rfl, hlast⟩
    apply endBeside_ite Iff.rfl
    · exact fun _ _ => ⟨.inl rfl, rfl, hlast.timers _ _⟩
    · exact fun _ _ => ⟨.inl rfl, rfl, hlast⟩
  | timeoutNow request =>
    have hsame : request.candidateId = turn.server.id ∧ request.term = turn.server.term ↔
        request.candidateId = turn'.server.id ∧ request.term = turn'.server.term := by
      rw [Server.id_eq_of_config h.alike.config_eq, h.alike.term_eq]
    apply endBeside_ite hsame
    · exact fun _ _ => ⟨.inr rfl, rfl, h.timers _ _⟩
    · exact fun _ _ => ⟨.inl rfl, rfl, h⟩
  | voteResponse response => exact ⟨.inl rfl, rfl, h⟩
  | appendResponse response => exact ⟨.inl rfl, rfl, h⟩

/-! ## Applying -/

theorem applyAt_together (h : turn.Abreast term turn') (index : Index) :
    EndBeside term (applyAt index) (applyAt index) (Together term) turn turn' := by
  have hread : turn'.server.log.read? index = turn.server.log.read? index :=
    congrArg (Entries.read? · index) h.alike.entries_eq.symm
  unfold applyAt
  rw [endBeside_server, hread]
  cases turn.server.log.read? index with
  | none => exact ⟨rfl, h⟩
  | some entry =>
    dsimp only
    cases Command.decode entry.command with
    | error cause => exact ⟨rfl, h⟩
    | ok command => exact ⟨rfl, h.deliver index command⟩

/-- Both hand out the same commands, one after another. -/
theorem applyNext_together (count : Nat) (h : turn.Abreast term turn') :
    EndBeside term (applyNext count) (applyNext count) (Together term) turn turn' := by
  induction count generalizing turn turn' with
  | zero => exact ⟨rfl, h⟩
  | succ count ih =>
    have hcommit : turn.server.progress.commitIndex = turn'.server.progress.commitIndex :=
      h.alike.commitIndex_eq
    have hnext : turn'.server.progress.nextDue? = turn.server.progress.nextDue? := by
      unfold Progress.nextDue?
      rw [hcommit, h.alike.lastApplied_eq]
    unfold applyNext
    rw [endBeside_server, hnext]
    cases turn.server.progress.nextDue? with
    | none => exact ⟨rfl, h⟩
    | some index =>
      apply endBeside_bind
      apply (applyAt_together h index).mono
      rintro _ last _ last' ⟨_, hlast⟩
      exact ih hlast

/-- Both apply the same commands, up to the same failure if there is one. -/
theorem applyCommitted_together (h : turn.Abreast term turn') :
    EndBeside term applyCommitted applyCommitted (Together term) turn turn' := by
  have hcommit : turn.server.progress.commitIndex = turn'.server.progress.commitIndex :=
    h.alike.commitIndex_eq
  unfold applyCommitted
  rw [endBeside_server]
  dsimp only
  rw [hcommit, h.alike.lastApplied_eq]
  exact applyNext_together _ h

/-! ## A message of the term -/

/-- Two followers abreast handle a message of no newer term together: both stay or both campaign. -/
theorem handle_together {leader : Option ServerId} (h : turn.Abreast term turn')
    (hrole : turn.server.role = .follower leader) (sender : ServerId) {message : Message}
    (hterm : message.term ≤ term) (hcarried : message.Carried) :
    EndBeside term (handle (.received sender message)) (handle (.received sender message))
      (fun change last also last' => (change = .stay ∨ change = .campaign) ∧
        Together term change last also last') turn turn' := by
  have hcurrent : ¬ turn.server.term < message.term := by
    rw [h.renewed.term_eq]
    exact Int.not_lt.mpr hterm
  have hcurrent' : ¬ turn'.server.term < message.term := h.alike.term_eq ▸ hcurrent
  unfold handle
  simp only [Event.term?]
  rw [endBeside_server, if_neg hcurrent, if_neg hcurrent']
  unfold roleEvent
  rw [endBeside_server, ← h.alike.role_eq, hrole]
  exact followerEvent_together h sender hcarried

/-- Followers of the term settle a message in the same way, whichever of two ways goes on from
there, as long as neither has more to do but for one that is to follow. -/
theorem settle_together {leader : Option ServerId} {next next' : RoleChange → Action σ Unit}
    (hnext : ∀ change, change ≠ .follow → next change = applyCommitted)
    (hnext' : ∀ change, change ≠ .follow → next' change = applyCommitted)
    (h : turn.Abreast term turn') (hrole : turn.server.role = .follower leader)
    (sender : ServerId) {message : Message} (hterm : message.term ≤ term)
    (hcarried : message.Carried) :
    EndBeside term
      (do let change ← handle (.received sender message); enter change; next change)
      (do let change ← handle (.received sender message); enter change; next' change)
      (Together term) turn turn' := by
  apply endBeside_bind
  apply (handle_together h hrole sender hterm hcarried).mono
  rintro change last _ last' ⟨hchange, rfl, hlast⟩
  apply endBeside_bind
  rcases hchange with rfl | rfl
  · show EndBeside term (next .stay) (next' .stay) (Together term) last last'
    rw [hnext .stay RoleChange.noConfusion, hnext' .stay RoleChange.noConfusion]
    exact applyCommitted_together hlast
  · show EndBeside term (next .campaign) (next' .campaign) (Together term) _ _
    rw [hnext .campaign RoleChange.noConfusion, hnext' .campaign RoleChange.noConfusion]
    exact applyCommitted_together hlast.campaign

end Action

end Consensus
