import Consensus.Proofs.Replication.Bookkeeping
import Consensus.Proofs.Turn.Answering
import Consensus.Proofs.Turn.Calls

/-! # Terms of office

Whatever a server is called for, it begins to lead only as a candidate that is elected. One
that leads goes on with its books or steps down, and in one call it does not come back.
-/

namespace Consensus

variable {σ : Type} [Store σ]

namespace Server

variable {earlier later : Server σ}

/-- The server does not begin to lead. -/
structure Rests (earlier later : Server σ) : Prop where
  config_eq : later.config = earlier.config
  led : later.role.isLeader = true → earlier.role.isLeader = true

omit [Store σ] in
/-- Who rests without leading does not lead. -/
theorem Rests.follows (h : earlier.Rests later) (hfollows : earlier.role.isLeader = false) :
    later.role.isLeader = false :=
  Bool.eq_false_iff.mpr fun hleads => Bool.eq_false_iff.mp hfollows (h.led hleads)

/-- The server has opened an election, and counted no vote in it but its own. -/
def Opens (server : Server σ) : Prop :=
  server.progress.tally = .start server.term server.id

instance : IsPreorder (Server σ) Rests where
  refl _ := ⟨rfl, fun hleads => hleads⟩
  trans _ _ _ h hnext :=
    ⟨hnext.config_eq.trans h.config_eq, fun hleads => h.led (hnext.led hleads)⟩

/-- The relation holds through each of the things that an event has a follower do. -/
structure Tolerates (related : Server σ → Server σ → Prop) : Prop where
  timer (server : Server σ) (timer : Countdown) : related server { server with timer }
  follow (server : Server σ) (leader : Option ServerId) :
    related server { server with role := .follower leader }
  vote {server : Server σ} {candidate : ServerId} {durable : Durable σ}
    (hvote : server.durable.voteFor candidate = .ok durable) :
    related server { server with durable }
  log (server : Server σ) (log : Log σ) :
    related server { server with durable := { server.durable with log } }
  commit (server : Server σ) (index : Index) :
    related server { server with progress := server.progress.raiseCommit index }

theorem rests_tolerates : Tolerates (Rests : Server σ → Server σ → Prop) where
  timer _ _ := ⟨rfl, fun hleads => hleads⟩
  follow _ _ := ⟨rfl, fun hleads => Bool.noConfusion hleads⟩
  vote _ := ⟨rfl, fun hleads => hleads⟩
  log _ _ := ⟨rfl, fun hleads => hleads⟩
  commit _ _ := ⟨rfl, fun hleads => hleads⟩

end Server

/-- What does not lead at first and does not begin to lead has no books to keep. -/
theorem Turn.Through.upholds {first last : Turn σ} (h : first.Through Server.Rests last)
    (hfollows : first.server.role.isLeader = false) : first.Through Server.Upholds last :=
  h.imp fun _ _ hearlier hrests =>
    Server.upholds_of_follows hrests.config_eq (hrests.follows (hearlier.follows hfollows))

/-- The event brings a candidate the vote that it wins by. -/
structure Server.WonBy (server : Server σ) (event : Event) (won : Server σ) : Prop where
  candidate : ∃ electionPending, server.role = .candidate electionPending
  vote : ∃ sender, event = .received sender (.voteResponse ⟨server.term, true⟩) ∧
    server.progress.tally.Counts server.term sender ∧
    won = { server with progress := { server.progress with
      tally := server.progress.tally.record server.term sender } }
  elected : won.Elected

/-- The turn upholds the books all the way, or up to an election that the server wins in some
way and again from there on. -/
inductive Turn.Succession (wins : Server σ → Prop) (first last : Turn σ) : Prop where
  | upheld (h : first.Through Server.Upholds last)
  | elected {middle : Turn σ} (hfollows : first.server.role.isLeader = false)
      (hfront : first.Through Server.Upholds middle) (hwins : wins middle.server)
      (hback : ({ middle with server := middle.server.elected middle.now } : Turn σ).Through
        Server.Upholds last)

/-- What has been made of an event leaves the server ready for the change of role that is asked
for. One that is to follow may be in a newer term already. -/
structure Turn.Poised (first turn : Turn σ) (event : Event) (change : RoleChange)
    (last : Turn σ) : Prop where
  upheld : change ≠ .follow → first.Through Server.Upholds last
  ready : ∃ server : Server σ, last.server.config = server.config ∧
    first.Through Server.Upholds { last with server }
  won : change = .lead → turn.server.WonBy event last.server

namespace Action

open Server (Rests Tolerates Upholds upholds_of_grown upholds_of_follows)

variable {first turn : Turn σ}

/-! ## Following -/

section Following

variable {related : Server σ → Server σ → Prop} [IsPreorder (Server σ) related]

/-- What a follower's actions tolerate holds through a vote. -/
theorem answerVoteRequest_keepsTo (htolerates : Tolerates related) (sender : ServerId)
    (request : VoteRequest) : KeepsTo related (answerVoteRequest sender request) := by
  intro first turn h
  apply ends_answerVoteRequest
  · rintro voted _ (⟨_, rfl⟩ | ⟨_, durable, hvote, rfl⟩)
    · exact h.post sender _
    · have hvoted : first.Through related { turn with server := { turn.server with durable } } :=
        h.step rfl (htolerates.vote hvote)
      exact hvoted.post sender _
  · intro _
    exact h.post sender _
  · intro _ _ _
    exact h

theorem acceptAppend_keepsTo (htolerates : Tolerates related) (request : AppendRequest) :
    KeepsTo related (acceptAppend request) := by
  intro first turn h
  unfold acceptAppend followCommit
  split
  next =>
    simp only [ends_bind, ends_modifyProgress]
    exact h.step rfl (htolerates.commit _ _)
  next entry _ =>
    simp only [ends_bind, ends_server]
    apply ends_ite
    · intro _
      exact h
    · intro _
      unfold takeEntry
      simp only [ends_bind, ends_server, ends_modifyServer]
      have htaken : first.Through related { turn with server := { turn.server with
          durable := { turn.server.durable with log := (turn.server.log.accept entry).1 } } } :=
        h.step rfl (htolerates.log _ _)
      split
      next => exact htaken.step rfl (htolerates.commit _ _)
      next => exact htaken

/-- What a follower's actions tolerate holds through the answer to an append request. -/
theorem answerAppendRequest_keepsTo (htolerates : Tolerates related) (sender : ServerId)
    (request : AppendRequest) : KeepsTo related (answerAppendRequest sender request) := by
  intro first turn h
  unfold answerAppendRequest
  simp only [ends_bind, ends_server]
  apply ends_ite
  · intro _
    exact h.post sender _
  · intro _
    split
    next => exact h.post sender _
    next =>
      unfold dropConflict
      simp only [ends_bind, ends_server]
      apply ends_ite
      · intro _
        refine ends_changeDurable (fun durable hchange => ?_) h
        obtain ⟨shorter, _, rfl⟩ := map_eq_ok.mp (mapError_eq_ok.mp hchange)
        have hcut : first.Through related { turn with server := { turn.server with
            durable := { turn.server.durable with log := shorter } } } :=
          h.step rfl (htolerates.log _ _)
        exact hcut.post sender _
      · intro _
        exact h.post sender _
    next =>
      rw [ends_bind]
      apply (acceptAppend_keepsTo htolerates request h).mono
      intro accepted last hlast
      exact ends_ite (fun _ => hlast.post sender _) (fun _ => hlast.post sender _)

/-- A follower may campaign or go on as it is. It does not become a leader at once. -/
theorem followerEvent_keepsTo (htolerates : Tolerates related) (event : Event)
    (h : first.Through related turn) :
    (followerEvent event).Ends
      (fun change last => change ≠ .lead ∧ first.Through related last)
      (first.Through related) turn := by
  have hstays : RoleChange.stay ≠ .lead := RoleChange.noConfusion
  have hcampaigns : RoleChange.campaign ≠ .lead := RoleChange.noConfusion
  unfold followerEvent
  rw [ends_bind, ends_server]
  cases event with
  | timerRanOut => exact ⟨hcampaigns, h⟩
  | submitted command => exact ⟨hstays, h⟩
  | received sender message =>
    cases message with
    | appendRequest request =>
      dsimp only
      apply ends_ite
      · intro _
        simp only [ends_bind, ends_modifyTimer, ends_setRole]
        have hreset : first.Through related { turn with server := { turn.server with
            timer := turn.server.timer.reset turn.now } } :=
          h.step rfl (htolerates.timer _ _)
        have hfollowing : first.Through related { turn with server := { turn.server with
            timer := turn.server.timer.reset turn.now
            role := .follower (some request.leaderId) } } :=
          hreset.step rfl (htolerates.follow _ _)
        exact (answerAppendRequest_keepsTo htolerates sender request hfollowing).mono
          fun _ _ hlast => ⟨hstays, hlast⟩
      · intro _
        rw [ends_bind]
        exact (answerAppendRequest_keepsTo htolerates sender request h).mono
          fun _ _ hlast => ⟨hstays, hlast⟩
    | voteRequest request =>
      simp only [ends_bind]
      apply (answerVoteRequest_keepsTo htolerates sender request h).mono
      intro granted last hlast
      apply ends_ite
      · intro _
        rw [ends_bind, ends_modifyTimer]
        exact ⟨hstays, hlast.step rfl (htolerates.timer _ _)⟩
      · intro _
        exact ⟨hstays, hlast⟩
    | timeoutNow request =>
      apply ends_ite
      · intro _
        rw [ends_bind, ends_modifyTimer]
        exact ⟨hcampaigns, h.step rfl (htolerates.timer _ _)⟩
      · intro _
        exact ⟨hstays, h⟩
    | voteResponse response => exact ⟨hstays, h⟩
    | appendResponse response => exact ⟨hstays, h⟩

end Following

/-! ## Campaigning -/

/-- Starting an election opens it, and does not begin to lead. -/
theorem startElection_rests (h : first.Through Rests turn) :
    startElection.Ends (fun _ last => first.Through Rests last ∧ last.server.Opens)
      (first.Through Rests) turn := by
  unfold startElection
  simp only [ends_bind, ends_server, ends_modifyProgress, ends_modifyTimer]
  refine ends_changeDurable (fun durable _ => ?_) h
  apply ends_forM (fun last => first.Through Rests last ∧ last.server.Opens)
  · rintro peer _ last ⟨hlast, hopens⟩
    exact ⟨hlast.post peer _, hopens⟩
  · exact ⟨h.step rfl ⟨rfl, fun hleads => hleads⟩, rfl⟩

/-- Only the vote that makes a majority has a candidate lead. -/
theorem candidateEvent_rests {electionPending : Bool} (event : Event)
    (h : first.Through Rests turn) (hrole : turn.server.role = .candidate electionPending) :
    (candidateEvent event).Ends
      (fun change last => first.Through Rests last ∧
        (change = .lead → turn.server.WonBy event last.server))
      (first.Through Rests) turn := by
  unfold candidateEvent
  rw [ends_bind, ends_server]
  cases event with
  | timerRanOut =>
    rw [ends_bind, ends_setRole]
    exact ⟨h.step rfl ⟨rfl, fun hleads => Bool.noConfusion hleads⟩, RoleChange.noConfusion⟩
  | submitted command => exact ⟨h, RoleChange.noConfusion⟩
  | received sender message =>
    cases message with
    | appendRequest request =>
      apply ends_ite
      · intro _
        exact ⟨h, RoleChange.noConfusion⟩
      · intro _
        exact ⟨h.post sender _, RoleChange.noConfusion⟩
    | voteRequest request =>
      rw [ends_bind]
      apply (answerVoteRequest_keepsTo Server.rests_tolerates sender request h).mono
      intro granted last hlast
      exact ends_ite (fun _ => ⟨hlast, RoleChange.noConfusion⟩)
        (fun _ => ⟨hlast, RoleChange.noConfusion⟩)
    | voteResponse response =>
      rw [ends_bind]
      apply ends_countVote
      · intro hgranted hterm hcounts
        simp only [ends_bind, ends_server]
        have hcounted : first.Through Rests { turn with server := { turn.server with
            progress := { turn.server.progress with
              tally := turn.server.progress.tally.record turn.server.term sender } } } :=
          h.step rfl ⟨rfl, fun hleads => hleads⟩
        -- This is the one place where a candidate is told to lead.
        apply ends_ite
        · rintro ⟨_, helected⟩
          obtain ⟨term, granted⟩ := response
          obtain rfl : granted = true := hgranted
          obtain rfl : term = turn.server.term := hterm
          exact ⟨hcounted, fun _ => ⟨⟨_, hrole⟩, ⟨sender, rfl, hcounts, rfl⟩, helected⟩⟩
        · intro _
          exact ⟨hcounted, RoleChange.noConfusion⟩
      · simp only [ends_bind, ends_server]
        apply ends_ite
        · rintro ⟨hcounted, _⟩
          exact absurd hcounted (by decide)
        · intro _
          exact ⟨h, RoleChange.noConfusion⟩
    | appendResponse response => exact ⟨h, RoleChange.noConfusion⟩
    | timeoutNow request => exact ⟨h, RoleChange.noConfusion⟩

/-! ## Events -/

/-- A leader goes on or steps down, with its books in order up to the last. -/
theorem leaderEvent_upholds [LawfulStore σ] (event : Event) (h : first.Through Upholds turn)
    (hcoherent : turn.server.durable.Coherent) :
    (leaderEvent event).Ends
      (fun change last => change ≠ .lead ∧ first.Through Upholds last)
      (first.Through Upholds) turn := by
  have hstays : RoleChange.stay ≠ .lead := RoleChange.noConfusion
  have hconcedes : RoleChange.follow ≠ .lead := RoleChange.noConfusion
  unfold leaderEvent
  rw [ends_bind, ends_server]
  cases event with
  | timerRanOut =>
    rw [ends_bind, ends_modifyTimer]
    have hgrown : Upholds turn.server { turn.server with
        timer := turn.server.timer.restart turn.now } :=
      upholds_of_grown rfl rfl rfl List.prefix_rfl rfl (List.Subset.refl _)
    exact ⟨hstays, h.step rfl hgrown⟩
  | submitted command =>
    rw [ends_bind]
    exact (appendCommand_upholds h hcoherent).mono fun _ _ hlast => ⟨hstays, hlast⟩
  | received sender message =>
    cases message with
    | appendRequest request => exact ⟨hstays, h.post sender _⟩
    | appendResponse response =>
      dsimp only
      apply ends_ite
      · intro _
        rw [ends_bind]
        exact (takeAppendResponse_upholds response h).mono fun _ _ hlast => ⟨hstays, hlast⟩
      · intro _
        exact ⟨hstays, h⟩
    | voteRequest request =>
      rw [ends_bind]
      apply ends_answerVoteRequest
      · rintro voted _ (⟨_, rfl⟩ | ⟨_, durable, hvote, rfl⟩)
        · exact ends_ite (fun _ => ⟨hconcedes, h.post sender _⟩)
            (fun _ => ⟨hstays, h.post sender _⟩)
        · obtain ⟨_, hterm, _, hentries⟩ := hcoherent.record_ok hvote
          -- A vote that is stored leaves the entries as they are, and with them all the cursors.
          have hvoted : first.Through Upholds { turn with
              server := { turn.server with durable } } := by
            refine h.step rfl (upholds_of_grown rfl rfl hterm ?_ rfl (List.Subset.refl _))
            exact hentries ▸ List.prefix_rfl
          exact ends_ite (fun _ => ⟨hconcedes, hvoted.post sender _⟩)
            (fun _ => ⟨hstays, hvoted.post sender _⟩)
      · intro _
        exact ends_ite (fun _ => ⟨hconcedes, h.post sender _⟩) (fun _ => ⟨hstays, h.post sender _⟩)
      · intro _ _ _
        exact h
    | voteResponse response =>
      rw [ends_bind]
      apply ends_countVote
      · intro _ _ hcounts
        refine ⟨hstays, h.step rfl (upholds_of_grown rfl rfl rfl List.prefix_rfl rfl ?_)⟩
        rw [Tally.record, if_pos hcounts]
        exact List.subset_cons_self _ _
      · exact ⟨hstays, h⟩
    | timeoutNow request => exact ⟨hstays, h⟩

/-- Only a candidate can be asked to lead. -/
theorem roleEvent_upholds [LawfulStore σ] (event : Event) (h : first.Through Upholds turn)
    (hcoherent : turn.server.role.isLeader = true → turn.server.durable.Coherent) :
    (roleEvent event).Ends
      (fun change last => first.Through Upholds last ∧
        (change = .lead → turn.server.WonBy event last.server))
      (first.Through Upholds) turn := by
  have hrests : ∀ last, turn.Through Rests last → turn.server.role.isLeader = false →
      first.Through Upholds last :=
    fun last hlast hfollows => h.trans (hlast.upholds hfollows)
  unfold roleEvent
  rw [ends_bind, ends_server]
  cases hrole : turn.server.role with
  | follower leader =>
    have hfollows : turn.server.role.isLeader = false := by rw [hrole]; rfl
    apply (followerEvent_keepsTo Server.rests_tolerates event (Turn.through_refl turn)).imp
    · rintro change last ⟨hchange, hlast⟩
      exact ⟨hrests last hlast hfollows, fun hlead => absurd hlead hchange⟩
    · exact fun last hlast => hrests last hlast hfollows
  | candidate electionPending =>
    have hfollows : turn.server.role.isLeader = false := by rw [hrole]; rfl
    apply (candidateEvent_rests event (Turn.through_refl turn) hrole).imp
    · rintro change last ⟨hlast, hwon⟩
      exact ⟨hrests last hlast hfollows, hwon⟩
    · exact fun last hlast => hrests last hlast hfollows
  | leader nextHeartbeat =>
    have hleads : turn.server.role.isLeader = true := by rw [hrole]; rfl
    apply (leaderEvent_upholds event h (hcoherent hleads)).mono
    rintro change last ⟨hchange, hlast⟩
    exact ⟨hlast, fun hlead => absurd hlead hchange⟩

theorem handle_poises [LawfulStore σ] (event : Event) (h : first.Through Upholds turn)
    (hcoherent : turn.server.role.isLeader = true → turn.server.durable.Coherent) :
    (handle event).Ends (first.Poised turn event) (first.Through Upholds) turn := by
  have hrole : (roleEvent event).Ends (first.Poised turn event) (first.Through Upholds) turn := by
    apply (roleEvent_upholds event h hcoherent).mono
    rintro change last ⟨hlast, hwon⟩
    exact ⟨fun _ => hlast, ⟨last.server, rfl, hlast⟩, hwon⟩
  unfold handle
  split
  next => exact hrole
  next term _ =>
    simp only [ends_bind, ends_server]
    apply ends_ite
    · intro _
      rw [ends_bind]
      refine ends_changeDurable (fun durable _ => ?_) h
      exact ⟨fun hchange => absurd rfl hchange, ⟨turn.server, rfl, h⟩, RoleChange.noConfusion⟩
    · intro _
      exact hrole

/-! ## Changes of role -/

/-- Taking up any role but the leader's upholds the books. -/
theorem enter_upholds {start : Turn σ} {event : Event} {change : RoleChange}
    (h : first.Poised start event change turn) (hchange : change ≠ .lead) :
    (enter change).Ends
      (fun _ last => first.Through Upholds last ∧
        (change = .follow → last.server.role = .follower none))
      (first.Through Upholds) turn := by
  cases change with
  | stay => exact ⟨h.upheld RoleChange.noConfusion, RoleChange.noConfusion⟩
  | follow =>
    obtain ⟨server, hconfig, hready⟩ := h.ready
    unfold enter becomeFollower
    simp only [ends_bind, ends_setRole, ends_modifyTimer, ends_modifyProgress]
    exact ⟨hready.step rfl (upholds_of_follows hconfig rfl), fun _ => trivial⟩
  | campaign =>
    unfold enter becomeCandidate
    simp only [ends_bind, ends_setRole, ends_modifyProgress]
    exact ⟨(h.upheld RoleChange.noConfusion).step rfl (upholds_of_follows rfl rfl),
      RoleChange.noConfusion⟩
  | lead => exact absurd rfl hchange

/-- A follower is not elected by the event that made it one. -/
theorem follower_reenters [LawfulStore σ] (event : Event) (h : first.Through Upholds turn)
    (hrole : turn.server.role = .follower none) :
    (handle event).Ends
      (fun change last => (enter change).Ends (fun _ final => first.Through Upholds final)
        (first.Through Upholds) last)
      (first.Through Upholds) turn := by
  have hnone : turn.server.role.isLeader = true → turn.server.durable.Coherent := by
    simp [hrole, Role.isLeader]
  apply (handle_poises event h hnone).mono
  intro change last hpoised
  have hchange : change ≠ .lead := by
    intro hlead
    obtain ⟨electionPending, hcandidate⟩ := (hpoised.won hlead).candidate
    rw [hrole] at hcandidate
    cases hcandidate
  exact (enter_upholds hpoised hchange).mono fun _ _ hfinal => hfinal.1

/-- Who wins succeeds to the leadership. -/
theorem becomeLeader_succeeds {wins : Server σ → Prop} (h : first.Through Upholds turn)
    (hfollows : first.server.role.isLeader = false) (hwins : wins turn.server) :
    becomeLeader.Ends
      (fun _ last => first.Succession wins last ∧ last.server.role.isLeader = true)
      (first.Succession wins) turn := by
  unfold becomeLeader
  simp only [ends_bind, ends_server, ends_now, ends_setRole, ends_modifyTimer,
    ends_modifyProgress]
  exact ⟨.elected hfollows h hwins (Turn.through_refl _), rfl⟩

/-- What upholds the books can follow an election. -/
theorem ends_of_succession {α : Type} {action : Action σ α} {wins : Server σ → Prop}
    (h : first.Succession wins turn)
    (hkeeps : ∀ ⦃begun : Turn σ⦄, begun.Through Upholds turn →
      action.Ends (fun _ last => begun.Through Upholds last) (begun.Through Upholds) turn) :
    action.Ends (fun _ last => first.Succession wins last) (first.Succession wins) turn := by
  cases h with
  | upheld h => exact (hkeeps h).imp (fun _ _ hlast => .upheld hlast) fun _ hlast => .upheld hlast
  | elected hfollows hfront hwins hback =>
    exact (hkeeps hback).imp (fun _ _ hlast => .elected hfollows hfront hwins hlast)
      fun _ hlast => .elected hfollows hfront hwins hlast

theorem applyCommitted_upholds : KeepsTo Upholds (applyCommitted : Action σ Unit) := by
  have hstep : ∀ ⦃first turn last : Turn σ⦄, first.Through Upholds turn → Applies turn last →
      first.Through Upholds last := by
    rintro first turn last h ⟨happlied, hpostings⟩
    have hlog : last.server.log = turn.server.log := congrArg Durable.log happlied.durable_eq
    refine h.step hpostings (upholds_of_grown happlied.config_eq ?_
      (congrArg Durable.term happlied.durable_eq) (hlog ▸ List.prefix_rfl) happlied.cursors_eq ?_)
    · rw [happlied.role_eq]
    · rw [happlied.same]
      exact List.Subset.refl _
  intro first turn h
  exact applyCommitted_applies.imp (fun _ _ hlast => hstep h hlast) fun _ hlast => hstep h hlast.1

/-- Who is not to lead keeps the books in order, also when it looks at the event again. -/
theorem reenter_upholds [LawfulStore σ] {start : Turn σ} {event : Event} {change : RoleChange}
    (h : first.Poised start event change turn) (hchange : change ≠ .lead) :
    (do enter change
        if change = .follow then enter (← handle event)
        applyCommitted : Action σ Unit).Ends
      (fun _ last => first.Through Upholds last) (first.Through Upholds) turn := by
  rw [ends_bind]
  apply (enter_upholds h hchange).mono
  rintro _ entered ⟨hentered, hfollower⟩
  apply ends_ite
  · intro hfollow
    rw [ends_bind]
    apply (follower_reenters event hentered (hfollower hfollow)).mono
    intro again last hlast
    rw [ends_bind]
    exact hlast.mono fun _ _ hfinal => applyCommitted_upholds hfinal
  · intro _
    exact applyCommitted_upholds hentered

/-! ## Calls -/

/-- Through an event the books are upheld up to a succession, which it must have won. -/
theorem dispatch_succeeds [LawfulStore σ] (event : Event)
    (hcoherent : turn.server.role.isLeader = true → turn.server.durable.Coherent) :
    (dispatch event).Ends (fun _ last => turn.Succession (turn.server.WonBy event) last)
      (turn.Succession (turn.server.WonBy event)) turn := by
  unfold dispatch
  rw [ends_bind]
  apply (handle_poises event (Turn.through_refl turn) hcoherent).imp
  · intro change middle hpoised
    by_cases hlead : change = .lead
    · have hwon := hpoised.won hlead
      obtain ⟨electionPending, hrole⟩ := hwon.candidate
      subst hlead
      have hfollows : turn.server.role.isLeader = false := by rw [hrole]; rfl
      rw [ends_bind]
      apply (becomeLeader_succeeds (hpoised.upheld RoleChange.noConfusion) hfollows hwon).mono
      rintro _ last ⟨hlast, _⟩
      exact ends_of_succession hlast fun _ h => applyCommitted_upholds h
    · exact (reenter_upholds hpoised hlead).imp (fun _ _ hlast => .upheld hlast)
        fun _ hlast => .upheld hlast
  · exact fun _ hlast => .upheld hlast

/-- Through a campaign the books are upheld up to a succession, which opens with it. -/
theorem campaign_succeeds (electionPending : Bool)
    (hfollows : turn.server.role.isLeader = false) :
    (campaign electionPending).Ends (fun _ last => turn.Succession Server.Opens last)
      (turn.Succession Server.Opens) turn := by
  unfold campaign
  apply ends_ite
  · intro _
    rw [ends_bind, ends_setRole, ends_bind]
    have hopening : turn.Through Rests { turn with
        server := { turn.server with role := .candidate false } } :=
      (Turn.through_refl turn).step rfl ⟨rfl, fun hleads => Bool.noConfusion hleads⟩
    apply (startElection_rests hopening).imp
    · rintro _ opened ⟨hopened, hopens⟩
      have hupheld := hopened.upholds hfollows
      rw [ends_bind, ends_server]
      apply ends_ite
      · intro _
        rw [ends_bind]
        apply (becomeLeader_succeeds hupheld hfollows hopens).mono
        rintro _ elected ⟨helected, hleads⟩
        rw [ends_bind, ends_now]
        exact ends_of_succession helected fun _ h => sendHeartbeats_upholds _ h hleads
      · intro _
        exact .upheld hupheld
    · exact fun _ hlast => .upheld (hlast.upholds hfollows)
  · intro _
    exact .upheld (Turn.through_refl turn)

theorem duties_succeeds :
    (duties : Action σ Unit).Ends (fun _ last => turn.Succession Server.Opens last)
      (turn.Succession Server.Opens) turn := by
  have hstart : turn.Through Upholds turn := Turn.through_refl turn
  unfold duties
  rw [ends_bind, ends_server]
  cases hrole : turn.server.role with
  | follower leader => exact .upheld hstart
  | candidate electionPending => exact campaign_succeeds electionPending (by rw [hrole]; rfl)
  | leader nextHeartbeat =>
    exact (sendHeartbeats_upholds nextHeartbeat hstart (by rw [hrole]; rfl)).imp
      (fun _ _ hlast => .upheld hlast) fun _ hlast => .upheld hlast

/-- Duties uphold the books up to an election that they open and win. -/
theorem perform_succeeds :
    (perform : Action σ Unit).Ends (fun _ last => turn.Succession Server.Opens last)
      (turn.Succession Server.Opens) turn := by
  unfold perform
  rw [ends_bind]
  apply duties_succeeds.mono
  intro _ last hlast
  exact ends_of_succession hlast fun _ h => applyCommitted_upholds h

end Action

/-! ## Calls -/

/-- The server wins an election by a call: the call brings a candidate the vote that was missing,
or has it open an election that it wins alone. -/
inductive Server.WinsBy (server : Server σ) (call : Call) (won : Server σ) : Prop where
  | vote {sender : ServerId} (hcandidate : ∃ electionPending,
        server.role = .candidate electionPending)
      (hpeer : server.config.isPeer sender = true)
      (hbrings : call.intake.received sender (.voteResponse ⟨server.term, true⟩))
      (hcounts : server.progress.tally.Counts server.term sender)
      (hwon : won = { server with progress := { server.progress with
        tally := server.progress.tally.record server.term sender } })
  | alone (hopens : won.Opens)

/-- What a call leaves behind is the end of a turn that upholds the books, but for an election
that the server may win in it. -/
def Outcome.Succeeds {α : Type} (outcome : Outcome σ α) (server : Server σ) (call : Call) :
    Prop :=
  ∃ now last, Turn.Succession (server.WinsBy call) ⟨server, now, []⟩ last ∧
    outcome.server = last.server ∧ outcome.postings = last.postings

theorem Turn.Succession.imp {wins wider : Server σ → Prop} {first last : Turn σ}
    (h : first.Succession wins last) (himp : ∀ won, wins won → wider won) :
    first.Succession wider last := by
  cases h with
  | upheld h => exact .upheld h
  | elected hfollows hfront hwins hback => exact .elected hfollows hfront (himp _ hwins) hback

namespace Server

variable {server : Server σ} {call : Call}

variable [LawfulStore σ]

/-- Whatever the call, the server succeeds itself as a leader or is elected. -/
theorem call_succeeds (hcoherent : server.Coherent) (now : Duration) (call : Call) :
    (server.call now call).Succeeds server call := by
  have hstart : Turn.Through Upholds ⟨server, now, []⟩ ⟨server, now, []⟩ := Turn.through_refl _
  have hends : (server.call now call).EndsIn
      (Turn.Succession (server.WinsBy call) ⟨server, now, []⟩) := by
    apply call_endsIn
    · exact .upheld hstart
    · intro event hbrought
      have hwins : ∀ won, server.WonBy event won → server.WinsBy call won := by
        rintro won ⟨hcandidate, ⟨voter, hevent, hcounts, hwon⟩, _⟩
        obtain ⟨hpeer, hreceived⟩ := hbrought voter _ hevent
        exact .vote hcandidate hpeer hreceived hcounts hwon
      exact (Action.dispatch_succeeds event fun _ => hcoherent.durable).imp
        (fun _ _ hlast => hlast.imp hwins) fun _ hlast => hlast.imp hwins
    · intro _
      exact Action.perform_succeeds.imp
        (fun _ _ hlast => hlast.imp fun _ hopens => .alone hopens)
        fun _ hlast => hlast.imp fun _ hopens => .alone hopens
    · exact fun target message _ => .upheld (hstart.post target message)
  obtain ⟨last, hlast, hserver, hpostings⟩ := hends
  exact ⟨now, last, hlast, hserver, hpostings⟩

end Server

/-! ## Moments -/

/-- Books that are in order stay so, and a server that leads at two moments of one call has led
on from one to the other. -/
def Server.Accounts (earlier later : Server σ) : Prop :=
  earlier.InOrder → later.InOrder ∧
    (earlier.role.isLeader = true → later.role.isLeader = true → earlier.LedOn later)

/-- Who upholds the books accounts for them. -/
theorem Server.Upholds.accounts {earlier later : Server σ} (h : earlier.Upholds later) :
    earlier.Accounts later := by
  intro horder
  obtain ⟨hlater, hled⟩ := h horder
  exact ⟨hlater, fun _ hleads => hled hleads⟩

namespace Outcome

variable {α : Type} {outcome : Outcome σ α} {server : Server σ} {call : Call}

theorem Succeeds.through {related : Server σ → Server σ → Prop} (h : outcome.Succeeds server call)
    (hthrough : ∀ now last, Turn.Succession (server.WinsBy call) ⟨server, now, []⟩ last →
      Turn.Through related ⟨server, now, []⟩ last) :
    (server :: outcome.moments).Pairwise related := by
  obtain ⟨now, last, hsuccession, hserver, hpostings⟩ := h
  obtain ⟨posted, hposted, hpairwise⟩ := hthrough now last hsuccession
  rw [moments, hserver, hpostings, hposted]
  exact hpairwise

/-- The books are accounted for from each moment of a call to each later one. -/
theorem Succeeds.accounts (h : outcome.Succeeds server call) (horder : server.InOrder) :
    (server :: outcome.moments).Pairwise Server.Accounts := by
  apply h.through
  intro now last hsuccession
  have hupholds : ∀ first earlier later : Server σ, first.Upholds earlier →
      earlier.Upholds later → earlier.Accounts later :=
    fun _ _ _ _ hupholds => hupholds.accounts
  cases hsuccession with
  | upheld h => exact h.imp (hupholds _)
  | elected hfollows hfront hwins hback =>
    refine hfront.join hback (hupholds _) (hupholds _) ?_
    intro earlier later hbegun hmiddle hlater hinOrder
    refine ⟨(hlater ((hmiddle hinOrder).1.elected _)).1, fun hleads => ?_⟩
    -- Nobody led in front of the election.
    have hled := ((hbegun horder).2 hleads).leads
    rw [hfollows] at hled
    exact absurd hled (by decide)

/-- A leader among the moments of a call has led on since the call, or has won an election by it
and led on since. -/
theorem Succeeds.leader_cases (h : outcome.Succeeds server call) (horder : server.InOrder)
    {moment : Server σ} (hmoment : moment ∈ outcome.moments)
    (hleads : moment.role.isLeader = true) :
    server.LedOn moment ∨
      ∃ won now, server.WinsBy call won ∧ (won.elected now).LedOn moment := by
  have hpairwise : (server :: outcome.moments).Pairwise fun earlier later =>
      later.role.isLeader = true → earlier.LedOn later ∨
        ∃ won now, server.WinsBy call won ∧ (won.elected now).LedOn later := by
    apply h.through
    intro now last hsuccession
    cases hsuccession with
    | upheld h =>
      exact h.imp fun _ _ hbegun hupholds hleads => .inl ((hupholds (hbegun horder).1).2 hleads)
    | elected hfollows hfront hwins hback =>
      have helected := (hfront.ends horder).1.elected
      refine hfront.join hback ?_ ?_ ?_
      · exact fun _ _ hbegun hupholds hleads => .inl ((hupholds (hbegun horder).1).2 hleads)
      · exact fun _ _ hresumed hupholds hleads =>
          .inl ((hupholds (hresumed (helected _)).1).2 hleads)
      · exact fun _ _ _ _ hlater hleads => .inr ⟨_, _, hwins, (hlater (helected _)).2 hleads⟩
  exact (List.pairwise_cons.mp hpairwise).1 moment hmoment hleads

end Outcome

end Consensus
