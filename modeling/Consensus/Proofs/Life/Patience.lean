import Consensus.Proofs.Life.Applying
import Consensus.Proofs.Turn.Timing

/-! # Patience

A follower that has heard from the leader of its term, has granted its vote or has just become one
leaves the leader alone for the shortest election timeout, and calls an election after the longest
one if it is not stirred again. Only a leader that hands over can make it call one earlier.
-/

namespace Consensus

variable {σ : Type} [Store σ]

/-- What can happen to a server whose writes succeed. -/
inductive Happening (σ : Type) where
  | call (call : Call)
  /-- The server starts again, from this store. -/
  | restart (store : σ) (draws : Draws)

/-- A call has the server handle one event at most. -/
theorem Call.Raises.unique {config : Config} {call : Call} {event other : Event}
    (h : call.Raises config event) (hother : call.Raises config other) : other = event := by
  cases h with
  | received _ hdecode =>
    cases hother with
    | received _ hother => rw [Except.ok.inj (hother.symm.trans hdecode)]
    | submitted hcommand => cases hcommand
  | submitted hcommand =>
    cases hother with
    | received => cases hcommand
    | submitted hother => rw [Option.some.inj (hother.symm.trans hcommand)]
    | timerRanOut => cases hcommand
  | timerRanOut =>
    cases hother with
    | submitted hcommand => cases hcommand
    | timerRanOut => rfl

namespace Server

variable {server later : Server σ} {now : Duration} {happening : Happening σ}

/-- What a happening at a clock reading makes of the server. -/
inductive Meets [LawfulStore σ] (server : Server σ) (now : Duration) :
    Happening σ → Server σ → Prop
  | call (call : Call) : Meets server now (.call call) (server.call now call).server
  | restart {store : σ} {draws : Draws} {restarted : Server σ}
      (hvalid : LawfulStore.Valid store) (hreliable : Store.Reliable store)
      (hentries : Store.entries store = server.log.entries)
      (hstart : start server.config store draws now = .ok restarted) :
      Meets server now (.restart store draws) restarted

/-- What happens makes a follower count anew: it hears from the leader of its term, or grants its
vote, or the server becomes a follower, of this term or of a newer one, or starts again. -/
inductive Stirs (server later : Server σ) : Happening σ → Prop
  | reassured {call : Call} {event : Event} (hfollows : server.role.isFollower = true)
      (hraises : call.Raises server.config event) (hreassured : server.Reassured event) :
      Stirs server later (.call call)
  | becomes {call : Call} (hother : server.role.isFollower = false)
      (hfollows : later.role.isFollower = true) : Stirs server later (.call call)
  | moves {call : Call} (hnewer : server.term < later.term)
      (hfollows : later.role.isFollower = true) : Stirs server later (.call call)
  | restarted {store : σ} {draws : Draws} : Stirs server later (.restart store draws)

/-- A peer tells the server to call an election in its term or a newer one. -/
inductive Summons (server : Server σ) : Happening σ → Prop
  | call {call : Call} {event : Event} (hraises : call.Raises server.config event)
      (hsummoned : server.Summoned event) : Summons server (.call call)

/-- The timer has the bounds of the configuration, and a timeout within them unless the server is
a candidate. -/
def Regular (server : Server σ) : Prop := ∀ now, (server.pace now).Regular

omit [Store σ] in
/-- A server is regular if its pace is. -/
theorem regular_of_pace (h : (server.pace now).Regular) : server.Regular :=
  fun _ => ⟨h.lower_eq, h.upper_eq, h.ordered, h.inBounds⟩

/-- What happens at a clock reading does to the timer. -/
structure Counts (server : Server σ) (now : Duration) (happening : Happening σ)
    (later : Server σ) : Prop where
  regular : server.Regular → later.Regular
  stirred : later.role.isFollower = true →
    (server.Stirs later happening ∧ later.timer.start = now) ∨
      (¬ server.Stirs later happening ∧ server.role.isFollower = true ∧
        later.timer = server.timer)
  follows : server.role.isFollower = true → ¬ server.Summons happening →
    (happening = .call .pollTimer → server.timer.hasRunOut now = false) →
    later.role.isFollower = true

/-! ## Calls -/

/-- A call does nothing, or has the server handle an event, or do its duties. -/
inductive Takes (server : Server σ) (now : Duration) : Call → Prop
  | idle {call : Call} (hsame : (server.call now call).server = server)
      (hraises : ∀ event, call.Raises server.config event → event = .timerRanOut) :
      Takes server now call
  | event {call : Call} {event : Event} (hraises : call.Raises server.config event)
      (hdue : event = .timerRanOut → server.timer.hasRunOut now = true)
      (hends : (server.call now call).Ends
        (fun last => Turn.Settles ⟨server, now, []⟩ event last.pace)
        (fun last => Turn.Falters ⟨server, now, []⟩ event last.pace)) :
      Takes server now call
  | duties (hends : (server.call now .perform).EndsIn
      (fun last => (server.pace now).Works last.pace)) : Takes server now .perform

theorem submit_takes {call : Call} {command : Command} (hcommand : call.command? = some command) :
    server.Takes now call := by
  refine .event (.submitted hcommand) (by rintro ⟨⟩) ?_
  rw [call_of_command? now hcommand]
  apply turn_ends
  rw [Action.ends_bind]
  exact Action.dispatch_settles

/-- Every call does nothing, handles an event or does duties. -/
theorem call_takes (server : Server σ) (now : Duration) (call : Call) :
    server.Takes now call := by
  cases call with
  | receive sender frame =>
    by_cases hpeer : server.config.isPeer sender = true
    · cases hdecode : Message.decode frame with
      | error cause =>
        refine .idle ?_ ?_
        · change (server.receive now sender frame).server = server
          rw [receive, if_pos hpeer, hdecode]
          rfl
        · rintro event (⟨_, hother⟩ | hcommand | _)
          · rw [hdecode] at hother
            cases hother
          · cases hcommand
      | ok message =>
        refine .event (.received hpeer hdecode) (by rintro ⟨⟩) ?_
        refine Outcome.Ends.map ?_ _
        rw [receive, if_pos hpeer, hdecode]
        exact turn_ends Action.dispatch_settles
    · refine .idle ?_ ?_
      · change (server.receive now sender frame).server = server
        rw [receive, if_neg hpeer]
        rfl
      · rintro event (⟨hother, _⟩ | hcommand | _)
        · exact absurd hother hpeer
        · cases hcommand
  | submit command => exact submit_takes rfl
  | receiveCommand frame =>
    cases hdecode : Command.decode frame with
    | error cause =>
      refine .idle ?_ ?_
      · change (server.receiveCommand now frame).server = server
        rw [receiveCommand, hdecode]
        rfl
      · rintro event (_ | hcommand | _)
        have hother := Call.command?_receiveCommand.mp hcommand
        rw [hdecode] at hother
        cases hother
    | ok command => exact submit_takes (Call.command?_receiveCommand.mpr hdecode)
  | pollTimer =>
    by_cases hdue : server.timer.hasRunOut now = true
    · refine .event .timerRanOut (fun _ => hdue) ?_
      change (server.pollTimer now).Ends _ _
      rw [pollTimer, if_pos hdue]
      apply turn_ends
      rw [Action.ends_bind]
      exact Action.dispatch_settles
    · refine .idle ?_ ?_
      · change (server.pollTimer now).server = server
        rw [pollTimer, if_neg hdue]
        rfl
      · rintro event (_ | hcommand | _)
        · cases hcommand
        · rfl
  | perform =>
    refine .duties (Outcome.Ends.endsIn (Outcome.Ends.map ?_ _))
    exact turn_ends Action.perform_works
  | transfer target =>
    refine .idle ?_ ?_
    · change (server.transfer target).server = server
      unfold transfer
      split <;> rfl
    · rintro event (_ | hcommand | _)
      cases hcommand

/-- A call that leaves role, term and timer alone lets the timer count on. -/
theorem counts_of_same {call : Call}
    (hraises : ∀ event, call.Raises server.config event → event = .timerRanOut)
    (hrole : later.role = server.role) (hterm : later.term = server.term)
    (htimer : later.timer = server.timer) (hregular : server.Regular → later.Regular) :
    server.Counts now (.call call) later := by
  refine ⟨hregular, fun hfollows => .inr ⟨?_, hrole ▸ hfollows, htimer⟩,
    fun hfollows _ _ => hrole.symm ▸ hfollows⟩
  intro hstirs
  cases hstirs with
  | reassured _ hraised hreassured =>
    obtain rfl := hraises _ hraised
    cases hreassured
  | becomes hother => exact Bool.noConfusion (hother.symm.trans (hrole ▸ hfollows))
  | moves hnewer => exact absurd hterm (Int.ne_of_gt hnewer)

/-- A server that has settled over an event has counted as the call should. -/
theorem counts_of_settles {call : Call} {event : Event} {last : Turn σ}
    (hraises : call.Raises server.config event)
    (hdue : event = .timerRanOut → server.timer.hasRunOut now = true)
    (hsettles : Turn.Settles ⟨server, now, []⟩ event last.pace) :
    server.Counts now (.call call) last.server := by
  refine ⟨fun hregular => ?_, fun hlast => ?_, fun hfollows hunsummoned hearly => ?_⟩
  · exact regular_of_pace (hsettles.regular (hregular now))
  · rcases hsettles.counts hlast with ⟨hreason, hstart⟩ | ⟨hfollows, hcalm, hterm, htimer⟩
    · refine .inl ⟨?_, hstart⟩
      rcases hreason with ⟨hfollows, hreassured⟩ | hother | hnewer
      · exact .reassured hfollows hraises hreassured
      · exact .becomes (Bool.eq_false_iff.mpr hother) hlast
      · exact .moves hnewer hlast
    · refine .inr ⟨fun hstirs => ?_, hfollows, htimer⟩
      cases hstirs with
      | reassured _ hraised hreassured =>
        rw [hraises.unique hraised] at hreassured
        exact hcalm hreassured
      | becomes hother => exact Bool.noConfusion (hother.symm.trans hfollows)
      | moves hnewer => exact absurd hterm (Int.ne_of_gt hnewer)
  · refine hsettles.follows hfollows ?_ fun hsummoned => hunsummoned (.call hraises hsummoned)
    rintro rfl
    cases hraises with
    | timerRanOut => exact Bool.noConfusion ((hearly rfl).symm.trans (hdue rfl))

variable [LawfulStore σ]

/-- What a call of a sound server does to its timer is accounted for. -/
theorem Sound.call_counts (h : server.Sound) (now : Duration) (call : Call) :
    server.Counts now (.call call) (server.call now call).server := by
  cases server.call_takes now call with
  | idle hsame hraises =>
    rw [hsame]
    exact counts_of_same hraises rfl rfl rfl fun hregular => hregular
  | @event _ event hraises hdue hends =>
    unfold Outcome.Ends at hends
    split at hends
    next =>
      obtain ⟨last, hsettles, hserver, _⟩ := hends
      exact hserver ▸ counts_of_settles hraises hdue hsettles
    next failure hfailed =>
      obtain ⟨last, hfalters, hserver, _⟩ := hends
      refine hserver ▸ counts_of_settles hraises hdue (hfalters.settles ?_)
      -- A sound server fails over no message.
      rintro sender message rfl
      cases hraises with
      | received =>
        cases (h.call now _).2 failure hfailed with
        | overlong _ hcommand => cases hcommand
  | duties hends =>
    obtain ⟨last, hworks, hserver, _⟩ := hends
    rw [hserver]
    have hregular : server.Regular → last.server.Regular := fun hregular =>
      regular_of_pace (hworks.regular (hregular now))
    by_cases heither : (server.pace now).Follows ∨ last.pace.Follows
    · have hsame := hworks.same heither
      refine counts_of_same ?_ (congrArg Pace.role hsame) (congrArg Pace.term hsame)
        (congrArg Pace.timer hsame) hregular
      rintro event (_ | hcommand | _)
      cases hcommand
    · obtain ⟨hother, hlast⟩ := not_or.mp heither
      exact ⟨hregular, fun hfollows => absurd hfollows hlast,
        fun hfollows => absurd hfollows hother⟩

/-! ## Starts -/

omit [LawfulStore σ] in
/-- A server starts as a follower that counts from now. -/
theorem regular_of_start {config : Config} {store : σ} {draws : Draws}
    (hstart : start config store draws now = .ok server) :
    server.config = config ∧ server.role.isFollower = true ∧ server.timer.start = now ∧
      server.Regular := by
  obtain ⟨_, _, hstart⟩ := bind_eq_ok.mp hstart
  obtain ⟨durable, _, hstart⟩ := bind_eq_ok.mp hstart
  obtain ⟨timer, htimer, hstart⟩ := bind_eq_ok.mp hstart
  obtain rfl := Except.ok.inj hstart
  have hcreated := mapError_eq_ok.mp htimer
  unfold Countdown.create at hcreated
  split at hcreated
  next => cases hcreated
  next hordered =>
    split at hcreated
    next => cases hcreated
    next =>
      obtain rfl := Except.ok.inj hcreated
      have hbounds : config.electionMin ≤ config.electionMax := Nat.le_of_not_lt hordered
      exact ⟨rfl, rfl, rfl, fun _ =>
        ⟨rfl, rfl, hbounds, fun _ => Countdown.restart_inBounds hbounds now⟩⟩

/-- An untroubled server is regular. -/
theorem Untroubled.regular (h : server.Untroubled) : server.Regular := by
  induction h with
  | start _ _ _ hstart => exact (regular_of_start hstart).2.2.2
  | call h now call ih => exact (h.sound.call_counts now call).regular ih
  | restart _ _ _ _ hstart => exact (regular_of_start hstart).2.2.2

/-! ## Lives by the clock -/

/-- From one server and clock reading to later ones, by what is permitted to happen. -/
inductive Lives (permits : Server σ → Duration → Happening σ → Server σ → Prop)
    (server : Server σ) (since : Duration) : Server σ → Duration → Prop
  | begins : Lives permits server since server since
  | goesOn {present later : Server σ} {reading now : Duration} {happening : Happening σ}
      (h : Lives permits server since present reading) (hclock : reading ≤ now)
      (hmeets : present.Meets now happening later)
      (hpermits : permits present now happening later) : Lives permits server since later now

/-- A server that goes on as it has begun: its timer is regular, and it does not fail. -/
structure Steady (server : Server σ) : Prop where
  sound : server.Sound
  regular : server.Regular

/-- Whatever a steady server meets is accounted for, and it stays steady. -/
theorem Meets.counts (h : server.Meets now happening later) (hsteady : server.Steady) :
    later.Steady ∧ later.config = server.config ∧ server.Counts now happening later := by
  cases h with
  | call call =>
    have hcounts := hsteady.sound.call_counts now call
    exact ⟨⟨(hsteady.sound.call now call).1, hcounts.regular hsteady.regular⟩,
      (call_moves hsteady.sound.coherent now call).config_eq, hcounts⟩
  | restart hvalid hreliable hentries hstart =>
    obtain ⟨hconfig, hfollows, hcount, hregular⟩ := regular_of_start hstart
    exact ⟨⟨sound_of_start hvalid hreliable (hentries ▸ hsteady.sound.ready.decodes) hstart,
      hregular⟩, hconfig, fun _ => hregular, fun _ => .inl ⟨.restarted, hcount⟩,
      fun _ _ _ => hfollows⟩

/-- What stirs a server leaves a follower that counts from then on. -/
theorem Meets.follows_of_stirs (h : server.Meets now happening later) (hsteady : server.Steady)
    (hstirs : server.Stirs later happening) :
    later.role.isFollower = true ∧ later.timer.start = now := by
  obtain ⟨_, _, hcounts⟩ := h.counts hsteady
  have hfollows : later.role.isFollower = true := by
    cases hstirs with
    | @reassured call event hfollows hraises hreassured =>
      refine hcounts.follows hfollows ?_ ?_
      · rintro ⟨hraised, hsummoned⟩
        rw [hraises.unique hraised] at hsummoned
        cases hreassured <;> cases hsummoned
      · rintro ⟨⟩
        cases hraises with
        | submitted hcommand => cases hcommand
        | timerRanOut => cases hreassured
    | becomes _ hfollows => exact hfollows
    | moves _ hfollows => exact hfollows
    | restarted =>
      cases h with
      | restart _ _ _ hstart => exact (regular_of_start hstart).2.1
  refine ⟨hfollows, ?_⟩
  rcases hcounts.stirred hfollows with ⟨_, hstart⟩ | ⟨hcalm, _⟩
  · exact hstart
  · exact absurd hstirs hcalm

/-! ## Polling -/

omit [Store σ] [LawfulStore σ] in
/-- The timeout of a regular server is within its bounds. -/
theorem Regular.timeout (h : server.Regular)
    (hcounts : server.role.isFollower = true ∨ server.role.isLeader = true) :
    server.config.electionMin ≤ server.timer.timeout ∧
      server.timer.timeout ≤ server.config.electionMax := by
  have hpace := h .zero
  rw [← show server.timer.lower = server.config.electionMin from hpace.lower_eq,
    ← show server.timer.upper = server.config.electionMax from hpace.upper_eq]
  refine hpace.inBounds fun pending hcandidate => ?_
  have hrole : server.role = .candidate pending := hcandidate
  rw [hrole] at hcounts
  rcases hcounts with hfollows | hleads
  · cases hfollows
  · cases hleads

omit [Store σ] [LawfulStore σ] in
/-- A follower does not run out of patience before its shortest timeout has passed. -/
theorem Regular.not_hasRunOut (h : server.Regular) (hfollows : server.role.isFollower = true)
    {since clock : Duration} (hstart : since ≤ server.timer.start) (hsince : since ≤ clock)
    (hearly : clock < since + server.config.electionMin) :
    server.timer.hasRunOut clock = false := by
  have hlow := (h.timeout (.inl hfollows)).1
  refine decide_eq_false fun hdue => ?_
  simp only [Duration.le_iff, Duration.lt_iff, Duration.nanoseconds_add,
    Duration.nanoseconds_since] at *
  lia

omit [Store σ] [LawfulStore σ] in
/-- The timer of a regular follower has run out once the longest timeout is over. -/
theorem Regular.hasRunOut (h : server.Regular) (hfollows : server.role.isFollower = true)
    {clock : Duration} (hlate : server.timer.start + server.config.electionMax ≤ clock) :
    server.timer.hasRunOut clock = true := by
  have hhigh := (h.timeout (.inl hfollows)).2
  refine decide_eq_true ?_
  simp only [Duration.le_iff, Duration.nanoseconds_add, Duration.nanoseconds_since] at *
  lia

/-- A sound server whose timer has run out says so. -/
theorem Sound.pollTimer_eq_true (h : server.Sound) (hdue : server.timer.hasRunOut now = true) :
    (server.pollTimer now).answer = .ok true := by
  have hends : (do Action.dispatch .timerRanOut; return true : Action σ Bool).Ends
      (fun answer _ => answer = true) (fun _ => True) ⟨server, now, []⟩ := by
    rw [Action.ends_bind]
    exact Action.dispatch_settles.imp (fun _ _ _ => rfl) fun _ _ => trivial
  have hpoll : (server.call now .pollTimer).answer = (server.pollTimer now).answer := rfl
  have hturn : (server.pollTimer now).answer = (server.turn now do
      Action.dispatch .timerRanOut
      return true).answer := by
    rw [pollTimer, if_pos hdue]
  rcases hends.turn_cases with ⟨answer, last, hdone, rfl⟩ | ⟨failure, last, hfailed, _⟩
  · rw [hturn, hdone]
  · rw [hfailed] at hturn
    cases (h.call now .pollTimer).2 failure (hpoll.trans hturn) with
    | overlong _ hcommand => cases hcommand

/-! ## Discipline -/

/-- A follower that is not told to call an election goes on as a follower until its shortest
timeout has passed. -/
theorem Lives.waits {since reading : Duration} (hsteady : server.Steady)
    (hfollows : server.role.isFollower = true) (hstart : since ≤ server.timer.start)
    (h : server.Lives (fun present _ happening _ => ¬ present.Summons happening) since later
      reading) (hearly : reading < since + server.config.electionMin) :
    (later.Steady ∧ later.config = server.config ∧ since ≤ reading) ∧
      later.role.isFollower = true ∧ since ≤ later.timer.start := by
  induction h with
  | begins => exact ⟨⟨hsteady, rfl, Nat.le_refl _⟩, hfollows, hstart⟩
  | @goesOn present later reading now happening _ hclock hmeets hunsummoned ih =>
    obtain ⟨⟨hpresent, hconfig, hsince⟩, hfollowing, hcounting⟩ :=
      ih (Nat.lt_of_le_of_lt hclock hearly)
    have hnow : since ≤ now := Nat.le_trans hsince hclock
    obtain ⟨hlater, hsame, hcounts⟩ := hmeets.counts hpresent
    have hcalm : present.timer.hasRunOut now = false :=
      hpresent.regular.not_hasRunOut hfollowing hcounting hnow (hconfig ▸ hearly)
    have hleft := hcounts.follows hfollowing hunsummoned fun _ => hcalm
    refine ⟨⟨hlater, hsame.trans hconfig, hnow⟩, hleft, ?_⟩
    rcases hcounts.stirred hleft with ⟨_, hfresh⟩ | ⟨_, _, htimer⟩
    · rw [hfresh]
      exact hnow
    · rw [htimer]
      exact hcounting

/-- A follower that nothing stirs any more counts from where it was stirred last. -/
theorem Lives.counts {since reading : Duration} (hsteady : server.Steady)
    (hstart : server.timer.start = since)
    (h : server.Lives (fun present now happening next =>
      since < now → ¬ present.Stirs next happening) since later reading) :
    (later.Steady ∧ later.config = server.config ∧ since ≤ reading) ∧
      (later.role.isFollower = true → later.timer.start = since) := by
  induction h with
  | begins => exact ⟨⟨hsteady, rfl, Nat.le_refl _⟩, fun _ => hstart⟩
  | @goesOn present later reading now happening _ hclock hmeets hcalm ih =>
    obtain ⟨⟨hpresent, hconfig, hsince⟩, hcounting⟩ := ih
    have hnow : since ≤ now := Nat.le_trans hsince hclock
    obtain ⟨hlater, hsame, hcounts⟩ := hmeets.counts hpresent
    refine ⟨⟨hlater, hsame.trans hconfig, hnow⟩, fun hfollows => ?_⟩
    rcases hcounts.stirred hfollows with ⟨hstirs, hfresh⟩ | ⟨_, hfollowed, htimer⟩
    · -- It was stirred at the same clock reading.
      have hsame_clock : ¬ since < now := fun hlate => hcalm hlate hstirs
      rw [hfresh]
      exact congrArg Duration.mk (Nat.le_antisymm (Nat.le_of_not_lt hsame_clock) hnow)
    · rw [htimer]
      exact hcounting hfollowed

/-- The timeout of a follower and of a leader is within the bounds of the configuration. A follower
that was stirred does not call an election before the shortest timeout has passed, unless it is
told to, and it does when the longest one has, unless it is stirred again. -/
theorem election_timer_discipline (h : server.Untroubled) :
    (server.role.isFollower = true ∨ server.role.isLeader = true →
      server.config.electionMin ≤ server.timer.timeout ∧
        server.timer.timeout ≤ server.config.electionMax) ∧
    ∀ (since : Duration) (happening : Happening σ) (stirred : Server σ),
      server.Meets since happening stirred → server.Stirs stirred happening →
      (∀ (later : Server σ) (reading : Duration),
        stirred.Lives (fun present _ happening _ => ¬ present.Summons happening)
          since later reading →
        ∀ clock, reading ≤ clock → clock < since + server.config.electionMin →
          (later.pollTimer clock).answer = .ok false) ∧
      ∀ (later : Server σ) (reading : Duration),
        stirred.Lives (fun present now happening next =>
          since < now → ¬ present.Stirs next happening) since later reading →
        later.role.isFollower = true →
        ∀ clock, since + server.config.electionMax ≤ clock →
          (later.pollTimer clock).answer = .ok true := by
  have hsteady : server.Steady := ⟨h.sound, h.regular⟩
  refine ⟨h.regular.timeout, fun since happening stirred hmeets hstirs => ⟨?_, ?_⟩⟩
  -- Unsummoned, the timer was started no earlier than the stir.
  · intro later reading hlives clock hclock hearly
    obtain ⟨hfollows, hstart⟩ := hmeets.follows_of_stirs hsteady hstirs
    obtain ⟨hbegun, hconfig, _⟩ := hmeets.counts hsteady
    rw [← hconfig] at hearly
    obtain ⟨⟨hlater, hsame, hsince⟩, hfollowing, hcounting⟩ :=
      hlives.waits hbegun hfollows (Nat.le_of_eq (congrArg _ hstart.symm))
        (Nat.lt_of_le_of_lt hclock hearly)
    rw [← hsame] at hearly
    have hcalm := hlater.regular.not_hasRunOut hfollowing hcounting
      (Nat.le_trans hsince hclock) hearly
    rw [pollTimer, hcalm]
    rfl
  -- Not stirred again, a follower still counts from the stir.
  · intro later reading hlives hfollowing clock hlate
    obtain ⟨_, hstart⟩ := hmeets.follows_of_stirs hsteady hstirs
    obtain ⟨hbegun, hconfig, _⟩ := hmeets.counts hsteady
    obtain ⟨⟨hlater, hsame, _⟩, hcounting⟩ := hlives.counts hbegun hstart
    refine hlater.sound.pollTimer_eq_true (hlater.regular.hasRunOut hfollowing ?_)
    rw [hcounting hfollowing, hsame, hconfig]
    exact hlate

end Server

/-! ## Hearing from a leader -/

namespace Trio

/-- Server 2 leads the first term, and lets the others know. -/
def greeting : Message := .appendRequest ⟨0, 2, .null, nullIndex, none⟩

/-- A second after the start the follower hears of it. -/
def assured : Server MemoryStore :=
  (server.call (.ofSeconds 1 0) (.receive 2 greeting.encode)).server

end Trio

namespace Server

theorem election_timer_discipline_greeting :
    Trio.server.Untroubled ∧
      Trio.server.role.isFollower = true ∧
      Trio.config.electionMin ≤ Trio.server.timer.timeout ∧
      Trio.assured.Lives (fun present _ happening _ => ¬ present.Summons happening)
        (.ofSeconds 1 0) (Trio.assured.call (.ofSeconds 1 1) .perform).server (.ofSeconds 1 1) ∧
      ((Trio.assured.call (.ofSeconds 1 1) .perform).server.pollTimer (.ofSeconds 1 2)).answer =
        .ok false ∧
      Trio.assured.role.isFollower = true ∧
      (Trio.assured.pollTimer (.ofSeconds 2 0)).answer = .ok true := by
  have hstart : Server.start Trio.config ({} : MemoryStore) Handover.draws .zero =
      .ok Trio.server := rfl
  have huntroubled : Trio.server.Untroubled :=
    .start trivial (MemoryStore.reliable rfl) (List.forall_mem_nil _) hstart
  have hdecode : Message.decode Trio.greeting.encode = .ok Trio.greeting := by decide +kernel
  have hstirs : Trio.server.Stirs Trio.assured (.call (.receive 2 Trio.greeting.encode)) :=
    .reassured rfl (.received (by decide) hdecode) (.heard rfl)
  have hunsummoned : ¬ Trio.assured.Summons (.call .perform) := by
    rintro ⟨_ | hcommand | _, _⟩
    cases hcommand
  have hlives : Trio.assured.Lives (fun present _ happening _ => ¬ present.Summons happening)
      (.ofSeconds 1 0) (Trio.assured.call (.ofSeconds 1 1) .perform).server (.ofSeconds 1 1) :=
    .goesOn .begins (by decide) (.call .perform) hunsummoned
  obtain ⟨htimeout, hpolls⟩ := election_timer_discipline huntroubled
  obtain ⟨hwaits, hcalls⟩ := hpolls _ _ _ (.call _) hstirs
  have hfollows : Trio.assured.role.isFollower = true := by decide +kernel
  have hdue : Duration.ofSeconds 1 0 + Trio.server.config.electionMax ≤ .ofSeconds 2 0 := by
    decide +kernel
  have hcalled := hcalls Trio.assured (.ofSeconds 1 0) .begins hfollows
  exact ⟨huntroubled, rfl, (htimeout (.inl rfl)).1, hlives,
    hwaits _ _ hlives (.ofSeconds 1 2) (by decide) (by decide), hfollows,
    hcalled (.ofSeconds 2 0) hdue⟩

end Server

end Consensus
