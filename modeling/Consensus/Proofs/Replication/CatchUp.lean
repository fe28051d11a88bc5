import Consensus.Proofs.Replication.AnyOrder
import Consensus.Proofs.Replication.Sending

/-! # Catching up

A leader and a follower exchange requests and responses until the follower holds the leader's
log. The leader's cursor first falls until the follower holds what stands in front of it, and
from then on it rises with every response.
-/

namespace Consensus

/-! ## Exchanges -/

variable {σ : Type} [Store σ]

/-- The frames of what was posted to a server. -/
def Outcome.framesTo {α : Type} (outcome : Outcome σ α) (receiver : ServerId) : List Bytes :=
  (outcome.postings.filter (·.receiver == receiver)).map (·.message.encode)

/-- Hands a server the frames of a sender, and gives the frames posted to the sender meanwhile. -/
def Server.takeIn (server : Server σ) (now : Duration) (sender : ServerId) :
    List Bytes → Except Failure (Server σ × List Bytes)
  | [] => .ok (server, [])
  | frame :: rest => do
    let outcome := server.receive now sender frame
    outcome.answer
    let (last, posted) ← outcome.server.takeIn now sender rest
    return (last, outcome.framesTo sender ++ posted)

/-- A leader and one of its followers, with the requests that are on their way. -/
structure Exchange (σ : Type) where
  leader : Server σ
  follower : Server σ
  requests : List Bytes

namespace Exchange

/-- The leader sends to the follower for the first time. -/
def start (leader follower : Server σ) (now : Duration) : Except Failure (Exchange σ) :=
  let outcome := leader.turn now (Action.sendAppend follower.id)
  outcome.answer.map fun _ => ⟨outcome.server, follower, outcome.framesTo follower.id⟩

/-- All requests are delivered, and then all that the follower answered. The clocks of the two
may show anything. -/
def roundTrip (exchange : Exchange σ) (clocks : Duration × Duration) :
    Except Failure (Exchange σ) := do
  let (follower, responses) ←
    exchange.follower.takeIn clocks.1 exchange.leader.id exchange.requests
  let (leader, requests) ←
    exchange.leader.takeIn clocks.2 exchange.follower.id responses
  return ⟨leader, follower, requests⟩

/-- So many round trips, each with its own clocks. -/
def run (exchange : Exchange σ) (clocks : Nat → Duration × Duration) :
    (trips : Nat) → Except Failure (Exchange σ)
  | 0 => .ok exchange
  | trips + 1 => do
    let next ← exchange.roundTrip (clocks 0)
    next.run (fun trip => clocks (trip + 1)) trips

/-- Nothing is on its way any more, and the follower holds the leader's log and is known to. -/
structure CaughtUp (exchange : Exchange σ) (log : Entries) : Prop where
  requests_eq : exchange.requests = []
  leader_eq : exchange.leader.log.entries = log
  follower_eq : exchange.follower.log.entries.take log.length = log
  cursor_eq : exchange.leader.progress.cursor? exchange.follower.id =
    some ⟨exchange.follower.id, log.length, log.length - 1⟩

end Exchange

/-! ## Cursors -/

namespace Cursor

variable {cursor : Cursor} {size : Int}

/-- The cursor after the follower took what is at it. -/
def raised (cursor : Cursor) (size : Int) : Cursor :=
  { cursor with
    nextIndex := min (cursor.nextIndex + 1) size
    matchIndex := min cursor.nextIndex (size - 1) }

theorem Within.advance_eq (h : cursor.Within size) :
    cursor.advance (min cursor.nextIndex (size - 1)) = cursor.raised size := by
  obtain ⟨hlow, hlt, hle⟩ := h
  unfold Cursor.advance raised
  split
  next =>
    congr 1
    lia
  next hknown =>
    -- Only at the end of the log nothing new is learnt.
    have hnext : cursor.nextIndex = min (cursor.nextIndex + 1) size := by lia
    have hmatch : cursor.matchIndex = min cursor.nextIndex (size - 1) := by lia
    rw [← hnext, ← hmatch]

/-- A cursor with room to step back does so. -/
theorem Within.backOff_lt (h : cursor.Within size) (hint : Index)
    (hroom : cursor.matchIndex + 1 < cursor.nextIndex) :
    (cursor.backOff hint).nextIndex < cursor.nextIndex := by
  have hfloor : -1 ≤ cursor.matchIndex := h.matched_ge
  simp only [Cursor.backOff]
  lia

end Cursor

/-! ## Frames -/

variable {term : Term} {log : Entries} {cursor : Cursor} {request : AppendRequest}

namespace AppendRequest

variable {leader : ServerId} {next : Index}

theorem Shows.entry_eq (h : request.Shows leader term log next) :
    request.entry = log.entryAt? next := by
  rw [h.shows.entry_eq, h.prev_index, Int.sub_add_cancel]

/-- A request vouches for what it carries, or for the end of the log. -/
theorem Shows.lastNewIndex_eq (h : request.Shows leader term log next) (hnonneg : 0 ≤ next)
    (hnext : next ≤ log.length) : request.lastNewIndex = min next (log.length - 1) := by
  unfold lastNewIndex
  rw [h.entry_eq, Entries.entryAt?]
  by_cases hend : next = log.length
  · have hnone : log.read? next = none := by
      rw [hend, Entries.read?_natCast]
      exact List.getElem?_eq_none (Nat.le_refl _)
    rw [hnone, Option.map_none]
    dsimp only
    rw [h.prev_index]
    lia
  · have hplace : next.toNat < log.length := by lia
    have hread : log.read? next = some log[next.toNat] :=
      Entries.read?_eq_some_iff.mpr ⟨hnonneg, List.getElem?_eq_getElem hplace⟩
    rw [hread, Option.map_some]
    dsimp only
    lia

/-- A request that shows a leader's log is honest. -/
theorem Shows.honest (h : request.Shows leader term log next)
    (hdecodes : ∀ entry ∈ log, Command.Decodes entry.command) : request.Honest term log := by
  refine ⟨h.term_eq, h.shows.quotes, fun entry hentry => ?_⟩
  have hread := (h.shows.quotes.read?_entry hentry).2
  exact hdecodes _ (Entries.mem_of_read? hread)

/-- A request that shows a leader's log fits the wire. -/
theorem Shows.fits (h : request.Shows leader term log next) (hnonneg : 0 ≤ next)
    (hnext : next ≤ log.length) (hlength : (log.length : Int) ≤ Cursor.maxIndex)
    (hterm : Word.InRange 4 term) (hleader : Word.InRange 4 leader)
    (hterms : ∀ entry ∈ log, Word.InRange 4 entry.term) : (Message.appendRequest request).Fits := by
  have hcommit_ge : -1 ≤ request.leaderCommit := h.commit_ge
  have hcommit_lt := h.commit_lt
  have hindices : ∀ index : Index, -1 ≤ index → index ≤ log.length → Word.InRange 8 index := by
    intro index hlow hhigh
    simp only [Word.InRange, Word.bound, Cursor.maxIndex] at hlength ⊢
    lia
  refine ⟨h.term_eq ▸ hterm, h.leaderId_eq ▸ hleader, ⟨?_, ?_⟩, ?_, fun entry hentry => ⟨?_, ?_⟩⟩
  · rcases Entries.termAt?_eq_some h.shows.prev_termAt with hnull | ⟨prev, hread, hprev⟩
    · have hfirst := h.shows.prev_termAt
      rw [hnull, Entries.termAt?, if_pos rfl] at hfirst
      rw [← Option.some.inj hfirst]
      exact ⟨by decide, by decide⟩
    · exact hprev ▸ hterms prev (Entries.mem_of_read? hread)
  · exact hindices _ (by rw [h.prev_index]; lia) (by rw [h.prev_index]; lia)
  · exact hindices _ hcommit_ge (Int.le_of_lt hcommit_lt)
  · have hread := (h.shows.quotes.read?_entry hentry).2
    exact hterms _ (Entries.mem_of_read? hread)
  · have hbounds := Entries.bounds_of_read? (h.shows.quotes.read?_entry hentry).2
    have hentry_fits : Word.InRange 8 entry.index := hindices _ (by lia) (by lia)
    exact hentry_fits

end AppendRequest

namespace Exchange

/-- Every number that the two send one another fits the word that it is written in. -/
structure Fits (exchange : Exchange σ) (term : Term) (log : Entries) : Prop where
  term_fits : Word.InRange 4 term
  leader_fits : Word.InRange 4 exchange.leader.id
  follower_fits : Word.InRange 4 exchange.follower.id
  terms_fit : ∀ entry ∈ log, Word.InRange 4 entry.term
  log_fits : (log.length : Int) ≤ Cursor.maxIndex
  follower_log_fits : (exchange.follower.log.entries.length : Int) ≤ Cursor.maxIndex

variable [LawfulStore σ]

/-- A leader knows a peer by a truthful cursor, and the peer trails the leader. -/
structure Catching (exchange : Exchange σ) (term : Term) (log : Entries) (cursor : Cursor) :
    Prop where
  leads : exchange.leader.Leads term log exchange.follower.id cursor
  trails : exchange.follower.Trails term log
  sure : exchange.follower.Sure
  knows_follower : exchange.leader.config.isPeer exchange.follower.id = true
  knows_leader : exchange.follower.config.isPeer exchange.leader.id = true
  fits : exchange.Fits term log
  within : cursor.Within log.length
  truthful : Entries.AgreeThrough exchange.follower.log.entries log cursor.matchIndex

/-- The request at the cursor is on its way, and nothing else. -/
structure Asking (exchange : Exchange σ) (term : Term) (log : Entries) (cursor : Cursor) :
    Prop extends exchange.Catching term log cursor where
  asked : ∃ request : AppendRequest,
    request.Shows exchange.leader.id term log cursor.nextIndex ∧
      exchange.requests = [(Message.appendRequest request).encode]

variable {exchange : Exchange σ}

/-! ## One round trip -/

omit [LawfulStore σ] in
/-- One frame that is taken in without a failure. -/
theorem takeIn_singleton {server last : Server σ} {now : Duration} {sender : ServerId}
    {frame : Bytes} {postings : List (Posting σ)}
    (hreceive : server.receive now sender frame = ⟨last, postings, .ok ()⟩) :
    server.takeIn now sender [frame] =
      .ok (last, (postings.filter (·.receiver == sender)).map (·.message.encode)) := by
  simp [Server.takeIn, hreceive, Outcome.framesTo, bind, Except.bind, pure, Except.pure]

/-- What the follower answers to the request at the cursor. -/
structure Answer (exchange : Exchange σ) (term : Term) (log : Entries) (cursor : Cursor)
    (follower : Server σ) (response : AppendResponse) : Prop where
  nears : follower.Nears exchange.follower term log
  term_eq : response.term = term
  serverId_eq : response.serverId = exchange.follower.id
  fits : (Message.appendResponse response).Fits
  matched : response.successful = true →
    response.matchLogIndex = min cursor.nextIndex (log.length - 1) ∧
      min cursor.nextIndex (log.length - 1) < (follower.log.shared log).length
  refused : response.successful = false →
    ((exchange.follower.log.shared log).length : Int) < cursor.nextIndex

/-- The follower answers the request with one response. -/
theorem Asking.answer (h : exchange.Asking term log cursor) (now : Duration) :
    ∃ follower response,
      exchange.follower.takeIn now exchange.leader.id exchange.requests =
        .ok (follower, [(Message.appendResponse response).encode]) ∧
      exchange.Answer term log cursor follower response := by
  obtain ⟨request, hshows, hrequests⟩ := h.asked
  have hnonneg := h.within.next_nonneg
  have hnext := h.within.next_le
  have hdecodes : ∀ entry ∈ log, Command.Decodes entry.command :=
    h.leads.entries_eq ▸ h.leads.applicable.decodes
  have hhonest := hshows.honest hdecodes
  have hread : Message.decode (Message.appendRequest request).encode =
      .ok (.appendRequest request) := by
    refine (Message.decode_encode_iff (hshows.fits hnonneg hnext h.fits.log_fits h.fits.term_fits
      h.fits.leader_fits h.fits.terms_fit)).1 ?_
    rintro _ entry ⟨⟩ hentry
    exact hhonest.decodes entry hentry
  rcases Server.receive_answers h.trails now h.knows_leader hread hhonest with
    ⟨last, hreceive, response, sender, hanswers⟩ | ⟨_, _, _, _, hunsure⟩
  · refine ⟨last.server, response, ?_, ?_⟩
    · rw [hrequests, takeIn_singleton hreceive, hanswers.postings_eq]
      simp
    · have hlast := hshows.lastNewIndex_eq hnonneg hnext
      refine ⟨hanswers.nears, hanswers.term_eq, hanswers.serverId_eq, ?_, ?_, ?_⟩
      · refine ⟨hanswers.term_eq ▸ h.fits.term_fits,
          hanswers.serverId_eq ▸ h.fits.follower_fits, ?_⟩
        have hlengths := hanswers.nears.length_le
        have hlog_fits := h.fits.log_fits
        have hfollower_fits := h.fits.follower_log_fits
        -- An acknowledged index is within the leader's log, and a hint within the follower's.
        have hbounds : -1 ≤ response.matchLogIndex ∧ response.matchLogIndex < Cursor.maxIndex := by
          cases hsuccessful : response.successful with
          | true =>
            rw [(hanswers.matched hsuccessful).1, hlast]
            lia
          | false =>
            have hhint : response.matchLogIndex = (last.server.log.entries.length : Int) - 1 :=
              (hanswers.refused hsuccessful).1
            lia
        simp only [Word.InRange, Word.bound, Cursor.maxIndex] at hbounds ⊢
        lia
      · rw [← hlast]
        exact hanswers.matched
      · intro hrefused
        have hprev := (hanswers.refused hrefused).2
        rw [hshows.prev_index] at hprev
        exact Int.lt_of_le_sub_one hprev
  · exact absurd h.sure hunsure

/-- The leader takes the response, and sends what is next unless there is nothing. -/
theorem Asking.respond (h : exchange.Asking term log cursor) {follower : Server σ}
    {response : AppendResponse} (hanswer : exchange.Answer term log cursor follower response)
    {moved : Cursor} (hmoved : cursor.answered log.length response = moved)
    (hwithin : moved.Within log.length) (now : Duration) :
    ∃ leader requests,
      exchange.leader.takeIn now exchange.follower.id
          [(Message.appendResponse response).encode] = .ok (leader, requests) ∧
        leader.Leads term log exchange.follower.id moved ∧
        leader.config = exchange.leader.config ∧
        ((response.successful = true ∧ moved.nextIndex = log.length ∧ requests = []) ∨
          ((response.successful = true → moved.nextIndex < log.length) ∧
            ∃ request : AppendRequest,
              request.Shows exchange.leader.id term log moved.nextIndex ∧
                requests = [(Message.appendRequest request).encode])) := by
  have hread : Message.decode (Message.appendResponse response).encode =
      .ok (.appendResponse response) :=
    (Message.decode_encode_iff hanswer.fits).1 fun _ _ hrequest => nomatch hrequest
  have hreceive := Server.receive_eq_turn h.knows_follower hread now
  have hends : (Action.dispatch (.received exchange.follower.id (.appendResponse response))).Ends
      (fun _ last => Turn.Responds term log exchange.follower.id response moved
        ⟨exchange.leader, now, []⟩ last) (fun _ => False) ⟨exchange.leader, now, []⟩ :=
    Action.dispatch_response_ends h.leads hanswer.term_eq hanswer.serverId_eq hmoved hwithin
  obtain ⟨⟨⟩, last, hturn, hresponds⟩ := hends.turn_done
  refine ⟨last.server, _, takeIn_singleton (hreceive.trans hturn), ?_⟩
  rcases hresponds with ⟨hsuccessful, hend, hkeeps⟩ | ⟨hbehind, hsends⟩
  · refine ⟨hkeeps.leads, hkeeps.config_eq, .inl ⟨hsuccessful, hend, ?_⟩⟩
    rw [hkeeps.postings_eq]
    rfl
  · obtain ⟨request, sender, hshows, hposted⟩ := hsends.posted
    refine ⟨hsends.leads, hsends.config_eq, .inr ⟨hbehind, request, hshows, ?_⟩⟩
    rw [hposted]
    simp

/-- What the response makes of the cursor is truthful again. -/
theorem Asking.moved (h : exchange.Asking term log cursor) {follower : Server σ}
    {response : AppendResponse} (hanswer : exchange.Answer term log cursor follower response) :
    (cursor.answered log.length response).Within log.length ∧
      (cursor.answered log.length response).matchIndex < (follower.log.shared log).length ∧
      (response.successful = true →
        cursor.answered log.length response = cursor.raised log.length) ∧
      (response.successful = false →
        (cursor.answered log.length response).nextIndex < cursor.nextIndex) := by
  refine ⟨h.within.answered response, ?_⟩
  unfold Cursor.answered
  cases hsuccessful : response.successful with
  | true =>
    obtain ⟨hmatch, hheld⟩ := hanswer.matched hsuccessful
    have hraised : cursor.advance (min response.matchLogIndex (log.length - 1)) =
        cursor.raised log.length := by
      rw [hmatch, Int.min_assoc, Int.min_self, h.within.advance_eq]
    rw [if_pos rfl, hraised]
    exact ⟨hheld, fun _ => rfl, Bool.noConfusion⟩
  | false =>
    have hmissing := hanswer.refused hsuccessful
    have htruthful : cursor.matchIndex < (exchange.follower.log.shared log).length :=
      Entries.agreeThrough_iff.mp h.truthful
    have hkept := hanswer.nears.shared_le
    have hsame : (cursor.backOff response.matchLogIndex).matchIndex = cursor.matchIndex := rfl
    rw [if_neg (by decide)]
    exact ⟨by lia, Bool.noConfusion, fun _ => h.within.backOff_lt _ (by lia)⟩

omit [LawfulStore σ] in
/-- A follower that agrees up to the leader's last entry holds the leader's log. -/
theorem take_eq_of_shared {follower : Server σ}
    (h : (log.length : Int) - 1 < (follower.log.shared log).length) :
    follower.log.entries.take log.length = log := by
  have hwhole : follower.log.shared log = log :=
    (follower.log.shared_isPrefix_leader log).eq_of_length_le (by lia)
  have hbegins : log <+: follower.log.entries := by
    have hshared := follower.log.shared_isPrefix log
    rwa [hwhole] at hshared
  exact (List.prefix_iff_eq_take.mp hbegins).symm

/-- What a round trip makes of an exchange: all is caught up, or the cursor rises within what
the follower holds, or it falls because the follower does not hold what stands in front of it. -/
inductive Advance (exchange : Exchange σ) (term : Term) (log : Entries) (cursor : Cursor)
    (next : Exchange σ) : Prop where
  | done (h : next.CaughtUp log)
  | rises {moved : Cursor} (h : next.Asking term log moved)
      (hnext : moved.nextIndex = cursor.nextIndex + 1)
      (hheld : moved.nextIndex ≤ (next.follower.log.shared log).length)
  | falls {moved : Cursor} (h : next.Asking term log moved)
      (hnext : moved.nextIndex < cursor.nextIndex)
      (hmissing : ((exchange.follower.log.shared log).length : Int) < cursor.nextIndex)

/-- A round trip does not fail, and makes an advance. -/
theorem Asking.roundTrip (h : exchange.Asking term log cursor) (clocks : Duration × Duration) :
    ∃ next, exchange.roundTrip clocks = .ok next ∧ next.follower.id = exchange.follower.id ∧
      exchange.Advance term log cursor next := by
  obtain ⟨follower, response, hfollower, hanswer⟩ := h.answer clocks.1
  obtain ⟨hwithin, htruthful, hraised, hfalls⟩ := h.moved hanswer
  generalize hmoved : cursor.answered log.length response = moved
    at hwithin htruthful hraised hfalls
  obtain ⟨leader, requests, hleader, hleads, hconfig, hrequests⟩ :=
    h.respond hanswer hmoved hwithin clocks.2
  have hfollower_id : exchange.follower.id = follower.id :=
    (congrArg Config.serverId hanswer.nears.config_eq).symm
  have hleader_id : exchange.leader.id = leader.id := (congrArg Config.serverId hconfig).symm
  have htrip : exchange.roundTrip clocks = .ok ⟨leader, follower, requests⟩ := by
    simp [Exchange.roundTrip, hfollower, hleader, bind, Except.bind, pure, Except.pure]
  refine ⟨_, htrip, hfollower_id.symm, ?_⟩
  have hfits := h.fits
  have hcatching : Catching ⟨leader, follower, requests⟩ term log moved := by
    have hlengths := hanswer.nears.length_le
    have hlog_fits := hfits.log_fits
    have hfollower_fits := hfits.follower_log_fits
    refine ⟨hfollower_id ▸ hleads, hanswer.nears.trails, hanswer.nears.sure h.sure, ?_, ?_, ?_,
      hwithin, Entries.agreeThrough_iff.mpr htruthful⟩
    · rw [hconfig, ← hfollower_id]
      exact h.knows_follower
    · rw [hanswer.nears.config_eq, ← hleader_id]
      exact h.knows_leader
    · exact ⟨hfits.term_fits, hleader_id ▸ hfits.leader_fits, hfollower_id ▸ hfits.follower_fits,
        hfits.terms_fit, hlog_fits, by dsimp only; lia⟩
  -- The leader is silent only once its last entry was acknowledged. Otherwise it asks again, one
  -- entry further on or further back.
  rcases hrequests with ⟨hsuccessful, hend, hnone⟩ | ⟨hbehind, request, hshows, hasked⟩
  · obtain rfl := hraised hsuccessful
    have hlast : min cursor.nextIndex (log.length - 1 : Int) = log.length - 1 := by
      simp only [Cursor.raised] at hend
      lia
    have hwhole : cursor.raised log.length = ⟨follower.id, log.length, log.length - 1⟩ := by
      have hserver : cursor.serverId = follower.id :=
        (Cursors.mem_of_find? hcatching.leads.cursor_eq).2
      have hnext : min (cursor.nextIndex + 1) (log.length : Int) = log.length := hend
      rw [Cursor.raised, hnext, hlast, hserver]
    exact .done ⟨hnone, hleads.entries_eq, take_eq_of_shared (hlast ▸ htruthful),
      hwhole ▸ hcatching.leads.cursor_eq⟩
  · have hasking : Asking ⟨leader, follower, requests⟩ term log moved :=
      { hcatching with asked := ⟨request, hleader_id ▸ hshows, hasked⟩ }
    cases hsuccessful : response.successful with
    | true =>
      obtain rfl := hraised hsuccessful
      have hopen := hbehind hsuccessful
      simp only [Cursor.raised] at hopen htruthful
      have hnext : (cursor.raised log.length).nextIndex = cursor.nextIndex + 1 := by
        simp only [Cursor.raised]
        lia
      refine .rises hasking hnext ?_
      rw [hnext]
      dsimp only
      lia
    | false => exact .falls hasking (hfalls hsuccessful) (hanswer.refused hsuccessful)

/-! ## All round trips -/

/-- So many round trips at most leave the exchange caught up, whatever the clocks show. -/
def CatchesUp (exchange : Exchange σ) (log : Entries) (bound : Int) : Prop :=
  ∀ clocks, ∃ trips : Nat, trips ≤ bound ∧ ∃ final, exchange.run clocks trips = .ok final ∧
    final.follower.id = exchange.follower.id ∧ final.CaughtUp log

omit [LawfulStore σ] in
theorem CaughtUp.catchesUp (h : exchange.CaughtUp log) {bound : Int} (hbound : 0 ≤ bound) :
    exchange.CatchesUp log bound :=
  fun _ => ⟨0, hbound, exchange, rfl, rfl, h⟩

omit [LawfulStore σ] in
/-- Who catches up within a bound does so within a wider one. -/
theorem CatchesUp.mono {bound wider : Int} (h : exchange.CatchesUp log bound)
    (hle : bound ≤ wider) : exchange.CatchesUp log wider := by
  intro clocks
  obtain ⟨trips, htrips, hrun⟩ := h clocks
  exact ⟨trips, Int.le_trans htrips hle, hrun⟩

/-- An exchange catches up with one more round trip than what the first one leaves of it. -/
theorem Asking.catchesUp_of_next (h : exchange.Asking term log cursor) {bound : Int}
    (hnext : ∀ next, exchange.Advance term log cursor next → next.CatchesUp log bound) :
    exchange.CatchesUp log (bound + 1) := by
  intro clocks
  obtain ⟨next, htrip, hid, hadvance⟩ := h.roundTrip (clocks 0)
  obtain ⟨trips, htrips, final, hrun, hfinal_id, hfinal⟩ :=
    hnext next hadvance fun trip => clocks (trip + 1)
  refine ⟨trips + 1, by lia, final, ?_, hfinal_id.trans hid, hfinal⟩
  rw [run, htrip]
  exact hrun

/-- From where the follower holds what stands in front of the cursor, the cursor only rises. -/
theorem Asking.climbs (h : exchange.Asking term log cursor)
    (hheld : cursor.nextIndex ≤ (exchange.follower.log.shared log).length) :
    exchange.CatchesUp log (log.length - cursor.nextIndex + 1) := by
  generalize hgap : (log.length - cursor.nextIndex).toNat = gap
  induction gap using Nat.strong_induction_on generalizing exchange cursor with
  | _ gap ih =>
    have hend := h.within.next_le
    refine h.catchesUp_of_next fun next hadvance => ?_
    cases hadvance with
    | done hdone => exact hdone.catchesUp (by lia)
    | @rises moved hasking hnext hrisen =>
      have hmoved_end := hasking.within.next_le
      exact (ih _ (by lia) hasking hrisen rfl).mono (by lia)
    | falls _ _ hmissing => exact absurd hheld (by lia)

/-- The cursor falls at most to the first index and rises from there. -/
theorem Asking.catchesUp (h : exchange.Asking term log cursor) :
    exchange.CatchesUp log (cursor.nextIndex + log.length + 1) := by
  generalize hheight : cursor.nextIndex.toNat = height
  induction height using Nat.strong_induction_on generalizing exchange cursor with
  | _ height ih =>
    have hnonneg := h.within.next_nonneg
    by_cases hheld : cursor.nextIndex ≤ (exchange.follower.log.shared log).length
    · exact (h.climbs hheld).mono (by lia)
    · refine h.catchesUp_of_next fun next hadvance => ?_
      cases hadvance with
      | done hdone => exact hdone.catchesUp (by lia)
      | @rises moved hasking hnext hrisen =>
        exact (hasking.climbs hrisen).mono (by lia)
      | @falls moved hasking hnext _ =>
        have hmoved_nonneg := hasking.within.next_nonneg
        exact (ih _ (by lia) hasking rfl).mono (by lia)

/-- The leader's first request is the one at the cursor. -/
theorem Catching.start_asking {leader follower : Server σ}
    (h : Catching ⟨leader, follower, []⟩ term log cursor) (now : Duration) :
    ∃ begun, start leader follower now = .ok begun ∧ begun.follower = follower ∧
      begun.Asking term log cursor := by
  have hkeeps : Turn.Keeps term log follower.id cursor ⟨leader, now, []⟩ ⟨leader, now, []⟩ :=
    ⟨h.leads, rfl, rfl⟩
  obtain ⟨⟨⟩, last, hturn, hsends⟩ := (Action.sendAppend_sends hkeeps h.within).turn_done
  obtain ⟨request, sender, hshows, hposted⟩ := hsends.posted
  have hid : last.server.id = leader.id := congrArg Config.serverId hsends.config_eq
  have hrequests : Outcome.framesTo (leader.turn now (Action.sendAppend follower.id))
      follower.id = [(Message.appendRequest request).encode] := by
    rw [Outcome.framesTo, hturn, hposted]
    simp
  have hstart : start leader follower now =
      .ok ⟨last.server, follower, [(Message.appendRequest request).encode]⟩ := by
    rw [start, hrequests, hturn]
    rfl
  have hfits := h.fits
  refine ⟨_, hstart, rfl, ⟨hsends.leads, h.trails, h.sure, ?_, ?_, ?_, h.within, h.truthful⟩,
    request, hid ▸ hshows, rfl⟩
  · exact hsends.config_eq ▸ h.knows_follower
  · exact hid ▸ h.knows_leader
  · exact ⟨hfits.term_fits, hid ▸ hfits.leader_fits, hfits.follower_fits, hfits.terms_fit,
      hfits.log_fits, hfits.follower_log_fits⟩

/-- A leader whose cursor for a follower is truthful brings the follower up to its own log, and
comes to know it, within two round trips for each entry and one more. Nothing fails on the
way, and nothing is on its way in the end. -/
theorem catch_up_converges {leader follower : Server σ}
    (h : Catching ⟨leader, follower, []⟩ term log cursor) (now : Duration)
    (clocks : Nat → Duration × Duration) :
    ∃ begun trips final, start leader follower now = .ok begun ∧ trips ≤ 2 * log.length + 1 ∧
      begun.run clocks trips = .ok final ∧ final.follower.id = follower.id ∧
      final.CaughtUp log := by
  obtain ⟨begun, hstart, hfollower, hasking⟩ := h.start_asking now
  obtain ⟨trips, htrips, final, hrun, hid, hfinal⟩ := hasking.catchesUp clocks
  have hend := h.within.next_le
  exact ⟨begun, trips, final, hstart, by lia, hrun, hfollower ▸ hid, hfinal⟩

end Exchange

/-! ## Bringing back a follower that went astray -/

namespace Astray

/-- Server 1 has just won the election of term 3 and knows nothing of the other. -/
def leader : Server MemoryStore :=
  { Handover.server 1 2 with
    role := .leader .zero
    durable := ⟨3, some 1, .ofStore { term := 3, votedFor := some 1, entries := leaderLog }⟩
    progress := { commitIndex := 0, cursors := [.fresh 2 4] } }

theorem decodes_logOf (terms : List Term) :
    ∀ entry ∈ logOf terms, Command.Decodes entry.command := by
  intro entry hentry
  obtain ⟨term, _, rfl⟩ := List.mem_map.mp hentry
  have hread : Command.decode Handover.command.layout = .ok Handover.command := by decide +kernel
  exact ⟨Handover.command, hread⟩

theorem catching_start :
    Exchange.Catching ⟨leader, follower, []⟩ 3 leaderLog (.fresh 2 4) where
  leads := ⟨rfl, rfl, rfl, rfl, by decide, ⟨by decide, by decide, decodes_logOf _⟩⟩
  trails := trails_follower
  sure := ⟨⟨MemoryStore.reliable rfl, decodes_logOf _⟩, by decide⟩
  knows_follower := rfl
  knows_leader := rfl
  fits := ⟨⟨by decide, by decide⟩, ⟨by decide, by decide⟩, ⟨by decide, by decide⟩, by
    intro entry hentry
    obtain ⟨term, hterm, rfl⟩ := List.mem_map.mp hentry
    simp only [List.mem_cons, List.not_mem_nil, or_false] at hterm
    rcases hterm with rfl | rfl | rfl | rfl <;> exact ⟨by decide, by decide⟩,
    by decide, by decide⟩
  within := ⟨by decide, by decide, by decide⟩
  truthful := Entries.agreeThrough_iff.mpr (by decide)

end Astray

/-- A follower with a divergent suffix has the leader's log after four round trips. -/
theorem Exchange.catch_up_converges_astray :
    (Exchange.start Astray.leader Astray.follower .zero).map (fun begun =>
        (begun.run (fun _ => (.zero, .zero)) 4).map fun final => final.follower.log.entries) =
      .ok (.ok Astray.leaderLog) ∧
      ∃ begun trips final,
        Exchange.start Astray.leader Astray.follower .zero = .ok begun ∧ trips ≤ 9 ∧
          begun.run (fun _ => (.zero, .zero)) trips = .ok final ∧ final.follower.id = 2 ∧
          final.CaughtUp Astray.leaderLog :=
  ⟨by decide +kernel, catch_up_converges Astray.catching_start .zero fun _ => (.zero, .zero)⟩

end Consensus
