import Consensus.Proofs.Ensemble.Schedule
import Consensus.Proofs.Replication.Reception

/-! # Replication in any order

A leader's requests may arrive late, more than once, in any order or not at all. A server that
matches the leader's log loses nothing by them that the two logs have in common, and what it
has once reported to hold it holds from then on.
-/

namespace Consensus

/-- A frame that arrives at a server, on the channel of `sender`. -/
structure Arrival where
  now : Duration
  sender : ServerId
  frame : Bytes

/-- What arrives is a request of a leader of the term: it quotes the leader's log at some key,
with the entry behind it or none, and may tell any commit index. -/
def Arrival.Quotes (arrival : Arrival) (term : Term) (leaderLog : Entries) : Prop :=
  ∃ request, Message.decode arrival.frame = .ok (.appendRequest request) ∧
    request.term = term ∧ leaderLog.Quotes request

variable {σ : Type} [Store σ]

namespace Server

/-- What the arrival of a frame leaves behind. -/
def hear (server : Server σ) (arrival : Arrival) : Outcome σ Unit :=
  server.receive arrival.now arrival.sender arrival.frame

/-- The server as arrivals, one after the other, leave it. -/
def hearAll (server : Server σ) (arrivals : List Arrival) : Server σ :=
  arrivals.foldl (fun present arrival => (present.hear arrival).server) server

/-- All that the server posts while it hears the arrivals. -/
def postedOver (server : Server σ) : List Arrival → List (Posting σ)
  | [] => []
  | arrival :: rest =>
    (server.hear arrival).postings ++ (server.hear arrival).server.postedOver rest

theorem hearAll_append (server : Server σ) (earlier later : List Arrival) :
    server.hearAll (earlier ++ later) = (server.hearAll earlier).hearAll later :=
  List.foldl_append

variable [LawfulStore σ] {term : Term} {leaderLog : Entries} {server : Server σ}

/-- In a turn that has posted one answer, that is the only report. -/
theorem matched_of_answered {receiver : ServerId} {request : AppendRequest} {now : Duration}
    {last : Turn σ}
    (h : Turn.Answered term leaderLog receiver request ⟨server, now, []⟩ last) :
    ∀ posting ∈ last.postings, ∀ response,
      posting.message = .appendResponse response → response.successful = true →
        posting.sender.log = last.server.log ∧
          response.matchLogIndex < (last.server.log.shared leaderLog).length := by
  obtain ⟨response, sender, hanswers⟩ := h
  intro posting hposting other hmessage hsuccessful
  rw [hanswers.postings_eq, List.nil_append] at hposting
  obtain rfl := List.mem_singleton.mp hposting
  obtain rfl := Message.appendResponse.inj hmessage
  obtain ⟨hmatch, hlast⟩ := hanswers.matched hsuccessful
  exact ⟨hanswers.log_eq.symm, hmatch ▸ hlast⟩

/-- What comes of a request that quotes the leader's log. -/
theorem hear_nears (h : server.Trails term leaderLog) {arrival : Arrival}
    (hquotes : arrival.Quotes term leaderLog) :
    (server.hear arrival).server.Nears server term leaderLog ∧
      ∀ posting ∈ (server.hear arrival).postings, ∀ response,
        posting.message = .appendResponse response → response.successful = true →
          posting.sender.log = (server.hear arrival).server.log ∧
            response.matchLogIndex <
              ((server.hear arrival).server.log.shared leaderLog).length := by
  obtain ⟨request, hread, hterm, hshown⟩ := hquotes
  have hhonest : request.Honest term leaderLog :=
    ⟨hterm, hshown, fun entry => Message.carried_of_decode hread request entry rfl⟩
  cases hpeer : server.config.isPeer arrival.sender with
  | false =>
    have hidle : server.hear arrival = .idle server () := by
      rw [hear, receive, hpeer]
      rfl
    rw [hidle]
    exact ⟨h.nears, fun _ hposting => absurd hposting List.not_mem_nil⟩
  | true =>
    rcases receive_answers h arrival.now hpeer hread hhonest with
      ⟨last, hturn, hanswered⟩ | ⟨_, last, hturn, happroaches | hanswered, _⟩
    all_goals rw [hear, hturn]
    · exact ⟨hanswered.nears, matched_of_answered hanswered⟩
    · refine ⟨happroaches.nears, fun posting hposting => ?_⟩
      rw [happroaches.postings_eq] at hposting
      cases hposting
    · exact ⟨hanswered.nears, matched_of_answered hanswered⟩

/-- Whatever quotes the leader's log brings a server that trails it nearer. -/
theorem hearAll_nears (h : server.Trails term leaderLog) {arrivals : List Arrival}
    (hquotes : ∀ arrival ∈ arrivals, arrival.Quotes term leaderLog) :
    (server.hearAll arrivals).Nears server term leaderLog := by
  induction arrivals generalizing server with
  | nil => exact h.nears
  | cons arrival rest ih =>
    have hnears := (hear_nears h (hquotes arrival List.mem_cons_self)).1
    exact (ih hnears.trails fun other hother =>
      hquotes other (List.mem_cons_of_mem _ hother)).trans hnears

/-- What is reported to match does so when it is reported, and still after all arrivals. -/
theorem postedOver_matched (h : server.Trails term leaderLog) {arrivals : List Arrival}
    (hquotes : ∀ arrival ∈ arrivals, arrival.Quotes term leaderLog) :
    ∀ posting ∈ server.postedOver arrivals, ∀ response,
      posting.message = .appendResponse response → response.successful = true →
        response.matchLogIndex < (posting.sender.log.shared leaderLog).length ∧
          response.matchLogIndex < ((server.hearAll arrivals).log.shared leaderLog).length := by
  induction arrivals generalizing server with
  | nil => exact fun _ hposting => nomatch hposting
  | cons arrival rest ih =>
    obtain ⟨hnears, hmatched⟩ := hear_nears h (hquotes arrival List.mem_cons_self)
    have hrest : ∀ other ∈ rest, other.Quotes term leaderLog :=
      fun other hother => hquotes other (List.mem_cons_of_mem _ hother)
    intro posting hposting response hmessage hsuccessful
    rcases List.mem_append.mp hposting with hnow | hlater
    · obtain ⟨hlog, hmatch⟩ := hmatched posting hnow response hmessage hsuccessful
      have hkept := (hearAll_nears hnears.trails hrest).shared_le
      exact ⟨hlog ▸ hmatch, Int.lt_of_lt_of_le hmatch (Int.ofNat_le.mpr hkept)⟩
    · exact ih hnears.trails hrest posting hlater response hmessage hsuccessful

/-- Whatever requests of one leader a server hears, in whatever order: what its log and the
leader's have in common never gets shorter, the logs keep matching, what is committed stays in
what they have in common, and whatever index a successful response reports, the log agrees
with the leader's up to there when the response is posted and ever after. -/
theorem replication_in_any_order (h : server.Trails term leaderLog)
    (earlier later : List Arrival)
    (hquotes : ∀ arrival ∈ earlier ++ later, arrival.Quotes term leaderLog) :
    ((server.hearAll earlier).log.shared leaderLog).length ≤
        ((server.hearAll (earlier ++ later)).log.shared leaderLog).length ∧
      Entries.Matches (server.hearAll (earlier ++ later)).log.entries leaderLog ∧
      (server.hearAll (earlier ++ later)).commitIndex <
        ((server.hearAll (earlier ++ later)).log.shared leaderLog).length ∧
      ∀ posting ∈ server.postedOver earlier, ∀ response,
        posting.message = .appendResponse response → response.successful = true →
          Entries.AgreeThrough posting.sender.log.entries leaderLog response.matchLogIndex ∧
            Entries.AgreeThrough (server.hearAll (earlier ++ later)).log.entries leaderLog
              response.matchLogIndex := by
  have hearlier : ∀ arrival ∈ earlier, arrival.Quotes term leaderLog :=
    fun arrival harrival => hquotes arrival (List.mem_append_left _ harrival)
  have hreached := hearAll_nears h hearlier
  have hleft := hearAll_nears hreached.trails fun arrival harrival =>
    hquotes arrival (List.mem_append_right _ harrival)
  rw [hearAll_append]
  refine ⟨hleft.shared_le, hleft.trails.matching, hleft.trails.commit_lt, ?_⟩
  intro posting hposting response hmessage hsuccessful
  obtain ⟨hthen, hreport⟩ :=
    postedOver_matched h hearlier posting hposting response hmessage hsuccessful
  have hkept := hleft.shared_le
  exact ⟨Entries.agreeThrough_iff.mpr hthen,
    Entries.agreeThrough_iff.mpr (Int.lt_of_lt_of_le hreport (Int.ofNat_le.mpr hkept))⟩

end Server

/-! ## A follower that went astray -/

namespace Astray

/-- Entries of a command that differ in their terms. -/
def logOf (terms : List Term) : Entries := terms.map (⟨·, Handover.command.layout⟩)

/-- The log of server 1, which leads in term 3. -/
def leaderLog : Entries := logOf [1, 1, 3, 3]

/-- Server 2 followed a leader of term 2 in the meantime. -/
def follower : Server MemoryStore :=
  { Handover.server 2 1 with
    durable := ⟨3, none, .ofStore { term := 3, entries := logOf [1, 1, 2, 2, 2] }⟩
    progress := { commitIndex := 0 } }

theorem trails_follower : follower.Trails 3 leaderLog :=
  ⟨⟨trivial, rfl⟩, rfl, by decide, by decide, by decide⟩

/-- The request that shows the leader's log behind an index, with the entry there or without. -/
def request (place : Index) (carrying : Bool) : AppendRequest where
  term := 3
  leaderId := 1
  prevLogEntry := ⟨(leaderLog.termAt? place).getD nullTerm, place⟩
  leaderCommit := 3
  entry := if carrying then leaderLog.entryAt? (place + 1) else none

def arrival (shown : Index × Bool) : Arrival :=
  ⟨.zero, 1, (Message.appendRequest (request shown.1 shown.2)).encode⟩

/-- The last entry overtakes the others, and an early one comes twice. -/
def earlier : List Arrival := [(2, true), (1, true), (0, true)].map arrival

def later : List Arrival := [(0, false), (2, true), (-1, true), (1, true), (3, true)].map arrival

theorem quotes_arrivals : ∀ arrival ∈ earlier ++ later, arrival.Quotes 3 leaderLog := by
  have hread : ∀ shown ∈ [(2, true), (1, true), (0, true), (0, false), (2, true), (-1, true),
      (1, true), (3, true)], Message.decode (arrival shown).frame =
        .ok (.appendRequest (request shown.1 shown.2)) ∧
          leaderLog.Names (request shown.1 shown.2).prevLogEntry := by
    decide +kernel
  intro other hother
  rw [earlier, later, ← List.map_append] at hother
  obtain ⟨shown, hshown, rfl⟩ := List.mem_map.mp hother
  obtain ⟨hdecode, hnames⟩ := hread shown hshown
  refine ⟨_, hdecode, rfl, hnames, fun entry hentry => ?_⟩
  simp only [request, Option.ite_none_right_eq_some] at hentry
  exact hentry.2

end Astray

/-- What was reported of the first arrivals is still so after the others, when all is caught up. -/
theorem Server.replication_in_any_order_astray :
    (Astray.follower.postedOver Astray.earlier).map Posting.message = [
        .appendResponse ⟨3, false, 2, 1⟩, .appendResponse ⟨3, true, 2, 2⟩,
        .appendResponse ⟨3, true, 2, 1⟩] ∧
      (Astray.follower.hearAll (Astray.earlier ++ Astray.later)).log.entries =
        Astray.leaderLog ∧
      ∀ posting ∈ Astray.follower.postedOver Astray.earlier, ∀ response,
        posting.message = .appendResponse response → response.successful = true →
          Entries.AgreeThrough posting.sender.log.entries Astray.leaderLog
              response.matchLogIndex ∧
            Entries.AgreeThrough
              (Astray.follower.hearAll (Astray.earlier ++ Astray.later)).log.entries
              Astray.leaderLog response.matchLogIndex :=
  ⟨by decide +kernel, by decide +kernel,
    (replication_in_any_order Astray.trails_follower _ _ Astray.quotes_arrivals).2.2.2⟩

end Consensus
