import Consensus.Proofs.Life.Safety
import Consensus.Proofs.Replication.Tenure
import Mathlib.Data.List.Chain

/-! # Leadership in one life

What a server does as a leader, whatever frames it is sent and whenever its writes fail: it
keeps one cursor for each peer, it only adds to its log, and what it sends is its own log.
-/

namespace Consensus

/-! ## What a leader sends -/

/-- The request shows the server's own log at one place: the key of what is in front of it, and
the entry there unless the log ends. -/
structure AppendRequest.ShowsAt {σ : Type} [Store σ] (request : AppendRequest) (server : Server σ)
    (place : Nat) : Prop where
  leads : server.role.isLeader = true
  term_eq : request.term = server.term
  leaderId_eq : request.leaderId = server.id
  leaderCommit_eq : request.leaderCommit = server.commitIndex
  place_le : place ≤ server.log.entries.length
  prev_eq : request.prevLogEntry = Entries.lastKey (server.log.entries.take place)
  entry_eq : request.entry =
    server.log.entries[place]?.map fun entry => ⟨entry.term, place, entry.command⟩

namespace Server

variable {σ : Type} [Store σ] {config : Config} {store : σ} {draws : Draws} {now : Duration}
variable {server next : Server σ} {incidents : List Incident}

/-- Only a leader sends append requests, and they show its own log. -/
theorem exists_place_of_vouches {intake : View.Intake} {receiver : ServerId}
    {request : AppendRequest}
    (h : server.view.Vouches intake receiver (.appendRequest request)) :
    ∃ place, request.ShowsAt server place := by
  cases h with
  | replicate hleads hterm hleader hcommit hshows =>
    obtain ⟨place, hplace, hindex, hkey⟩ := Entries.exists_place_of_termAt? hshows.prev_termAt
    refine ⟨place, hleads, hterm, hleader, hcommit, hplace, hkey, ?_⟩
    rw [hshows.entry_eq, hindex, Entries.entryAt?, Entries.read?_natCast]
    rfl

/-! ## The books through a life -/

/-- A server that steps down or goes on as it is has its books accounted for. -/
theorem idle_accounts (h : server.Upholds next) (answer : Except Failure Bool) :
    (server :: (⟨next, [], answer⟩ : Outcome σ Bool).moments).Pairwise Accounts := by
  simpa [Outcome.moments] using h.accounts

/-- A change of the store that leaves the entries upholds the books. -/
theorem upholds_mapStore {change : σ → σ}
    (hentries : Store.entries (change server.log.store) = server.log.entries) :
    server.Upholds (server.mapStore change) := by
  have hlog : (server.mapStore change).log.entries = server.log.entries := hentries
  exact upholds_of_grown rfl rfl rfl (hlog ▸ List.prefix_rfl) rfl (List.Subset.refl _)

variable [LawfulStore σ]

/-- A server starts as a follower. -/
theorem follows_of_start (hstore : LawfulStore.Valid store)
    (hstart : start config store draws now = .ok server) : server.role.isLeader = false := by
  obtain ⟨_, _, _, hview⟩ := start_eq_ok hstore hstart
  exact congrArg View.leads hview

/-- A server that has started has its books in order, for it does not lead. -/
theorem inOrder_of_start (hstore : LawfulStore.Valid store)
    (hstart : start config store draws now = .ok server) :
    server.config = config ∧ server.InOrder := by
  obtain ⟨hvalid, _, _, hview⟩ := start_eq_ok hstore hstart
  have hconfig : server.config = config := congrArg View.config hview
  refine ⟨hconfig, hconfig ▸ Config.nodup_of_validate hvalid, fun hleads => ?_⟩
  rw [follows_of_start hstore hstart] at hleads
  exact absurd hleads (by decide)

variable [FallibleStore σ]

/-- A restart leaves a follower, or the server as it was. -/
theorem meet_restart (hcoherent : server.Coherent) (draws : Draws) (now : Duration) :
    ∃ next answer, server.meet (.restart draws now) = ⟨next, [], answer⟩ ∧
      (next = server ∨ next.config = server.config ∧ next.role.isLeader = false) := by
  unfold meet
  dsimp only
  split
  next => exact ⟨_, _, rfl, .inl rfl⟩
  next started hstart =>
    obtain ⟨_, _, _, hview⟩ := start_eq_ok hcoherent.durable.log.valid hstart
    exact ⟨_, _, rfl, .inr ⟨congrArg View.config hview, congrArg View.leads hview⟩⟩

/-- Faults and restarts disturb the books no more than calls do. -/
theorem meet_accounts (hcoherent : server.Coherent) (horder : server.InOrder)
    (incident : Incident) :
    (server :: (server.meet incident).moments).Pairwise Accounts := by
  cases incident with
  | call now call => exact (call_succeeds hcoherent now call).accounts horder
  | fault faulty => exact idle_accounts (upholds_mapStore (FallibleStore.entries_eq _ faulty)) _
  | restart draws now =>
    obtain ⟨next, answer, hmeet, rfl | ⟨hconfig, hfollows⟩⟩ := meet_restart hcoherent draws now
    · rw [hmeet]
      exact idle_accounts (refl_of Upholds next) answer
    · rw [hmeet]
      exact idle_accounts (upholds_of_follows hconfig hfollows) answer

/-- Through a life a server keeps its books in order and its configuration as it is. -/
theorem inOrder_of_mem_moments (hcoherent : server.Coherent) (horder : server.InOrder) :
    ∀ moment ∈ server.moments incidents,
      moment.Coherent ∧ moment.InOrder ∧ moment.config = server.config := by
  refine moments_induction (fun present hpresent incident _ moment hmoment => ?_)
    ⟨hcoherent, horder, rfl⟩
  obtain ⟨hcoherent, horder, hconfig⟩ := hpresent
  have htraces := meet_traces hcoherent incident
  have haccounts := (List.pairwise_cons.mp (meet_accounts hcoherent horder incident)).1
  exact ⟨htraces.coherent moment hmoment, (haccounts moment hmoment horder).1,
    (htraces.moves hmoment).config_eq.trans hconfig⟩

/-- From each moment of a life to the next one the books are accounted for. -/
theorem isChain_moments (hcoherent : server.Coherent) (horder : server.InOrder) :
    (server.moments incidents).IsChain Accounts := by
  induction incidents generalizing server with
  | nil => exact List.IsChain.singleton _
  | cons incident rest ih =>
    have hmet := meet_accounts hcoherent horder incident
    have hleft := Outcome.server_mem_moments (server.meet incident)
    have hnext := ih ((meet_traces hcoherent incident).coherent _ hleft)
      ((List.pairwise_cons.mp hmet).1 _ hleft horder).1
    obtain ⟨later, hlater⟩ := (server.meet incident).server.moments_eq_cons rest
    rw [hlater] at hnext
    rw [moments, hlater]
    refine List.isChain_split.mpr ⟨?_, hnext⟩
    rw [Outcome.moments, ← List.cons_append] at hmet
    exact hmet.isChain

omit [LawfulStore σ] [FallibleStore σ] in
instance : Trans (LedOn : Server σ → Server σ → Prop) LedOn LedOn where
  trans h hnext := h.trans hnext

/-- Every append request of a life shows the log of the leader that sends it. -/
theorem exists_place_of_posted (hcoherent : server.Coherent) :
    ∀ incident posting, (incident, posting) ∈ server.posted incidents →
      ∀ request, posting.message = .appendRequest request →
        ∃ place, request.ShowsAt posting.sender place := by
  refine forall_posted hcoherent fun present hpresent incident _ posting hposting request => ?_
  intro hmessage
  have hvouches := (meet_traces hpresent incident).vouches hposting
  rw [hmessage] at hvouches
  exact exists_place_of_vouches hvouches

/-- Whatever a server is sent and whenever its writes fail, a leader has one cursor for each
peer within its log and no other server has any, a leader only adds to its log for as long as
it leads, and each append request shows the log of the leader that sends it. -/
theorem leader_bookkeeping (hstore : LawfulStore.Valid store)
    (hstart : start config store draws now = .ok server) :
    (∀ moment ∈ server.moments incidents, moment.config = config ∧
        (moment.role.isLeader = true → moment.Tracks) ∧
        (moment.role.isLeader = false → moment.progress.cursors = [])) ∧
      (∀ stretch, stretch <:+: server.moments incidents →
        (∀ moment ∈ stretch, moment.role.isLeader = true) →
          stretch.Pairwise fun earlier later => later.term = earlier.term ∧
            earlier.log.entries <+: later.log.entries) ∧
      ∀ incident posting request, (incident, posting) ∈ server.posted incidents →
        posting.message = .appendRequest request → posting.sender.id = config.serverId ∧
          ∃ place, request.ShowsAt posting.sender place := by
  obtain ⟨_, hcoherent, _⟩ := start_eq_ok hstore hstart
  obtain ⟨hconfig, horder⟩ := inOrder_of_start hstore hstart
  have hlife : ∀ moment ∈ server.moments incidents,
      moment.Coherent ∧ moment.InOrder ∧ moment.config = server.config :=
    inOrder_of_mem_moments hcoherent horder
  refine ⟨fun moment hmoment => ?_, fun stretch hstretch hleads => ?_, ?_⟩
  · obtain ⟨hmoment_coherent, hmoment_order, hsame⟩ := hlife moment hmoment
    exact ⟨hsame.trans hconfig, hmoment_order.tracks, hmoment_coherent.cursors_eq⟩
  -- Of two neighbours that lead, the later one was led on from the earlier, which is transitive.
  · have haccounts : stretch.IsChain Accounts := by
      obtain ⟨front, back, hmoments⟩ := hstretch
      have hchain : (server.moments incidents).IsChain Accounts :=
        isChain_moments hcoherent horder
      rw [← hmoments] at hchain
      exact (List.isChain_append.mp (List.isChain_append.mp hchain).1).2.1
    have hchain : stretch.IsChain LedOn := by
      refine haccounts.imp_of_mem_imp ?_
      intro earlier later hearlier hlater haccounts
      exact (haccounts (hlife earlier (hstretch.subset hearlier)).2.1).2
        (hleads earlier hearlier) (hleads later hlater)
    exact (List.isChain_iff_pairwise.mp hchain).imp fun hled => ⟨hled.term_eq, hled.log_isPrefix⟩
  · intro incident posting request hposted hmessage
    have hsender := (hlife _ (sender_mem_moments hposted)).2.2.trans hconfig
    exact ⟨congrArg Config.serverId hsender,
      exists_place_of_posted hcoherent incident posting hposted request hmessage⟩

end Server

/-- A leader of two, whose follower boasts and then takes back what it said, and whose writes fail
for a time. -/
def Incumbent.life : List Incident := [
  .call (.ofSeconds 1 0) .pollTimer, .call (.ofSeconds 1 0) .perform,
  Hostile.arrival (.voteResponse ⟨1, true⟩),
  .call (.ofSeconds 1 0) (.submit Handover.command),
  Hostile.arrival (.appendResponse ⟨1, true, 2, Cursor.maxIndex⟩),
  Hostile.arrival (.appendResponse ⟨1, false, 2, -Cursor.maxIndex⟩),
  .fault true, .call (.ofSeconds 1 0) (.submit Handover.command), .fault false,
  .call (.ofSeconds 1 0) (.submit Handover.command)]

/-- What it sends of the second entry. -/
def Incumbent.request : AppendRequest :=
  ⟨1, 1, ⟨1, 0⟩, 0, some ⟨1, 1, Handover.command.layout⟩⟩

/-- The leader has two entries, of which its follower holds the first one. -/
theorem Server.leader_bookkeeping_incumbent :
    ((Handover.server 1 2).after Incumbent.life).progress.cursors = [⟨2, 1, 0⟩] ∧
      ((Handover.server 1 2).after Incumbent.life).log.entries.length = 2 ∧
      ((Handover.server 1 2).after Incumbent.life).Tracks ∧
      (((Handover.server 1 2).moments Incumbent.life).drop 4).Pairwise (fun earlier later =>
        later.term = earlier.term ∧ earlier.log.entries <+: later.log.entries) ∧
      ∃ sent ∈ (Handover.server 1 2).posted Incumbent.life,
        sent.2.message = .appendRequest Incumbent.request ∧ sent.2.sender.id = 1 ∧
          ∃ place, Incumbent.request.ShowsAt sent.2.sender place := by
  have hstart : start (Handover.config 1 2) {} Handover.draws .zero = .ok (Handover.server 1 2) :=
    rfl
  have hleads : ∀ moment ∈ ((Handover.server 1 2).moments Incumbent.life).drop 4,
      moment.role.isLeader = true := by
    decide +kernel
  have hsends : ∃ sent ∈ (Handover.server 1 2).posted Incumbent.life,
      sent.2.message = .appendRequest Incumbent.request := by
    decide +kernel
  obtain ⟨hbooks, hgrows, hshows⟩ := leader_bookkeeping trivial hstart
  refine ⟨by decide +kernel, by decide +kernel, ?_, ?_, ?_⟩
  · have hlast := (Handover.server 1 2).after_mem_moments Incumbent.life []
    rw [List.append_nil] at hlast
    exact (hbooks _ hlast).2.1 (by decide +kernel)
  · exact hgrows _ (List.drop_suffix _ _).isInfix hleads
  · obtain ⟨sent, hsent, hmessage⟩ := hsends
    exact ⟨sent, hsent, hmessage, hshows sent.1 sent.2 _ hsent hmessage⟩

end Consensus
