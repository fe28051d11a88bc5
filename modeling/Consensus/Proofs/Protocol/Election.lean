import Consensus.Proofs.Protocol.Chronicle

/-! # Elections

A member votes for one candidate in a term, and no restart makes it forget. Two
leaders of one term would share a voter, so there is one at most, and it wins its
term once.
-/

namespace Consensus

namespace Chronicle

/-- The server was seen with its vote of the term cast for the candidate. -/
def Voted (chronicle : Chronicle) (voter : ServerId) (term : Term) (candidate : ServerId) : Prop :=
  ∃ view ∈ chronicle.seen, view.id = voter ∧ view.term = term ∧ view.votedFor = some candidate

/-- A quorum of the members voted for the candidate in the term. -/
def Won (chronicle : Chronicle) (members : Finset ServerId) (candidate : ServerId)
    (term : Term) : Prop :=
  ∃ voters, IsQuorum members voters ∧ ∀ voter ∈ voters, chronicle.Voted voter term candidate

variable {members : Finset ServerId} {chronicle : Chronicle}

theorem Voted.of_extends {earlier later : Chronicle} (hlater : later.Extends earlier)
    {voter candidate : ServerId} {term : Term} (h : earlier.Voted voter term candidate) :
    later.Voted voter term candidate := by
  obtain ⟨view, hseen, hview⟩ := h
  exact ⟨view, hlater.seen_subset hseen, hview⟩

theorem Won.of_extends {earlier later : Chronicle} (hlater : later.Extends earlier)
    {candidate : ServerId} {term : Term} (h : earlier.Won members candidate term) :
    later.Won members candidate term := by
  obtain ⟨voters, hquorum, hvoted⟩ := h
  exact ⟨voters, hquorum, fun voter hvoter => (hvoted voter hvoter).of_extends hlater⟩

/-! ## Votes -/

/-- A server has come no less far than it was ever seen, and within one term it keeps
its vote. -/
theorem Reachable.present_of_seen (h : Reachable members chronicle) {view : View}
    (hseen : view ∈ chronicle.seen) :
    view.term ≤ (chronicle.present view.id).term ∧
      ((chronicle.present view.id).term = view.term → ∀ candidate,
        view.votedFor = some candidate →
          (chronicle.present view.id).votedFor = some candidate) := by
  induction h with
  | genesis h =>
    obtain ⟨server, hserver, rfl⟩ := (h.seen_iff view).mp hseen
    rw [h.ids_eq server hserver]
    exact ⟨Int.le_refl _, fun _ _ hvote => hvote⟩
  | @move chronicle server next h hmember hmove ih =>
    have hid : next.id = server := hmove.id_eq.trans (h.attended.ids_eq server hmember)
    rcases Set.mem_insert_iff.mp hseen with rfl | hold
    · rw [hid, present_advance_self]
      exact ⟨Int.le_refl _, fun _ _ hvote => hvote⟩
    · obtain ⟨hterm, hvotes⟩ := ih hold
      by_cases heq : view.id = server
      · rw [heq] at hterm hvotes ⊢
        rw [present_advance_self]
        have hraised := hmove.term_le
        refine ⟨Int.le_trans hterm hraised, fun hsame candidate hvote => ?_⟩
        have hkept : (chronicle.present server).term = view.term := by lia
        exact hmove.votedFor_eq (hsame.trans hkept.symm) (hvotes hkept candidate hvote)
      · rw [present_advance_of_ne _ _ heq]
        exact ⟨hterm, hvotes⟩
  | post _ _ _ ih => exact ih hseen

/-- A server was never seen with two votes of one term. -/
theorem Reachable.votedFor_unique (h : Reachable members chronicle) :
    ∀ first ∈ chronicle.seen, ∀ second ∈ chronicle.seen, first.id = second.id →
      first.term = second.term → ∀ one other, first.votedFor = some one →
      second.votedFor = some other → one = other := by
  refine h.same_server ?_ ?_
  · intro first second hrelated hterm one other hone hother
    exact (hrelated hterm.symm other one hother hone).symm
  · intro chronicle h view hseen hterm one other hone hother
    have hkept := (h.present_of_seen hseen).2 hterm other hother
    exact Option.some.inj (hone.symm.trans hkept)

/-- A server votes for one candidate in a term. -/
theorem Reachable.vote_unique (h : Reachable members chronicle) {voter one other : ServerId}
    {term : Term} (hone : chronicle.Voted voter term one)
    (hother : chronicle.Voted voter term other) : one = other := by
  obtain ⟨first, hfirst, hfirst_id, hfirst_term, hfirst_vote⟩ := hone
  obtain ⟨second, hsecond, hsecond_id, hsecond_term, hsecond_vote⟩ := hother
  exact h.votedFor_unique first hfirst second hsecond (hfirst_id.trans hsecond_id.symm)
    (hfirst_term.trans hsecond_term.symm) one other hfirst_vote hsecond_vote

/-- Two candidates that win one term are one. -/
theorem Reachable.won_unique (h : Reachable members chronicle) {one other : ServerId} {term : Term}
    (hone : chronicle.Won members one term) (hother : chronicle.Won members other term) :
    one = other := by
  obtain ⟨voters, hquorum, hvoted⟩ := hone
  obtain ⟨others, hquorum_others, hvoted_others⟩ := hother
  obtain ⟨voter, hvoter, hvoter_other⟩ := hquorum.exists_mem_both hquorum_others
  exact h.vote_unique (hvoted voter hvoter) (hvoted_others voter hvoter_other)

end Chronicle

/-! ## Ballots -/

/-- What a view says of terms and votes, and what stands behind its tally. -/
structure View.Ballots (chronicle : Chronicle) (view : View) : Prop where
  term_nonneg : 0 ≤ view.term
  term_le : view.term ≤ maxTerm
  term_pos : ∀ candidate, view.votedFor = some candidate → 1 ≤ view.term
  tally_term_le : view.tally.term ≤ view.term
  voters_nodup : view.tally.voters.Nodup
  self_voted : view.tally.voters ≠ [] → chronicle.Voted view.id view.tally.term view.id
  granted : ∀ voter ∈ view.tally.voters, voter = view.id ∨
    ⟨voter, view.id, .voteResponse ⟨view.tally.term, true⟩⟩ ∈ chronicle.sent

/-- What stands behind a message of an election. -/
structure Envelope.Backed (chronicle : Chronicle) (envelope : Envelope) : Prop where
  term_nonneg : 0 ≤ envelope.message.term
  term_le : envelope.message.term ≤ maxTerm
  asked : ∀ request, envelope.message = .voteRequest request →
    request.candidateId = envelope.sender ∧ ∃ view ∈ chronicle.seen,
      view.id = envelope.sender ∧ view.term = request.term ∧
      view.votedFor = some envelope.sender ∧ request.lastLogEntry = view.log.lastKey
  granted : ∀ term, envelope.message = .voteResponse ⟨term, true⟩ → ∃ view ∈ chronicle.seen,
    view.id = envelope.sender ∧ view.term = term ∧ view.votedFor = some envelope.receiver ∧
    ∃ request, ⟨envelope.receiver, envelope.sender, .voteRequest request⟩ ∈ chronicle.sent ∧
      request.term = term ∧ request.lastLogEntry.AtLeastAsUpToDate view.log.lastKey

namespace Chronicle

variable {members : Finset ServerId} {chronicle : Chronicle}

theorem ballots_lasting : Lasting fun chronicle view => View.Ballots chronicle view :=
  fun _ _ hlater _ h => {
    h with
    self_voted := fun hvoters => (h.self_voted hvoters).of_extends hlater
    granted := fun voter hvoter => (h.granted voter hvoter).imp_right (hlater.sent_subset ·) }

theorem backed_lasting : Lasting fun chronicle envelope => Envelope.Backed chronicle envelope := by
  intro earlier later hlater envelope h
  refine { h with asked := ?_, granted := ?_ }
  · intro request hmessage
    obtain ⟨hsender, view, hseen, hview⟩ := h.asked request hmessage
    exact ⟨hsender, view, hlater.seen_subset hseen, hview⟩
  · intro term hmessage
    obtain ⟨view, hseen, hid, hterm, hvote, request, hsent, hrequest⟩ := h.granted term hmessage
    exact ⟨view, hlater.seen_subset hseen, hid, hterm, hvote, request,
      hlater.sent_subset hsent, hrequest⟩

theorem Reachable.ballots_of_move {server : ServerId} {view : View}
    (h : Reachable members chronicle) (hmember : server ∈ members)
    (hviews : ∀ old ∈ chronicle.seen, old.Ballots chronicle)
    (henvelopes : ∀ old ∈ chronicle.sent, old.Backed chronicle)
    (hmove : (chronicle.present server).Move (chronicle.intake server) view) :
    view.Ballots (chronicle.advance server view) := by
  have hid := h.attended.ids_eq server hmember
  have hold := ballots_lasting (extends_advance chronicle server view)
    (hviews _ (h.attended.present_seen server hmember))
  have hraised := hold.tally_term_le
  cases hmove with
  | adopt harrived hnewer =>
    have hnonneg := hold.term_nonneg
    exact {
      term_nonneg := Int.le_trans hnonneg (Int.le_of_lt hnewer)
      term_le := (henvelopes _ harrived.1).term_le
      term_pos := by simp
      tally_term_le := Int.le_trans hraised (Int.le_of_lt hnewer)
      voters_nodup := List.nodup_nil
      self_voted := fun hvoters => absurd rfl hvoters
      granted := by simp [View.retired, Tally.clear] }
  | concede =>
    exact { hold with
      voters_nodup := List.nodup_nil
      self_voted := fun hvoters => absurd rfl hvoters
      granted := by simp [View.retired, Tally.clear] }
  | vote harrived hterm hfree =>
    refine { hold with term_pos := fun candidate _ => ?_ }
    -- The candidate voted for itself in this term before it asked.
    obtain ⟨_, asking, hasking, _, hasking_term, hasking_vote, _⟩ :=
      (henvelopes _ harrived.1).asked _ rfl
    have hpositive := (hviews asking hasking).term_pos _ hasking_vote
    exact hasking_term.trans hterm ▸ hpositive
  | campaign hfollows hterm =>
    have hnonneg := hold.term_nonneg
    refine {
      term_nonneg := Int.le_add_one hnonneg
      term_le := hterm
      term_pos := fun _ _ => Int.le_add_of_nonneg_left hnonneg
      tally_term_le := Int.le_refl _
      voters_nodup := List.nodup_singleton _
      self_voted := fun _ => ⟨_, Set.mem_insert _ _, rfl, rfl, rfl⟩
      granted := fun voter hvoter => .inl (List.mem_singleton.mp hvoter) }
  | @countVote sender harrived hcounts =>
    have hrecord : (chronicle.present server).tally.record (chronicle.present server).term sender =
        { (chronicle.present server).tally with
          voters := sender :: (chronicle.present server).tally.voters } :=
      if_pos hcounts
    rw [hrecord] at hold ⊢
    have hsent : ⟨sender, (chronicle.present server).id,
        .voteResponse ⟨(chronicle.present server).tally.term, true⟩⟩ ∈ chronicle.sent := by
      rw [hid, ← hcounts.1]
      exact harrived.1
    refine { hold with voters_nodup := ?_, self_voted := fun _ => ?_, granted := ?_ }
    · exact List.nodup_cons.mpr ⟨hcounts.2, hold.voters_nodup⟩
    -- The vote answers a request that was made with the candidate's own vote cast.
    · obtain ⟨_, _, _, _, _, request, hrequest, hterm, _⟩ := (henvelopes _ hsent).granted _ rfl
      obtain ⟨_, asking, hasking, hasking_id, hasking_term, hasking_vote, _⟩ :=
        (henvelopes _ hrequest).asked _ rfl
      exact ⟨asking, Set.mem_insert_of_mem _ hasking, hasking_id, hasking_term.trans hterm,
        hasking_vote⟩
    · intro voter hvoter
      rcases List.mem_cons.mp hvoter with rfl | hvoter
      · exact .inr hsent
      · exact hold.granted voter hvoter
  | restart =>
    exact { hold with
      tally_term_le := hold.term_nonneg
      voters_nodup := List.nodup_nil
      self_voted := fun hvoters => absurd rfl hvoters
      granted := by simp }
  | _ => exact { hold with }

theorem Reachable.backed_of_post {server receiver : ServerId} {message : Message}
    (h : Reachable members chronicle) (hmember : server ∈ members)
    (hviews : ∀ old ∈ chronicle.seen, old.Ballots chronicle)
    (henvelopes : ∀ old ∈ chronicle.sent, old.Backed chronicle)
    (hvouches : (chronicle.present server).Vouches (chronicle.intake server) receiver message) :
    Envelope.Backed (chronicle.post ⟨server, receiver, message⟩) ⟨server, receiver, message⟩ := by
  have hid := h.attended.ids_eq server hmember
  have hseen := h.attended.present_seen server hmember
  have hterm : message.term = (chronicle.present server).term := by
    cases hvouches <;> first | rfl | assumption
  have hballots := hviews _ hseen
  refine ⟨hterm ▸ hballots.term_nonneg, hterm ▸ hballots.term_le, ?_, ?_⟩
  · rintro request rfl
    cases hvouches with
    | askVote hself =>
      exact ⟨hid, _, hseen, hid, rfl, hself.trans (congrArg some hid), rfl⟩
  · rintro term rfl
    cases hvouches with
    | @grant request harrived hrequest hvote hkey =>
      have hcandidate := ((henvelopes _ harrived.1).asked _ rfl).1
      exact ⟨_, hseen, hid, rfl, hvote.trans (congrArg some hcandidate), request,
        Set.mem_insert_of_mem _ harrived.1, hrequest, hkey⟩

/-- Views and messages stand behind each other, so neither goes without the other. -/
theorem Reachable.ballots_and_backed (h : Reachable members chronicle) :
    (∀ view ∈ chronicle.seen, view.Ballots chronicle) ∧
      ∀ envelope ∈ chronicle.sent, envelope.Backed chronicle := by
  apply h.recorded ballots_lasting backed_lasting
  · intro chronicle view _ hfresh
    constructor <;> simp [hfresh.term_eq, hfresh.votedFor_eq, hfresh.tally_eq, maxTerm]
  · exact fun _ _ _ => ballots_of_move
  · exact fun _ _ _ _ => backed_of_post

/-- Every view is right about terms and votes. -/
theorem Reachable.ballots (h : Reachable members chronicle) {view : View}
    (hseen : view ∈ chronicle.seen) : view.Ballots chronicle :=
  h.ballots_and_backed.1 view hseen

/-- Every message of an election is backed by a view of its sender. -/
theorem Reachable.backed (h : Reachable members chronicle) {envelope : Envelope}
    (hsent : envelope ∈ chronicle.sent) : envelope.Backed chronicle :=
  h.ballots_and_backed.2 envelope hsent

/-! ## Leaders -/

theorem Voted.mem_members (h : Reachable members chronicle) {voter candidate : ServerId}
    {term : Term} (hvoted : chronicle.Voted voter term candidate) : voter ∈ members := by
  obtain ⟨view, hseen, rfl, _⟩ := hvoted
  exact h.attended.seen_member view hseen

/-- The tally of a view holds votes that were cast. -/
theorem Reachable.voted_of_tally (h : Reachable members chronicle) {view : View}
    (hseen : view ∈ chronicle.seen) {voter : ServerId} (hvoter : voter ∈ view.tally.voters) :
    chronicle.Voted voter view.tally.term view.id := by
  rcases (h.ballots hseen).granted voter hvoter with rfl | hsent
  · exact (h.ballots hseen).self_voted (List.ne_nil_of_mem hvoter)
  · obtain ⟨granting, hgranting, hid, hterm, hvote, _⟩ := (h.backed hsent).granted _ rfl
    exact ⟨granting, hgranting, hid, hterm, hvote⟩

/-- As many votes as a majority come from a quorum. -/
theorem Reachable.quorum_of_tally (h : Reachable members chronicle) {server : ServerId}
    (hmember : server ∈ members)
    (hsize : (chronicle.present server).config.majority ≤ (chronicle.present server).tally.size) :
    IsQuorum members (chronicle.present server).tally.voters.toFinset := by
  have hseen := h.attended.present_seen server hmember
  apply (h.attended.lists server hmember).isQuorum
  · intro voter hvoter
    exact (h.voted_of_tally hseen (List.mem_toFinset.mp hvoter)).mem_members h
  · rwa [List.toFinset_card_of_nodup (h.ballots hseen).voters_nodup]

/-- A candidate with a majority of its own term was voted for by a quorum. -/
theorem Reachable.won_of_tally (h : Reachable members chronicle) {server : ServerId}
    (hmember : server ∈ members) (hterm : (chronicle.present server).tally.term =
      (chronicle.present server).term)
    (hsize : (chronicle.present server).config.majority ≤ (chronicle.present server).tally.size) :
    (chronicle.present server).votedFor = some server ∧
      chronicle.Won members server (chronicle.present server).term := by
  have hid := h.attended.ids_eq server hmember
  have hseen := h.attended.present_seen server hmember
  refine ⟨?_, _, h.quorum_of_tally hmember hsize, ?_⟩
  · have hvoters : (chronicle.present server).tally.voters ≠ [] := by
      intro hnil
      simp [Tally.size, hnil, Config.majority] at hsize
    obtain ⟨voting, hvoting, hvoting_id, hvoting_term, hvote⟩ :=
      (h.ballots hseen).self_voted hvoters
    rw [hid] at hvoting_id hvote
    have hpresent := (h.present_of_seen hvoting).2
    rw [hvoting_id, hvoting_term] at hpresent
    exact hpresent hterm.symm server hvote
  · intro voter hvoter
    have := h.voted_of_tally hseen (List.mem_toFinset.mp hvoter)
    rwa [hterm, hid] at this

/-- A server in the lead voted for itself and won its term. -/
theorem Reachable.won_of_leads (h : Reachable members chronicle) {view : View}
    (hseen : view ∈ chronicle.seen) (hleads : view.leads = true) :
    view.votedFor = some view.id ∧ chronicle.Won members view.id view.term := by
  have hlasting : Lasting fun chronicle (view : View) => view.leads = true →
      view.votedFor = some view.id ∧ chronicle.Won members view.id view.term :=
    fun _ _ hlater _ hwon hleads => (hwon hleads).imp_right (Won.of_extends hlater)
  refine h.recorded_views hlasting ?_ ?_ view hseen hleads
  · intro _ view _ hfresh hleads
    simp [hfresh.leads_eq] at hleads
  · intro chronicle server next h hmember hviews hmove hleads
    have hid := h.attended.ids_eq server hmember
    have hlater := extends_advance chronicle server next
    rw [hmove.id_eq, hid]
    obtain ⟨hterm, hled | ⟨_, hvote, _, _, htally, hsize⟩⟩ := hmove.leads_cases hleads
    · obtain ⟨hvote, hwon⟩ := hviews _ (h.attended.present_seen server hmember) hled
      rw [hid] at hvote hwon
      exact ⟨hmove.votedFor_eq hterm hvote, hterm ▸ hwon.of_extends hlater⟩
    · obtain ⟨hself, hwon⟩ := h.won_of_tally hmember htally hsize
      exact ⟨hvote.trans hself, hterm ▸ hwon.of_extends hlater⟩

/-- One term has one leader, whenever it was seen. -/
theorem Reachable.leader_unique (h : Reachable members chronicle) {first second : View}
    (hfirst : first ∈ chronicle.seen) (hsecond : second ∈ chronicle.seen)
    (hfirst_leads : first.leads = true) (hsecond_leads : second.leads = true)
    (hterm : first.term = second.term) : first.id = second.id := by
  have hone := (h.won_of_leads hfirst hfirst_leads).2
  have hother := (h.won_of_leads hsecond hsecond_leads).2
  rw [hterm] at hone
  exact h.won_unique hone hother

/-- A server whose tally is of its own term, once in the lead of it, is so still. -/
theorem Reachable.leads_of_led (h : Reachable members chronicle) {server : ServerId}
    (hmember : server ∈ members)
    (htally : (chronicle.present server).tally.term = (chronicle.present server).term)
    {leader : View} (hseen : leader ∈ chronicle.seen) (hleads : leader.leads = true)
    (hid : leader.id = server) (hterm : leader.term = (chronicle.present server).term) :
    (chronicle.present server).leads = true := by
  induction h with
  | genesis h =>
    obtain ⟨other, hother, rfl⟩ := (h.seen_iff leader).mp hseen
    simp [(h.fresh other hother).leads_eq] at hleads
  | @move chronicle mover next h hmover hmove ih =>
    rcases Set.mem_insert_iff.mp hseen with rfl | hold
    · have : server = mover :=
        hid.symm.trans (hmove.id_eq.trans (h.attended.ids_eq mover hmover))
      subst this
      rwa [present_advance_self]
    · by_cases heq : server = mover
      · subst heq
        rw [present_advance_self] at htally hterm ⊢
        have hpresent := (h.present_of_seen hold).1
        rw [hid] at hpresent
        have hpositive := (h.ballots hold).term_pos _ (h.won_of_leads hold hleads).1
        have hpresent_seen := h.attended.present_seen server hmember
        -- The tally is of its term again only after the next election.
        cases hmove with
        | adopt _ hnewer =>
          have hraised := (h.ballots hpresent_seen).tally_term_le
          exact absurd htally (Int.ne_of_lt (Int.lt_of_le_of_lt hraised hnewer))
        | concede hconcedes =>
          -- A leader concedes only to a candidate that it voted for, and it voted for itself.
          have hleading := ih htally hold hterm
          obtain ⟨sender, request, harrived, hvote⟩ := hconcedes hleading
          have hself := (h.won_of_leads hpresent_seen hleading).1
          rw [hvote, ((h.backed harrived.1).asked request rfl).1,
            h.attended.ids_eq server hmember] at hself
          exact absurd (Option.some.inj hself) (h.attended.sender_ne hmember harrived)
        | campaign =>
          exact absurd hterm (Int.ne_of_lt (Int.lt_add_one_of_le hpresent))
        | countVote _ hcounts =>
          exact ih hcounts.1.symm hold hterm
        | win => rfl
        | restart =>
          have htally : (0 : Int) = (chronicle.present server).term := htally
          lia
        | _ => exact ih htally hold hterm
      · rw [present_advance_of_ne _ _ heq] at htally hterm ⊢
        exact ih htally hold hterm
  | post _ _ _ ih => exact ih htally hseen hterm

/-- Whoever wins a term is the first to lead it. -/
theorem Reachable.leads_first (h : Reachable members chronicle) {server : ServerId} {next : View}
    (hmember : server ∈ members)
    (hmove : (chronicle.present server).Move (chronicle.intake server) next)
    (hfollows : (chronicle.present server).leads = false) (hleads : next.leads = true) :
    ∀ leader ∈ chronicle.seen, leader.leads = true → leader.term ≠ next.term := by
  intro leader hseen hled hterm
  obtain ⟨hsame, hleading | ⟨_, _, _, _, htally, _⟩⟩ := hmove.leads_cases hleads
  · simp [hfollows] at hleading
  · have hid : leader.id = next.id :=
      (h.move hmember hmove).leader_unique (Set.mem_insert_of_mem _ hseen) (Set.mem_insert _ _)
        hled hleads hterm
    rw [hmove.id_eq, h.attended.ids_eq server hmember] at hid
    have hleading := h.leads_of_led hmember htally hseen hled hid (hterm.trans hsame)
    simp [hfollows] at hleading

end Chronicle

end Consensus
