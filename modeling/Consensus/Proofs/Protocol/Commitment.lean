import Consensus.Proofs.Protocol.Completeness

/-! # Commitment

What a server takes for committed is part of what a quorum held in a leader's own
term, however the server learnt of it. Any two servers therefore agree on what they
have committed, and hand the same commands to their state machines.
-/

namespace Consensus

/-- The servers known to hold the index, the leader included. -/
def View.holders (view : View) (index : Index) : List ServerId :=
  view.id :: (view.matched.filter fun follower => decide (index ≤ follower.2)).map Prod.fst

namespace Chronicle

/-- In the term, the server was seen to share the entries up to the index with a leader. -/
def Acked (chronicle : Chronicle) (server : ServerId) (term : Term) (index : Index) : Prop :=
  ∃ view ∈ chronicle.seen, view.id = server ∧ view.term = term ∧
    ∃ leader ∈ chronicle.seen, leader.leads = true ∧ leader.term = term ∧
      ∃ shared, shared <+: view.log ∧ shared <+: leader.log ∧ index < shared.length

/-- A leader's match indices are those of distinct peers, and each was acknowledged. -/
structure Informed (chronicle : Chronicle) (view : View) : Prop where
  distinct : (view.matched.map Prod.fst).Nodup
  peers : ∀ follower ∈ view.matched, follower.1 ∈ view.config.peerIds
  acked : ∀ follower ∈ view.matched, 0 ≤ follower.2 →
    chronicle.Acked follower.1 view.term follower.2

/-- The entries are none, or the first of those that a quorum held in a term up to `bound`. -/
def Settled (chronicle : Chronicle) (members : Finset ServerId) (bound : Term)
    (entries : Entries) : Prop :=
  entries = [] ∨ ∃ front entry, chronicle.Committed members front entry ∧ entry.term ≤ bound ∧
    entries <+: front ++ [entry]

/-- What a view takes for committed, and hands out, is settled. -/
structure Secured (chronicle : Chronicle) (members : Finset ServerId) (view : View)
    (entries : Entries) : Prop where
  entries_isPrefix : entries <+: view.log
  length_eq : (entries.length : Int) = view.commitIndex + 1
  settled : chronicle.Settled members view.term entries
  delivered : ∀ delivery ∈ view.deliveries, ∃ entry, entries.read? delivery.index = some entry ∧
    Command.decode entry.command = .ok delivery.command

variable {members : Finset ServerId} {chronicle : Chronicle}

theorem Acked.of_extends {earlier later : Chronicle} (hlater : later.Extends earlier)
    {server : ServerId} {term : Term} {index : Index} (h : earlier.Acked server term index) :
    later.Acked server term index := by
  obtain ⟨view, hseen, hid, hterm, leader, hleader, hshared⟩ := h
  exact ⟨view, hlater.seen_subset hseen, hid, hterm, leader, hlater.seen_subset hleader, hshared⟩

theorem Acked.mono {server : ServerId} {term : Term} {low high : Index} (hle : low ≤ high)
    (h : chronicle.Acked server term high) : chronicle.Acked server term low := by
  obtain ⟨view, hseen, hid, hterm, leader, hleader, hleads, hleader_term, shared, hlog, hsource,
    hlt⟩ := h
  exact ⟨view, hseen, hid, hterm, leader, hleader, hleads, hleader_term, shared, hlog, hsource,
    Int.lt_of_le_of_lt hle hlt⟩

theorem Settled.of_extends {earlier later : Chronicle} (hlater : later.Extends earlier)
    {bound : Term} {entries : Entries} (h : earlier.Settled members bound entries) :
    later.Settled members bound entries := by
  rcases h with hnone | ⟨front, entry, hcommitted, hentry⟩
  · exact .inl hnone
  · exact .inr ⟨front, entry, hcommitted.of_extends hlater, hentry⟩

theorem Settled.mono {low high : Term} (hle : low ≤ high) {entries : Entries}
    (h : chronicle.Settled members low entries) : chronicle.Settled members high entries := by
  rcases h with hnone | ⟨front, entry, hcommitted, hterm, hbegins⟩
  · exact .inl hnone
  · exact .inr ⟨front, entry, hcommitted, Int.le_trans hterm hle, hbegins⟩

theorem Settled.of_isPrefix {bound : Term} {shorter longer : Entries} (hbegins : shorter <+: longer)
    (h : chronicle.Settled members bound longer) : chronicle.Settled members bound shorter := by
  rcases h with rfl | ⟨front, entry, hcommitted, hterm, hlonger⟩
  · exact .inl (List.prefix_nil.mp hbegins)
  · exact .inr ⟨front, entry, hcommitted, hterm, hbegins.trans hlonger⟩

/-! ## Acknowledgements -/

/-- A log reflects a request as far as it agrees with the log that the request shows. -/
theorem Reachable.shared_of_reflects (h : Reachable members chronicle) {view leader : View}
    (hseen : view ∈ chronicle.seen) (hleader : leader ∈ chronicle.seen) {request : AppendRequest}
    (hshows : leader.log.Shows request) (hreflects : view.log.Reflects request) :
    ∃ shared, shared <+: view.log ∧ shared <+: leader.log ∧
      (shared.length : Int) = request.lastNewIndex + 1 := by
  have htraced := (h.grounded hseen).traced
  have htraced_leader := (h.grounded hleader).traced
  cases hentry : request.entry with
  | none =>
    rw [AppendRequest.lastNewIndex, hentry]
    exact h.shared_of_holds htraced htraced_leader hreflects.holds_prev hshows.prev_termAt
  | some entry =>
    rw [AppendRequest.lastNewIndex, hentry]
    obtain ⟨_, hread⟩ := hshows.read?_entry hentry
    have hholds := (hreflects.holds_entry entry hentry).2
    exact h.shared_of_holds htraced htraced_leader hholds (Entries.termAt?_of_read? hread)

/-- A successful response speaks of entries that its sender shares with a leader. -/
theorem Reachable.acked_of_response (h : Reachable members chronicle)
    {sender receiver : ServerId} {response : AppendResponse}
    (hsent : ⟨sender, receiver, .appendResponse response⟩ ∈ chronicle.sent)
    (hsuccessful : response.successful = true) :
    chronicle.Acked response.serverId response.term response.matchLogIndex := by
  have hlasting : Lasting fun chronicle (envelope : Envelope) => ∀ response,
      envelope.message = .appendResponse response → response.successful = true →
        chronicle.Acked response.serverId response.term response.matchLogIndex :=
    fun _ _ hlater _ hacked response hmessage hsuccessful =>
      (hacked response hmessage hsuccessful).of_extends hlater
  refine h.recorded_envelopes hlasting ?_ _ hsent response rfl hsuccessful
  rintro chronicle server receiver _ h hmember _ hvouches response rfl hsuccessful
  cases hvouches with
  | acknowledge harrived hterm hreflects =>
    have hseen := h.attended.present_seen server hmember
    obtain ⟨leader, hshown⟩ := h.shown harrived.1
    obtain ⟨shared, hshared, hshared_leader, hlength⟩ :=
      h.shared_of_reflects hseen hshown.seen hshown.shows hreflects
    exact ⟨_, hseen, rfl, rfl, leader, hshown.seen, hshown.leads, hshown.term_eq.trans hterm,
      shared, hshared, hshared_leader, by lia⟩
  | decline => simp at hsuccessful

/-! ## What a leader knows -/

theorem informed_lasting : Lasting fun chronicle view =>
    view.leads = true → chronicle.Informed view :=
  fun _ _ hlater _ hinformed hleads => { hinformed hleads with
    acked := fun follower hfollower hnonneg =>
      ((hinformed hleads).acked follower hfollower hnonneg).of_extends hlater }

/-- Every leader knows no more than its peers acknowledged. -/
theorem Reachable.informed (h : Reachable members chronicle) {view : View}
    (hseen : view ∈ chronicle.seen) (hleads : view.leads = true) : chronicle.Informed view := by
  refine h.recorded_views informed_lasting ?_ ?_ view hseen hleads
  · intro _ _ _ hfresh hleads
    simp [hfresh.leads_eq] at hleads
  · intro chronicle server next h hmember hviews hmove hleads
    have hlater := extends_advance chronicle server next
    have hold := informed_lasting hlater (hviews _ (h.attended.present_seen server hmember))
    cases hmove with
    | win _ _ _ hdistinct hpeers hunknown =>
      refine ⟨hdistinct, hpeers, fun follower hfollower hnonneg => ?_⟩
      rw [hunknown follower hfollower] at hnonneg
      exact absurd hnonneg (by decide)
    | @learn matched hled hservers hreported =>
      have hold := hold hled
      refine ⟨hservers ▸ hold.distinct, ?_, ?_⟩
      · intro follower hfollower
        have hknown : follower.1 ∈ matched.map Prod.fst := List.mem_map_of_mem hfollower
        rw [hservers] at hknown
        obtain ⟨known, hknown, hsame⟩ := List.mem_map.mp hknown
        exact hsame ▸ hold.peers known hknown
      -- What is reported in this term is acknowledged in it.
      · intro follower hfollower hnonneg
        rcases hreported follower hfollower with hknown | ⟨sender, response, harrived, hterm,
          hsuccessful, hserver, hmatched⟩
        · exact hold.acked follower hknown hnonneg
        · have hacked := (h.acked_of_response harrived.1 hsuccessful).mono hmatched
          rw [hserver, hterm] at hacked
          exact hacked.of_extends hlater
    | adopt => simp [View.retired] at hleads
    | concede => simp [View.retired] at hleads
    | campaign hfollows =>
      rw [show (chronicle.present server).leads = true from hleads] at hfollows
      exact absurd hfollows (by decide)
    | restart => simp at hleads
    | _ => exact { hold hleads with }

theorem Informed.holders_nodup {view : View} (h : chronicle.Informed view)
    (hlists : view.config.Lists members) (index : Index) : (view.holders index).Nodup := by
  refine List.nodup_cons.mpr ⟨?_, h.distinct.sublist (List.filter_sublist.map _)⟩
  intro hself
  obtain ⟨follower, hfollower, hsame⟩ := List.mem_map.mp hself
  have hpeer := h.peers follower (List.mem_filter.mp hfollower).1
  exact ((hlists.mem_peerIds_iff _).mp hpeer).2 hsame

/-- What a majority acknowledged to a leader of the same term, a quorum held. -/
theorem Reachable.committed_of_replicated (h : Reachable members chronicle) {server : ServerId}
    (hmember : server ∈ members) (hleads : (chronicle.present server).leads = true)
    {index : Index} {entry : Entry}
    (hread : (chronicle.present server).log.read? index = some entry)
    (hterm : entry.term = (chronicle.present server).term)
    (hquorum : (chronicle.present server).Replicated index) :
    ∃ front, front ++ [entry] <+: (chronicle.present server).log ∧
      (front.length : Int) = index ∧ chronicle.Committed members front entry := by
  have hseen := h.attended.present_seen server hmember
  have hlists := h.attended.lists server hmember
  have hinformed := h.informed hseen hleads
  obtain ⟨front, hfront, hlength⟩ := Entries.exists_front_of_read? hread
  refine ⟨front, hfront, hlength, ⟨_, hseen, hleads, hterm.symm, hfront⟩,
    ((chronicle.present server).holders index).toFinset, ?_, ?_⟩
  · apply hlists.isQuorum
    · intro holder hholder
      rcases List.mem_cons.mp (List.mem_toFinset.mp hholder) with rfl | hreached
      · exact h.attended.seen_member _ hseen
      · obtain ⟨follower, hfollower, rfl⟩ := List.mem_map.mp hreached
        have hpeer := hinformed.peers follower (List.mem_filter.mp hfollower).1
        exact ((hlists.mem_peerIds_iff _).mp hpeer).1
    · rw [List.toFinset_card_of_nodup (hinformed.holders_nodup hlists index), View.holders,
        List.length_cons, List.length_map, ← List.countP_eq_length_filter]
      exact hquorum
  · intro holder hholder
    rcases List.mem_cons.mp (List.mem_toFinset.mp hholder) with rfl | hreached
    · exact ⟨_, hseen, rfl, hterm.symm, hfront⟩
    -- The follower shared the entries with a leader of this term, and so with this one.
    · obtain ⟨follower, hfollower, rfl⟩ := List.mem_map.mp hreached
      obtain ⟨hknown, hreached⟩ := List.mem_filter.mp hfollower
      have hnonneg := (Entries.bounds_of_read? hread).1
      have hindex : index ≤ follower.2 := of_decide_eq_true hreached
      obtain ⟨view, hview, hid, hview_term, leader, hleader, hleader_leads, hleader_term, shared,
        hshared, hshared_leader, hlt⟩ :=
        hinformed.acked follower hknown (Int.le_trans hnonneg hindex)
      refine ⟨view, hview, hid, hview_term.trans hterm.symm, ?_⟩
      have hshort : (front ++ [entry]).length ≤ shared.length := by
        rw [List.length_append, List.length_singleton]
        lia
      exact (h.isPrefix_of_leaders hseen hleader hleads hleader_leads hleader_term.symm hfront
        hshared_leader hshort).trans hshared

/-! ## Security -/

theorem secured_lasting : Lasting fun chronicle view =>
    ∃ entries, chronicle.Secured members view entries := by
  rintro _ _ hlater view ⟨entries, h⟩
  exact ⟨entries, { h with settled := h.settled.of_extends hlater }⟩

/-- A server that learns of a commit index learns it from a leader whose own is secured. -/
theorem Reachable.settled_of_heeds (h : Reachable members chronicle) {server : ServerId}
    (hmember : server ∈ members) {request : AppendRequest}
    (hheeds : (chronicle.present server).Heeds (chronicle.intake server) request)
    (hreflects : (chronicle.present server).log.Reflects request)
    (hviews : ∀ view ∈ chronicle.seen, ∃ entries, chronicle.Secured members view entries)
    {index : Index} (hnonneg : 0 ≤ index + 1) (hcommit : index ≤ request.leaderCommit)
    (hnew : index ≤ request.lastNewIndex) :
    ∃ entries, entries <+: (chronicle.present server).log ∧ (entries.length : Int) = index + 1 ∧
      chronicle.Settled members (chronicle.present server).term entries := by
  obtain ⟨_, leader, _, hshown, hterm⟩ := h.shown_of_heeds hmember hheeds
  obtain ⟨shared, hshared, hshared_leader, hlength⟩ :=
    h.shared_of_reflects (h.attended.present_seen server hmember) hshown.seen hshown.shows
      hreflects
  obtain ⟨entries, hsecured⟩ := hviews leader hshown.seen
  have hentries_length := hsecured.length_eq
  rw [hshown.commit_eq] at hentries_length
  have hcut : entries.take (index + 1).toNat <+: entries := List.take_prefix _ _
  have hcut_length : ((entries.take (index + 1).toNat).length : Int) = index + 1 := by
    rw [List.length_take]
    lia
  refine ⟨_, ?_, hcut_length, hterm ▸ hsecured.settled.of_isPrefix hcut⟩
  have hcut_leader := hcut.trans hsecured.entries_isPrefix
  exact (Entries.isPrefix_of_isPrefix hcut_leader hshared_leader (by lia)).trans hshared

/-- A higher commit index keeps what was handed out below it. -/
theorem Secured.raise {view : View} {entries longer : Entries}
    (h : chronicle.Secured members view entries) (hbegins : longer <+: view.log) {index : Index}
    (hlength : (longer.length : Int) = index + 1) (hraise : view.commitIndex < index)
    (hsettled : chronicle.Settled members view.term longer) :
    chronicle.Secured members { view with commitIndex := index } longer := by
  refine ⟨hbegins, hlength, hsettled, fun delivery hdelivery => ?_⟩
  obtain ⟨entry, hread, hdecode⟩ := h.delivered delivery hdelivery
  have hshort := h.length_eq
  exact ⟨entry, Entries.read?_of_isPrefix
    (Entries.isPrefix_of_isPrefix h.entries_isPrefix hbegins (by lia)) hread, hdecode⟩

/-- What a member commits in a move is settled. -/
theorem Reachable.secured_of_move (h : Reachable members chronicle) {server : ServerId}
    {next : View} (hmember : server ∈ members)
    (hviews : ∀ view ∈ chronicle.seen, ∃ entries, chronicle.Secured members view entries)
    (hmove : (chronicle.present server).Move (chronicle.intake server) next) :
    ∃ entries, chronicle.Secured members next entries := by
  obtain ⟨entries, hold⟩ := hviews _ (h.attended.present_seen server hmember)
  have hlength := hold.length_eq
  cases hmove with
  | adopt _ hnewer =>
    exact ⟨entries, { hold with settled := hold.settled.mono (Int.le_of_lt hnewer) }⟩
  | campaign =>
    exact ⟨entries, { hold with settled := hold.settled.mono (Int.le_add_one (Int.le_refl _)) }⟩
  | extend =>
    exact ⟨entries, { hold with
      entries_isPrefix := hold.entries_isPrefix.trans (List.prefix_append _ _) }⟩
  | commit hleads hraise hterm hquorum =>
    have hplace : nullIndex < _ := Int.lt_of_le_of_lt (b := (chronicle.present server).commitIndex)
      (by simp only [nullIndex]; lia) hraise
    obtain ⟨entry, hread, hentry⟩ :=
      (Entries.termAt?_eq_some hterm).resolve_left (Int.ne_of_gt hplace)
    obtain ⟨front, hfront, hfront_length, hcommitted⟩ :=
      h.committed_of_replicated hmember hleads hread hentry hquorum
    refine ⟨front ++ [entry], hold.raise hfront ?_ hraise
      (.inr ⟨front, entry, hcommitted, Int.le_of_eq hentry, List.prefix_rfl⟩)⟩
    rw [List.length_append, List.length_singleton]
    lia
  -- Only what is behind the commit index is dropped.
  | @truncate request index _ _ hopen =>
    refine ⟨entries, { hold with
      entries_isPrefix := List.prefix_take_iff.mpr ⟨hold.entries_isPrefix, ?_⟩ }⟩
    lia
  | place =>
    exact ⟨entries, { hold with
      entries_isPrefix := hold.entries_isPrefix.trans (List.prefix_append _ _) }⟩
  -- The sender had committed as much, and the log is the sender's as far as the request reaches.
  | followCommit hheeds hreflects hraise =>
    obtain ⟨longer, hbegins, hlonger, hsettled⟩ := h.settled_of_heeds hmember hheeds hreflects
      hviews (by lia) (Int.min_le_left _ _) (Int.min_le_right _ _)
    exact ⟨longer, hold.raise hbegins hlonger hraise hsettled⟩
  | @deliver entry command hdue hread hdecode =>
    refine ⟨entries, { hold with delivered := fun delivery hdelivery => ?_ }⟩
    rcases List.mem_append.mp hdelivery with hdelivery | hdelivery
    · exact hold.delivered delivery hdelivery
    · rw [List.mem_singleton.mp hdelivery]
      exact ⟨entry, Entries.read?_of_isPrefix_of_lt hold.entries_isPrefix hread (by lia), hdecode⟩
  | restart =>
    exact ⟨[], List.nil_prefix, rfl, .inl rfl, by simp⟩
  | _ => exact ⟨entries, { hold with }⟩

/-- Whatever was taken for committed is settled. -/
theorem Reachable.secured (h : Reachable members chronicle) {view : View}
    (hseen : view ∈ chronicle.seen) : ∃ entries, chronicle.Secured members view entries := by
  refine h.recorded_views secured_lasting ?_ ?_ view hseen
  · intro chronicle view _ hfresh
    refine ⟨[], List.nil_prefix, ?_, .inl rfl, ?_⟩
    · rw [hfresh.commitIndex_eq]
      rfl
    · simp [hfresh.deliveries_eq]
  · intro chronicle server next h hmember hviews hmove
    obtain ⟨entries, hsecured⟩ := h.secured_of_move hmember hviews hmove
    exact ⟨entries, { hsecured with
      settled := hsecured.settled.of_extends (extends_advance ..) }⟩

/-! ## Agreement -/

/-- Any two settled logs start one log. -/
theorem Reachable.settled_comparable (h : Reachable members chronicle) {low high : Term}
    {first second : Entries} (hfirst : chronicle.Settled members low first)
    (hsecond : chronicle.Settled members high second) :
    ∃ log, first <+: log ∧ second <+: log := by
  rcases hfirst with rfl | ⟨front, entry, hcommitted, _, hfirst⟩
  · exact ⟨second, List.nil_prefix, List.prefix_rfl⟩
  rcases hsecond with rfl | ⟨others, other, hcommitted_other, _, hsecond⟩
  · exact ⟨first, List.prefix_rfl, List.nil_prefix⟩
  obtain ⟨maker, hmaker, hmaker_leads, hmaker_term, hmaker_log⟩ := hcommitted.created
  obtain ⟨creator, hcreator, hcreator_leads, hcreator_term, hcreator_log⟩ :=
    hcommitted_other.created
  -- Of two committed entries, the leader that made the later one has the earlier one.
  rcases Int.lt_trichotomy entry.term other.term with hlt | heq | hgt
  · have := h.prefix_of_committed hcommitted hcreator hcreator_leads (hcreator_term ▸ hlt)
    exact ⟨creator.log, hfirst.trans this, hsecond.trans hcreator_log⟩
  · rcases h.leader_logs hmaker hcreator hmaker_leads hcreator_leads
      (hmaker_term.trans (heq.trans hcreator_term.symm)) with hlogs | hlogs
    · exact ⟨creator.log, hfirst.trans (hmaker_log.trans hlogs), hsecond.trans hcreator_log⟩
    · exact ⟨maker.log, hfirst.trans hmaker_log, hsecond.trans (hcreator_log.trans hlogs)⟩
  · have := h.prefix_of_committed hcommitted_other hmaker hmaker_leads (hmaker_term ▸ hgt)
    exact ⟨maker.log, hfirst.trans hmaker_log, hsecond.trans this⟩

/-- State machines are handed one command for one index. -/
theorem Reachable.delivered_unique (h : Reachable members chronicle) {first second : View}
    (hfirst : first ∈ chronicle.seen) (hsecond : second ∈ chronicle.seen)
    {one other : Delivery} (hone : one ∈ first.deliveries) (hother : other ∈ second.deliveries)
    (hindex : one.index = other.index) : one.command = other.command := by
  obtain ⟨entries, hsecured⟩ := h.secured hfirst
  obtain ⟨others, hsecured_other⟩ := h.secured hsecond
  obtain ⟨entry, hread, hdecode⟩ := hsecured.delivered one hone
  obtain ⟨entry_other, hread_other, hdecode_other⟩ := hsecured_other.delivered other hother
  obtain ⟨log, hlog, hlog_other⟩ :=
    h.settled_comparable hsecured.settled hsecured_other.settled
  rw [← hindex] at hread_other
  have hsame := Entries.eq_of_read?_of_isPrefix hlog hlog_other hread hread_other
  rw [hsame, hdecode_other] at hdecode
  exact (Except.ok.inj hdecode).symm

/-- What a server has committed, every leader of a later term has. -/
theorem Reachable.committed_in_later_leaders (h : Reachable members chronicle)
    {view leader : View} (hseen : view ∈ chronicle.seen) (hleader : leader ∈ chronicle.seen)
    (hleads : leader.leads = true) (hterm : view.term < leader.term) {index : Index}
    {entry : Entry} (hcommitted : index ≤ view.commitIndex)
    (hread : view.log.read? index = some entry) : leader.log.read? index = some entry := by
  obtain ⟨entries, hsecured⟩ := h.secured hseen
  have hlength := hsecured.length_eq
  have hread_entries := Entries.read?_of_isPrefix_of_lt hsecured.entries_isPrefix hread (by lia)
  rcases hsecured.settled with rfl | ⟨front, last, hquorum, hlast, hbegins⟩
  · simp [Entries.read?] at hread_entries
  · have hhas := h.prefix_of_committed hquorum hleader hleads (Int.lt_of_le_of_lt hlast hterm)
    exact Entries.read?_of_isPrefix (hbegins.trans hhas) hread_entries

end Chronicle

end Consensus
