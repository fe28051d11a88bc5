import Consensus.Proofs.Protocol.Matching

/-! # Leader completeness

A server gives up an entry only for a leader of a later term that does not have it. A
quorum that holds an entry of its own term therefore shares a voter with the election
of each later leader, and the comparison of last keys leaves that leader no choice but
to have the entry too.
-/

namespace Consensus

/-- Where a log contradicts a request, it differs from the log that the request shows. -/
theorem Entries.Contradicts.exists_differing {log source : Entries} {request : AppendRequest}
    {index : Index} (h : log.Contradicts request index) (hshows : source.Shows request) :
    ∃ entry other, log.read? index = some entry ∧ source.read? index = some other ∧
      entry.term ≠ other.term := by
  cases h with
  | prev hconflicts =>
    obtain ⟨entry, hread, hterm⟩ := hconflicts
    rcases Entries.termAt?_eq_some hshows.prev_termAt with hnull | ⟨other, hother, hother_term⟩
    · obtain ⟨hnonneg, _⟩ := Entries.bounds_of_read? hread
      rw [hnull] at hnonneg
      exact absurd hnonneg (by decide)
    · exact ⟨entry, other, hread, hother, hother_term ▸ hterm⟩
  | entry hentry _ hconflicts =>
    obtain ⟨entry, hread, hterm⟩ := hconflicts
    exact ⟨entry, _, hread, (hshows.read?_entry hentry).2, hterm⟩

namespace Chronicle

/-- A leader was seen, of a later term than the entry's and up to `bound`, that does not
have the entry. -/
def Lost (chronicle : Chronicle) (bound : Term) (front : Entries) (entry : Entry) : Prop :=
  ∃ leader ∈ chronicle.seen, leader.leads = true ∧ entry.term < leader.term ∧
    leader.term ≤ bound ∧ ¬ front ++ [entry] <+: leader.log

/-- The view has what its server once held in an earlier term, unless that was lost up to
`bound`. -/
def Retains (chronicle : Chronicle) (bound : Term) (view : View) : Prop :=
  ∀ earlier ∈ chronicle.seen, earlier.id = view.id → earlier.term < view.term →
    ∀ front entry, front ++ [entry] <+: earlier.log →
      front ++ [entry] <+: view.log ∨ chronicle.Lost bound front entry

/-- What stands behind a leader's election: its log at the time, and a quorum of voters
whose logs were not more up to date. -/
structure Elected (chronicle : Chronicle) (members : Finset ServerId) (leader : View)
    (base : Entries) (voters : Finset ServerId) : Prop where
  base_isPrefix : base <+: leader.log
  base_terms : ∀ entry ∈ base, entry.term < leader.term
  quorum : IsQuorum members voters
  voted : ∀ voter ∈ voters, ∃ view ∈ chronicle.seen, view.id = voter ∧
    view.term = leader.term ∧ base.lastKey.AtLeastAsUpToDate view.log.lastKey ∧
    chronicle.Retains (leader.term - 1) view

/-- A quorum of the members held the entry in the entry's own term. -/
structure Committed (chronicle : Chronicle) (members : Finset ServerId) (front : Entries)
    (entry : Entry) : Prop where
  created : chronicle.Created front entry
  held : ∃ holders, IsQuorum members holders ∧ ∀ holder ∈ holders, ∃ view ∈ chronicle.seen,
    view.id = holder ∧ view.term = entry.term ∧ front ++ [entry] <+: view.log

variable {members : Finset ServerId} {chronicle : Chronicle}

theorem Lost.of_extends {earlier later : Chronicle} (hlater : later.Extends earlier)
    {bound : Term} {front : Entries} {entry : Entry} (h : earlier.Lost bound front entry) :
    later.Lost bound front entry := by
  obtain ⟨leader, hseen, hleader⟩ := h
  exact ⟨leader, hlater.seen_subset hseen, hleader⟩

theorem Lost.mono {low high : Term} (hle : low ≤ high) {front : Entries} {entry : Entry}
    (h : chronicle.Lost low front entry) : chronicle.Lost high front entry := by
  obtain ⟨leader, hseen, hleads, hlater, hbound, hlacks⟩ := h
  exact ⟨leader, hseen, hleads, hlater, Int.le_trans hbound hle, hlacks⟩

theorem Committed.of_extends {earlier later : Chronicle} (hlater : later.Extends earlier)
    {front : Entries} {entry : Entry} (h : earlier.Committed members front entry) :
    later.Committed members front entry := by
  obtain ⟨holders, hquorum, hheld⟩ := h.held
  refine ⟨h.created.of_extends hlater, holders, hquorum, fun holder hholder => ?_⟩
  obtain ⟨view, hseen, hview⟩ := hheld holder hholder
  exact ⟨view, hlater.seen_subset hseen, hview⟩

/-! ## Retention -/

/-- An entry that a server drops for a leader is one that the leader does not have. -/
theorem Reachable.lost_of_truncate (h : Reachable members chronicle) {server : ServerId}
    (hmember : server ∈ members) {request : AppendRequest} {index : Index}
    (hheeds : (chronicle.present server).Heeds (chronicle.intake server) request)
    (hcontra : (chronicle.present server).log.Contradicts request index)
    {front : Entries} {entry : Entry}
    (hheld : front ++ [entry] <+: (chronicle.present server).log) (hcut : index ≤ front.length) :
    chronicle.Lost (chronicle.present server).term front entry := by
  obtain ⟨_, leader, _, hshown, hterm⟩ := h.shown_of_heeds hmember hheeds
  obtain ⟨one, other, hone, hother, hdiffer⟩ := hcontra.exists_differing hshown.shows
  have hgrounded := h.grounded (h.attended.present_seen server hmember)
  have hone_front : (front ++ [entry]).read? index = some one := by
    apply Entries.read?_of_isPrefix_of_lt hheld hone
    rw [List.length_append, List.length_singleton]
    lia
  have hlacks : ∀ log, log <+: leader.log ∨ leader.log <+: log → ¬ front ++ [entry] <+: log := by
    intro log hlogs hbegins
    have hone_log := Entries.read?_of_isPrefix hbegins hone_front
    rcases hlogs with hlog | hlog
    · have := (Entries.read?_of_isPrefix hlog hone_log).symm.trans hother
      exact hdiffer (congrArg Entry.term (Option.some.inj this))
    · have := hone_log.symm.trans (Entries.read?_of_isPrefix hlog hother)
      exact hdiffer (congrArg Entry.term (Option.some.inj this))
  refine ⟨leader, hshown.seen, hshown.leads, ?_, Int.le_of_eq hterm,
    hlacks _ (.inl List.prefix_rfl)⟩
  -- In the entry's own term, the leader's log continues what the entry was created in.
  apply lt_of_le_of_ne
  · exact hterm ▸ (hgrounded.terms entry (hheld.subset (by simp))).2
  · intro hsame
    obtain ⟨maker, hmaker, hmaker_leads, hmaker_term, hmaker_log⟩ :=
      hgrounded.traced front entry hheld
    exact hlacks _ (h.leader_logs hmaker hshown.seen hmaker_leads hshown.leads
      (hmaker_term.trans hsame)) hmaker_log

/-- What a server once held, it holds still or has lost by now. -/
theorem Reachable.kept (h : Reachable members chronicle) {view : View}
    (hseen : view ∈ chronicle.seen) {front : Entries} {entry : Entry}
    (hheld : front ++ [entry] <+: view.log) :
    front ++ [entry] <+: (chronicle.present view.id).log ∨
      chronicle.Lost (chronicle.present view.id).term front entry := by
  induction h with
  | genesis h =>
    obtain ⟨server, hserver, rfl⟩ := (h.seen_iff view).mp hseen
    rw [h.ids_eq server hserver]
    exact .inl hheld
  | @move chronicle server next h hmember hmove ih =>
    have hid : next.id = server := hmove.id_eq.trans (h.attended.ids_eq server hmember)
    have hlater := extends_advance chronicle server next
    rcases Set.mem_insert_iff.mp hseen with rfl | hold
    · rw [hid, present_advance_self]
      exact .inl hheld
    · by_cases heq : view.id = server
      · have ih := ih hold
        rw [heq] at ih ⊢
        rw [present_advance_self]
        rcases ih with hkept | hlost
        · rcases hmove.log_cases with hlog | ⟨_, _, _, _, command, hlog⟩ |
            ⟨request, hheeds, hsame, _, ⟨index, hcontra, _, hlog⟩ | ⟨_, _, _, _, _, hlog⟩⟩
          · exact .inl (hlog ▸ hkept)
          · exact .inl (hlog ▸ hkept.trans (List.prefix_append _ _))
          -- A cut in front of the entry loses it to the leader that is heeded.
          · by_cases hcut : index ≤ front.length
            · have hlost := h.lost_of_truncate hmember hheeds hcontra hkept hcut
              exact .inr (hsame ▸ hlost.of_extends hlater)
            · refine .inl (hlog ▸ List.prefix_take_iff.mpr ⟨hkept, ?_⟩)
              rw [List.length_append, List.length_singleton]
              lia
          · exact .inl (hlog ▸ hkept.trans (List.prefix_append _ _))
        · exact .inr ((hlost.mono hmove.term_le).of_extends hlater)
      · rw [present_advance_of_ne _ _ heq]
        exact (ih hold).imp_right (Lost.of_extends hlater)
  | post _ _ _ ih => exact ih hseen

/-- Nothing that a server does later changes what a view of it retains. -/
theorem Retains.of_move (h : Reachable members chronicle) {server : ServerId} {next : View}
    (hmember : server ∈ members)
    (hmove : (chronicle.present server).Move (chronicle.intake server) next) {view : View}
    (hseen : view ∈ chronicle.seen) {bound : Term} (hretains : chronicle.Retains bound view) :
    (chronicle.advance server next).Retains bound view := by
  intro earlier hearlier hsame hterm front entry hheld
  rcases Set.mem_insert_iff.mp hearlier with rfl | hold
  · have hcame := (h.present_of_seen hseen).1
    rw [← hsame, hmove.id_eq, h.attended.ids_eq server hmember] at hcame
    have := hmove.term_le
    lia
  · exact (hretains earlier hold hsame hterm front entry hheld).imp_right
      (Lost.of_extends (extends_advance ..))

/-- Every view has what its server once held in an earlier term, unless that was lost. -/
theorem Reachable.retains (h : Reachable members chronicle) {view : View}
    (hseen : view ∈ chronicle.seen) : chronicle.Retains view.term view := by
  induction h with
  | genesis h =>
    intro earlier hearlier _ _ front entry hheld
    obtain ⟨server, hserver, rfl⟩ := (h.seen_iff earlier).mp hearlier
    simp [(h.fresh server hserver).log_eq] at hheld
  | @move chronicle server next h hmember hmove ih =>
    rcases Set.mem_insert_iff.mp hseen with rfl | hold
    · intro earlier hearlier hsame _ front entry hheld
      have hid : view.id = server := hmove.id_eq.trans (h.attended.ids_eq server hmember)
      have hkept := (h.move hmember hmove).kept hearlier hheld
      rwa [hsame, hid, present_advance_self] at hkept
    · exact (ih hold).of_move h hmember hmove hold
  | post _ _ _ ih => exact ih hseen

/-- Before a term has a leader, nothing is lost in it. -/
theorem Reachable.retains_of_unled (h : Reachable members chronicle) {view : View}
    (hseen : view ∈ chronicle.seen)
    (hunled : ∀ leader ∈ chronicle.seen, leader.leads = true → leader.term ≠ view.term) :
    chronicle.Retains (view.term - 1) view := by
  intro earlier hearlier hsame hterm front entry hheld
  apply (h.retains hseen earlier hearlier hsame hterm front entry hheld).imp_right
  rintro ⟨leader, hleader, hleads, hlater, hbound, hlacks⟩
  have := hunled leader hleader hleads
  exact ⟨leader, hleader, hleads, hlater, by lia, hlacks⟩

/-- Before its term has a leader, a server's log stays as it is. -/
theorem Reachable.log_of_unled (h : Reachable members chronicle) {view : View}
    (hseen : view ∈ chronicle.seen) (hterm : (chronicle.present view.id).term = view.term)
    (hunled : ∀ leader ∈ chronicle.seen, leader.leads = true → leader.term ≠ view.term) :
    (chronicle.present view.id).log = view.log := by
  induction h with
  | genesis h =>
    obtain ⟨server, hserver, rfl⟩ := (h.seen_iff view).mp hseen
    rw [h.ids_eq server hserver]
  | @move chronicle server next h hmember hmove ih =>
    have hid : next.id = server := hmove.id_eq.trans (h.attended.ids_eq server hmember)
    rcases Set.mem_insert_iff.mp hseen with rfl | hold
    · rw [hid, present_advance_self]
    · have hunled_old : ∀ leader ∈ chronicle.seen, leader.leads = true →
          leader.term ≠ view.term :=
        fun leader hleader => hunled leader (Set.mem_insert_of_mem _ hleader)
      by_cases heq : view.id = server
      · have hcame := (h.present_of_seen hold).1
        rw [heq] at hcame ih hterm ⊢
        rw [present_advance_self] at hterm ⊢
        have hpresent : (chronicle.present server).term = view.term := by
          have := hmove.term_le
          lia
        have hkept := ih hold hpresent hunled_old
        rcases hmove.log_cases with hlog | ⟨_, hled, _⟩ | ⟨request, hheeds, _⟩
        · exact hlog.trans hkept
        · exact absurd hpresent
            (hunled_old _ (h.attended.present_seen server hmember) hled)
        · obtain ⟨_, leader, _, hshown, hleader⟩ := h.shown_of_heeds hmember hheeds
          exact absurd (hleader.trans hpresent) (hunled_old leader hshown.seen hshown.leads)
      · rw [present_advance_of_ne _ _ heq] at hterm ⊢
        exact ih hold hterm hunled_old
  | post _ _ _ ih => exact ih hseen hterm hunled

/-! ## Elections -/

theorem Elected.of_move (h : Reachable members chronicle) {server : ServerId} {next : View}
    (hmember : server ∈ members)
    (hmove : (chronicle.present server).Move (chronicle.intake server) next) {leader : View}
    {base : Entries} {voters : Finset ServerId}
    (helected : chronicle.Elected members leader base voters) :
    (chronicle.advance server next).Elected members leader base voters := by
  refine { helected with voted := fun voter hvoter => ?_ }
  obtain ⟨view, hseen, hid, hterm, hkey, hretains⟩ := helected.voted voter hvoter
  exact ⟨view, Set.mem_insert_of_mem _ hseen, hid, hterm, hkey,
    hretains.of_move h hmember hmove hseen⟩

/-- A tally that reaches a majority before its term has a leader elects its server. -/
theorem Reachable.elected_of_tally (h : Reachable members chronicle) {server : ServerId}
    (hmember : server ∈ members)
    (htally : (chronicle.present server).tally.term = (chronicle.present server).term)
    (hsize : (chronicle.present server).config.majority ≤ (chronicle.present server).tally.size)
    (hunled : ∀ leader ∈ chronicle.seen, leader.leads = true →
      leader.term ≠ (chronicle.present server).term) :
    chronicle.Elected members (chronicle.present server) (chronicle.present server).log
      (chronicle.present server).tally.voters.toFinset := by
  have hid := h.attended.ids_eq server hmember
  have hseen := h.attended.present_seen server hmember
  have hgrounded := h.grounded hseen
  refine ⟨List.prefix_rfl, ?_, h.quorum_of_tally hmember hsize, ?_⟩
  · intro entry hentry
    obtain ⟨front, hfront⟩ := Entries.exists_front_of_mem hentry
    obtain ⟨maker, hmaker, hmaker_leads, hmaker_term, _⟩ := hgrounded.traced front entry hfront
    have := hunled maker hmaker hmaker_leads
    have := (hgrounded.terms entry hentry).2
    lia
  · intro voter hvoter
    rcases (h.ballots hseen).granted voter (List.mem_toFinset.mp hvoter) with rfl | hsent
    · exact ⟨_, hseen, rfl, rfl, LogKey.atLeastAsUpToDate_refl _,
        h.retains_of_unled hseen hunled⟩
    · obtain ⟨view, hview, hview_id, hview_term, _, request, hrequest, hrequest_term, hkey⟩ :=
        (h.backed hsent).granted _ rfl
      obtain ⟨_, asking, hasking, hasking_id, hasking_term, _, hasking_key⟩ :=
        (h.backed hrequest).asked _ rfl
      have hterm : view.term = (chronicle.present server).term := hview_term.trans htally
      have hasking_now : asking.term = (chronicle.present server).term :=
        hasking_term.trans (hrequest_term.trans htally)
      -- The log is the one that the candidate asked with.
      have hlog : (chronicle.present server).log = asking.log := by
        have hsame : asking.id = server := hasking_id.trans hid
        have := h.log_of_unled hasking
        rw [hsame, hasking_now] at this
        exact this rfl hunled
      refine ⟨view, hview, hview_id, hterm, ?_, hterm ▸ h.retains_of_unled hview (hterm ▸ hunled)⟩
      rwa [hlog, ← hasking_key]

/-- A quorum of voters stands behind every leader. -/
theorem Reachable.elected (h : Reachable members chronicle) {leader : View}
    (hseen : leader ∈ chronicle.seen) (hleads : leader.leads = true) :
    ∃ base voters, chronicle.Elected members leader base voters := by
  induction h generalizing leader with
  | genesis h =>
    obtain ⟨server, hserver, rfl⟩ := (h.seen_iff leader).mp hseen
    simp [(h.fresh server hserver).leads_eq] at hleads
  | @move chronicle server next h hmember hmove ih =>
    rcases Set.mem_insert_iff.mp hseen with rfl | hold
    · obtain ⟨hterm, hled | ⟨hfollows, _, hlog, _, htally, hsize⟩⟩ := hmove.leads_cases hleads
      · obtain ⟨base, voters, helected⟩ :=
          ih (h.attended.present_seen server hmember) hled
        have hkept : (chronicle.present server).log <+: leader.log := by
          rcases hmove.log_cases with hlog | ⟨_, _, _, _, _, hlog⟩ | ⟨_, hheeds, _⟩
          · exact hlog ▸ List.prefix_rfl
          · exact hlog ▸ List.prefix_append _ _
          · exact absurd hled (by simp [hheeds.follows])
        have helected := helected.of_move h hmember hmove
        exact ⟨base, voters, helected.base_isPrefix.trans hkept, hterm ▸ helected.base_terms,
          helected.quorum, hterm ▸ helected.voted⟩
      · have hunled := h.leads_first hmember hmove hfollows hleads
        rw [hterm] at hunled
        have helected :=
          (h.elected_of_tally hmember htally hsize hunled).of_move h hmember hmove
        exact ⟨(chronicle.present server).log, _, by rw [hlog], hterm ▸ helected.base_terms,
          helected.quorum, hterm ▸ helected.voted⟩
    · obtain ⟨base, voters, helected⟩ := ih hold hleads
      exact ⟨base, voters, helected.of_move h hmember hmove⟩
  | post _ _ _ ih =>
    obtain ⟨base, voters, helected⟩ := ih hseen hleads
    exact ⟨base, voters, { helected with }⟩

/-! ## Completeness -/

/-- A log that is no less up to date than one with a created entry has the entry, provided
that the leaders who made its later terms have it. -/
theorem Reachable.prefix_of_lastKey (h : Reachable members chronicle) {view : View}
    (hseen : view ∈ chronicle.seen) {front base : Entries} {entry : Entry}
    (hcreated : chronicle.Created front entry) (hheld : front ++ [entry] <+: view.log)
    (hbase : chronicle.Traced base) (hkey : base.lastKey.AtLeastAsUpToDate view.log.lastKey)
    (hleaders : ∀ leader ∈ chronicle.seen, leader.leads = true → entry.term < leader.term →
      (∃ other ∈ base, other.term = leader.term) → front ++ [entry] <+: leader.log) :
    front ++ [entry] <+: base := by
  have hgrounded := h.grounded hseen
  have hmem : entry ∈ view.log := hheld.subset (by simp)
  obtain ⟨before, last, hlog⟩ : ∃ before last, view.log = before ++ [last] :=
    (List.eq_nil_or_concat' view.log).resolve_left (List.ne_nil_of_mem hmem)
  obtain ⟨maker, hmaker, hmaker_leads, hmaker_term, hmaker_log⟩ :=
    hgrounded.traced before last (hlog ▸ List.prefix_rfl)
  rw [← hlog] at hmaker_log
  have hentry_last : entry.term ≤ last.term :=
    hmaker_term ▸ ((h.grounded hmaker).terms entry (hmaker_log.subset hmem)).2
  have hlast_key : view.log.lastKey.term = last.term := by
    rw [Entries.lastKey, hlog, Entries.lastTerm_concat]
  rcases List.eq_nil_or_concat' base with rfl | ⟨others, other, rfl⟩
  · -- An empty log is not as up to date as one with an entry.
    have hpositive := (hgrounded.terms entry hmem).1
    have hnull : Entries.lastKey [] = ⟨nullTerm, -1⟩ := rfl
    rw [hnull, LogKey.AtLeastAsUpToDate, hlast_key] at hkey
    simp only [nullTerm] at hkey
    lia
  · obtain ⟨leader, hleader, hleader_leads, hleader_term, hleader_log⟩ :=
      hbase others other List.prefix_rfl
    have hother_key : (Entries.lastKey (others ++ [other])).term = other.term := by
      rw [Entries.lastKey, Entries.lastTerm_concat]
    rcases hkey with hlater | ⟨hsame, hlonger⟩
    · rw [hlast_key, hother_key] at hlater
      have hhas : front ++ [entry] <+: leader.log :=
        hleaders leader hleader hleader_leads (by lia) ⟨other, by simp, hleader_term.symm⟩
      have heither := List.prefix_or_prefix_of_prefix hhas hleader_log
      refine heither.resolve_right fun hshort => ?_
      -- The later entry would stand among those that the earlier leader had.
      obtain ⟨creator, hcreator, _, hcreator_term, hcreator_log⟩ := hcreated
      have hamong : other ∈ creator.log := hcreator_log.subset (hshort.subset (by simp))
      have := ((h.grounded hcreator).terms other hamong).2
      lia
    · rw [hlast_key, hother_key] at hsame
      have hlength : view.log.length ≤ (others ++ [other]).length := by
        simp only [Entries.lastKey] at hlonger
        lia
      -- Both last entries are of one leader's term, so the longer log has the shorter one.
      exact hheld.trans (h.isPrefix_of_leaders hmaker hleader hmaker_leads hleader_leads
        (hmaker_term.trans (hsame.symm.trans hleader_term.symm)) hmaker_log hleader_log hlength)

/-- Every leader of a later term has what was committed in an earlier one. -/
theorem Reachable.prefix_of_committed (h : Reachable members chronicle) {front : Entries}
    {entry : Entry} (hcommitted : chronicle.Committed members front entry) {leader : View}
    (hseen : leader ∈ chronicle.seen) (hleads : leader.leads = true)
    (hterm : entry.term < leader.term) : front ++ [entry] <+: leader.log := by
  -- By induction on the leader's term: leaders in between have the entry already.
  obtain ⟨rank, hrank⟩ : ∃ rank, leader.term.toNat = rank := ⟨_, rfl⟩
  induction rank using Nat.strong_induction_on generalizing leader with
  | _ rank ih =>
    have hnonneg := (h.ballots hseen).term_nonneg
    have hearlier : ∀ other ∈ chronicle.seen, other.leads = true → entry.term < other.term →
        other.term < leader.term → front ++ [entry] <+: other.log := by
      intro other hother hother_leads hlater hbelow
      have := (h.ballots hother).term_nonneg
      exact ih other.term.toNat (by lia) hother hother_leads hlater rfl
    obtain ⟨base, voters, helected⟩ := h.elected hseen hleads
    obtain ⟨holders, hquorum, hheld⟩ := hcommitted.held
    -- Some member held the entry in its own term and voted for the leader later.
    obtain ⟨voter, hvoter, hholder⟩ := helected.quorum.exists_mem_both hquorum
    obtain ⟨view, hview, hview_id, hview_term, hkey, hretains⟩ := helected.voted voter hvoter
    obtain ⟨holding, hholding, hholding_id, hholding_term, hbegins⟩ := hheld voter hholder
    have hretained : front ++ [entry] <+: view.log := by
      have heither := hretains holding hholding (hholding_id.trans hview_id.symm) (by lia) front
        entry hbegins
      apply heither.resolve_right
      rintro ⟨other, hother, hother_leads, hlater, hbound, hlacks⟩
      exact hlacks (hearlier other hother hother_leads hlater (by lia))
    have hbase := (h.grounded hseen).traced.of_isPrefix helected.base_isPrefix
    refine List.IsPrefix.trans ?_ helected.base_isPrefix
    apply h.prefix_of_lastKey hview hcommitted.created hretained hbase hkey
    rintro other hother hother_leads hlater ⟨made, hmade, hmade_term⟩
    exact hearlier other hother hother_leads hlater (hmade_term ▸ helected.base_terms made hmade)

end Chronicle

end Consensus
