import Consensus.Proofs.Protocol.Election

/-! # Log matching

Every entry of every log was made by the one leader of its term, in whose log the
same entries stand in front of it. Two logs that hold an entry of one index and
term are therefore equal up to it, whatever was sent late, again or out of order.
-/

namespace Consensus

namespace Entries

/-- A shown entry stands in the log right behind the shown key. -/
theorem Shows.read?_entry {log : Entries} {request : AppendRequest} (h : log.Shows request)
    {entry : PlacedEntry} (hentry : request.entry = some entry) :
    entry.index = request.prevLogEntry.index + 1 ∧
      log.read? entry.index = some ⟨entry.term, entry.command⟩ := by
  have hshown := h.entry_eq.symm.trans hentry
  unfold entryAt? at hshown
  obtain ⟨held, hread, rfl⟩ := Option.map_eq_some_iff.mp hshown
  exact ⟨rfl, hread⟩

end Entries

namespace Chronicle

/-- A leader of the entry's term was seen with these entries in front of it. -/
def Created (chronicle : Chronicle) (front : Entries) (entry : Entry) : Prop :=
  ∃ leader ∈ chronicle.seen, leader.leads = true ∧ leader.term = entry.term ∧
    front ++ [entry] <+: leader.log

/-- Every entry of the log was created where it stands. -/
def Traced (chronicle : Chronicle) (log : Entries) : Prop :=
  ∀ front entry, front ++ [entry] <+: log → chronicle.Created front entry

variable {members : Finset ServerId} {chronicle : Chronicle}

theorem Created.of_extends {earlier later : Chronicle} (hlater : later.Extends earlier)
    {front : Entries} {entry : Entry} (h : earlier.Created front entry) :
    later.Created front entry := by
  obtain ⟨leader, hseen, hleader⟩ := h
  exact ⟨leader, hlater.seen_subset hseen, hleader⟩

theorem Traced.of_isPrefix {shorter longer : Entries} (h : chronicle.Traced longer)
    (hbegins : shorter <+: longer) : chronicle.Traced shorter :=
  fun front entry hfront => h front entry (hfront.trans hbegins)

theorem Traced.concat {log : Entries} {entry : Entry} (h : chronicle.Traced log)
    (hcreated : chronicle.Created log entry) : chronicle.Traced (log ++ [entry]) := by
  intro front other hfront
  rcases List.prefix_concat_iff.mp hfront with heq | hold
  · obtain ⟨rfl, hlast⟩ := List.append_inj' heq rfl
    rwa [List.singleton_inj.mp hlast]
  · exact h front other hold

/-! ## Logs of leaders -/

/-- An append request shows the log of a leader. -/
structure Shown (chronicle : Chronicle) (sender : ServerId) (request : AppendRequest)
    (leader : View) : Prop where
  seen : leader ∈ chronicle.seen
  leads : leader.leads = true
  id_eq : leader.id = sender
  term_eq : leader.term = request.term
  commit_eq : leader.commitIndex = request.leaderCommit
  shows : leader.log.Shows request

/-- Every append request shows the log of a leader. -/
theorem Reachable.shown (h : Reachable members chronicle) {sender receiver : ServerId}
    {request : AppendRequest}
    (hsent : ⟨sender, receiver, .appendRequest request⟩ ∈ chronicle.sent) :
    ∃ leader, chronicle.Shown sender request leader := by
  have hlasting : Lasting fun chronicle (envelope : Envelope) => ∀ request,
      envelope.message = .appendRequest request →
        ∃ leader, chronicle.Shown envelope.sender request leader := by
    intro _ _ hlater envelope hshown request hmessage
    obtain ⟨leader, hleader⟩ := hshown request hmessage
    exact ⟨leader, { hleader with seen := hlater.seen_subset hleader.seen }⟩
  refine h.recorded_envelopes hlasting ?_ _ hsent request rfl
  rintro chronicle server receiver _ h hmember _ hvouches request rfl
  cases hvouches with
  | replicate hleads hterm hleader hcommit hshows =>
    exact ⟨_, h.attended.present_seen server hmember, hleads, h.attended.ids_eq server hmember,
      hterm.symm, hcommit.symm, hshows⟩

/-- A request that a server heeds shows the log of another server that leads the term. -/
theorem Reachable.shown_of_heeds (h : Reachable members chronicle) {server : ServerId}
    (hmember : server ∈ members) {request : AppendRequest}
    (hheeds : (chronicle.present server).Heeds (chronicle.intake server) request) :
    ∃ sender leader, sender ≠ server ∧ chronicle.Shown sender request leader ∧
      leader.term = (chronicle.present server).term := by
  obtain ⟨sender, harrived⟩ := hheeds.arrived
  obtain ⟨leader, hshown⟩ := h.shown harrived.1
  exact ⟨sender, leader, h.attended.sender_ne hmember harrived, hshown,
    hshown.term_eq.trans hheeds.term_eq⟩

/-- While its term lasts, a server that has led it loses nothing of its log. -/
theorem Reachable.log_of_led (h : Reachable members chronicle) {leader : View}
    (hseen : leader ∈ chronicle.seen) (hleads : leader.leads = true)
    (hterm : (chronicle.present leader.id).term = leader.term) :
    leader.log <+: (chronicle.present leader.id).log := by
  induction h with
  | genesis h =>
    obtain ⟨server, hserver, rfl⟩ := (h.seen_iff leader).mp hseen
    simp [(h.fresh server hserver).leads_eq] at hleads
  | @move chronicle server next h hmember hmove ih =>
    have hid : next.id = server := hmove.id_eq.trans (h.attended.ids_eq server hmember)
    rcases Set.mem_insert_iff.mp hseen with rfl | hold
    · rw [hid, present_advance_self]
    · by_cases heq : leader.id = server
      · rw [heq, present_advance_self] at hterm ⊢
        have hcame := (h.present_of_seen hold).1
        rw [heq] at hcame ih
        have hpresent : (chronicle.present server).term = leader.term := by
          have := hmove.term_le
          lia
        have hkept := ih hold hpresent
        rcases hmove.log_cases with hlog | ⟨_, _, _, _, command, hlog⟩ | ⟨request, hheeds, _⟩
        · rwa [hlog]
        · exact hlog ▸ hkept.trans (List.prefix_append _ _)
        · -- The term has no second leader to heed.
          obtain ⟨sender, other, hne, hshown, hother⟩ := h.shown_of_heeds hmember hheeds
          have hsame := h.leader_unique hold hshown.seen hleads hshown.leads
            (hpresent.symm.trans hother.symm)
          rw [heq, hshown.id_eq] at hsame
          exact absurd hsame.symm hne
      · rw [present_advance_of_ne _ _ heq] at hterm ⊢
        exact ih hold hterm
  | post _ _ _ ih => exact ih hseen hterm

/-- Of two logs that leaders of one term were seen with, one continues the other. -/
theorem Reachable.leader_logs (h : Reachable members chronicle) {first second : View}
    (hfirst : first ∈ chronicle.seen) (hsecond : second ∈ chronicle.seen)
    (hfirst_leads : first.leads = true) (hsecond_leads : second.leads = true)
    (hterm : first.term = second.term) :
    first.log <+: second.log ∨ second.log <+: first.log := by
  have hpairs : ∀ first ∈ chronicle.seen, ∀ second ∈ chronicle.seen, first.id = second.id →
      first.leads = true → second.leads = true → first.term = second.term →
      first.log <+: second.log ∨ second.log <+: first.log := by
    refine h.same_server ?_ ?_
    · intro first second hrelated hsecond_leads hfirst_leads hterm
      exact (hrelated hfirst_leads hsecond_leads hterm.symm).symm
    · intro chronicle h view hseen _ hleads hterm
      exact .inr (h.log_of_led hseen hleads hterm)
  have hid := h.leader_unique hfirst hsecond hfirst_leads hsecond_leads hterm
  exact hpairs first hfirst second hsecond hid hfirst_leads hsecond_leads hterm

/-- What begins the logs of two leaders of one term begins in one way. -/
theorem Reachable.isPrefix_of_leaders (h : Reachable members chronicle) {first second : View}
    (hfirst : first ∈ chronicle.seen) (hsecond : second ∈ chronicle.seen)
    (hfirst_leads : first.leads = true) (hsecond_leads : second.leads = true)
    (hterm : first.term = second.term) {shorter longer : Entries}
    (hshorter : shorter <+: first.log) (hlonger : longer <+: second.log)
    (hlength : shorter.length ≤ longer.length) : shorter <+: longer := by
  rcases h.leader_logs hfirst hsecond hfirst_leads hsecond_leads hterm with hlogs | hlogs
  · exact Entries.isPrefix_of_isPrefix (hshorter.trans hlogs) hlonger hlength
  · exact Entries.isPrefix_of_isPrefix hshorter (hlonger.trans hlogs) hlength

/-- An index and a term belong to one entry, and to the entries in front of it. -/
theorem Reachable.created_unique (h : Reachable members chronicle) {front others : Entries}
    {entry other : Entry} (hentry : chronicle.Created front entry)
    (hother : chronicle.Created others other) (hlength : front.length = others.length)
    (hterm : entry.term = other.term) : front ++ [entry] = others ++ [other] := by
  obtain ⟨first, hfirst, hfirst_leads, hfirst_term, hfirst_log⟩ := hentry
  obtain ⟨second, hsecond, hsecond_leads, hsecond_term, hsecond_log⟩ := hother
  have hsame : (front ++ [entry]).length = (others ++ [other]).length := by simp [hlength]
  have hbegins := h.isPrefix_of_leaders hfirst hsecond hfirst_leads hsecond_leads
    (hfirst_term.trans (hterm.trans hsecond_term.symm)) hfirst_log hsecond_log hsame.le
  exact hbegins.eq_of_length hsame

/-! ## Matching -/

/-- Two traced logs are equal up to a key that both hold. -/
theorem Reachable.shared_of_holds (h : Reachable members chronicle) {log source : Entries}
    (hlog : chronicle.Traced log) (hsource : chronicle.Traced source) {key : LogKey}
    (hholds : log.Holds key) (hterm : source.termAt? key.index = some key.term) :
    ∃ shared, shared <+: log ∧ shared <+: source ∧ (shared.length : Int) = key.index + 1 := by
  by_cases hnull : key.index = nullIndex
  · refine ⟨[], List.nil_prefix, List.nil_prefix, ?_⟩
    rw [hnull]
    rfl
  · obtain ⟨entry, hread, hentry⟩ := hholds.resolve_left hnull
    obtain ⟨other, hread_other, hother⟩ := (Entries.termAt?_eq_some hterm).resolve_left hnull
    obtain ⟨front, hfront, hlength⟩ := Entries.exists_front_of_read? hread
    obtain ⟨others, hothers, hlength_others⟩ := Entries.exists_front_of_read? hread_other
    have hsame := h.created_unique (hlog front entry hfront) (hsource others other hothers)
      (by lia) (hentry.trans hother.symm)
    refine ⟨front ++ [entry], hfront, hsame ▸ hothers, ?_⟩
    simp [hlength]

/-- What is known of the log of every view. -/
structure Grounded (chronicle : Chronicle) (view : View) : Prop where
  traced : chronicle.Traced view.log
  terms : ∀ entry ∈ view.log, 1 ≤ entry.term ∧ entry.term ≤ view.term
  length_le : (view.log.length : Int) ≤ Cursor.maxIndex

theorem grounded_lasting : Lasting Grounded :=
  fun _ _ hlater _ h => { h with
    traced := fun front entry hfront => (h.traced front entry hfront).of_extends hlater }

theorem Reachable.grounded_of_move {server : ServerId} {view : View}
    (h : Reachable members chronicle) (hmember : server ∈ members)
    (hviews : ∀ old ∈ chronicle.seen, chronicle.Grounded old)
    (hmove : (chronicle.present server).Move (chronicle.intake server) view) :
    (chronicle.advance server view).Grounded view := by
  have hpresent := h.attended.present_seen server hmember
  have hlater := extends_advance chronicle server view
  have hold := hviews _ hpresent
  have hlasting := grounded_lasting hlater hold
  have hterm := hmove.term_le
  rcases hmove.log_cases with hlog | ⟨hsame, hled, hleads, command, hroom, hlog⟩ |
    ⟨request, hheeds, hsame, _, ⟨index, _, _, hlog⟩ | ⟨entry, hentry, hholds, hindex, hend, hlog⟩⟩
  · refine ⟨hlog ▸ hlasting.traced, ?_, hlog ▸ hold.length_le⟩
    intro entry hentry
    rw [hlog] at hentry
    exact ⟨(hold.terms entry hentry).1, Int.le_trans (hold.terms entry hentry).2 hterm⟩
  -- A leader adds an entry of its own, which its log is the one to create.
  · refine ⟨?_, ?_, ?_⟩
    · rw [hlog]
      exact hlasting.traced.concat
        ⟨view, Set.mem_insert _ _, hleads, hsame, hlog ▸ List.prefix_rfl⟩
    · intro entry hentry
      rw [hlog, List.mem_append, List.mem_singleton] at hentry
      rcases hentry with hentry | rfl
      · exact hsame ▸ hold.terms entry hentry
      · have hvote := (h.won_of_leads hpresent hled).1
        exact ⟨(h.ballots hpresent).term_pos _ hvote, Int.le_of_eq hsame.symm⟩
    · rw [hlog, List.length_append, List.length_singleton]
      lia
  · have hbegins : view.log <+: (chronicle.present server).log := hlog ▸ List.take_prefix _ _
    refine ⟨hlasting.traced.of_isPrefix hbegins, ?_, ?_⟩
    · intro entry hentry
      exact hsame ▸ hold.terms entry (hbegins.subset hentry)
    · have := hbegins.length_le
      have := hold.length_le
      lia
  · -- The entry comes from the leader's log, which agrees with this one in front of it.
    obtain ⟨sender, leader, _, hshown, hleader_term⟩ := h.shown_of_heeds hmember hheeds
    have hleader := hviews leader hshown.seen
    obtain ⟨_, hread⟩ := hshown.shows.read?_entry hentry
    obtain ⟨shared, hshared, hshared_leader, hlength⟩ :=
      h.shared_of_holds hold.traced hleader.traced hholds hshown.shows.prev_termAt
    obtain ⟨front, hfront, hfront_length⟩ := Entries.exists_front_of_read? hread
    have hwhole : shared = (chronicle.present server).log := hshared.eq_of_length (by lia)
    have hsame_front : front = shared := by
      have hfront_begins := (List.prefix_append front _).trans hfront
      have hbegins := Entries.isPrefix_of_isPrefix hfront_begins hshared_leader (by lia)
      exact hbegins.eq_of_length (by lia)
    rw [hsame_front, hwhole] at hfront
    have hmem : (⟨entry.term, entry.command⟩ : Entry) ∈ leader.log := Entries.mem_of_read? hread
    refine ⟨?_, ?_, ?_⟩
    · rw [hlog]
      exact hlasting.traced.concat ((hleader.traced _ _ hfront).of_extends hlater)
    · intro other hother
      rw [hlog, List.mem_append, List.mem_singleton] at hother
      rw [hsame]
      rcases hother with hother | rfl
      · exact hold.terms other hother
      · exact hleader_term ▸ hleader.terms _ hmem
    · rw [hlog]
      have := hfront.length_le
      have := hleader.length_le
      lia

/-- The log of every view is grounded. -/
theorem Reachable.grounded (h : Reachable members chronicle) {view : View}
    (hseen : view ∈ chronicle.seen) : chronicle.Grounded view := by
  refine h.recorded_views grounded_lasting ?_ (fun _ _ _ => grounded_of_move) view hseen
  intro chronicle view _ hfresh
  refine ⟨?_, ?_, ?_⟩
  · intro front entry hfront
    simp [hfresh.log_eq] at hfront
  · simp [hfresh.log_eq]
  · simp [hfresh.log_eq, Cursor.maxIndex]

/-- Two logs with an entry of one index and term are equal up to it. -/
theorem Reachable.shared_of_read? (h : Reachable members chronicle) {first second : View}
    (hfirst : first ∈ chronicle.seen) (hsecond : second ∈ chronicle.seen) {index : Index}
    {one other : Entry} (hone : first.log.read? index = some one)
    (hother : second.log.read? index = some other) (hterm : one.term = other.term) :
    ∃ shared, shared <+: first.log ∧ shared <+: second.log ∧
      (shared.length : Int) = index + 1 := by
  exact h.shared_of_holds (h.grounded hfirst).traced (h.grounded hsecond).traced
    (.inr ⟨one, hone, hterm⟩ : first.log.Holds ⟨other.term, index⟩)
    (Entries.termAt?_of_read? hother)

end Chronicle

end Consensus
