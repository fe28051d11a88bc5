import Consensus.Proofs.Ensemble.Recording
import Consensus.Proofs.Life.Requests
import Consensus.Proofs.Replication.Committable

/-! # The commit rule

In every run of a cluster the terms of each log do not fall by index and are not beyond the
server's. So a leader that looks at one index only commits whatever can be committed: at no moment
is there anything left, and each rise goes to the greatest index there is.
-/

namespace Consensus

variable {σ : Type} [Store σ] [LawfulStore σ] {members : Finset ServerId}

/-- Each entry of a log is of no older term than those in front of it: they stood there when the
leader of its term made it. -/
theorem Chronicle.Reachable.ascends {chronicle : Chronicle} (h : Reachable members chronicle)
    {view : View} (hseen : view ∈ chronicle.seen) : Entries.Ascends view.log view.term := by
  have hgrounded := h.grounded hseen
  refine ⟨?_, fun entry hentry => (hgrounded.terms entry hentry).2⟩
  intro lower upper one other hle hone hother
  obtain ⟨front, hfront, hlength⟩ := Entries.exists_front_of_read? hother
  obtain ⟨leader, hleader, _, hterm, hlog⟩ := hgrounded.traced front other hfront
  have hlower : lower < (front ++ [other]).length := by
    simp only [List.length_append, List.length_singleton]
    lia
  have hmember : one ∈ front ++ [other] :=
    Entries.mem_of_read? (Entries.read?_of_isPrefix_of_lt hfront hone hlower)
  rw [← hterm]
  exact ((h.grounded hleader).terms one (hlog.subset hmember)).2

/-- If nothing was left to commit before a call, nothing is left after it, and a rise of the commit
index goes to the greatest index that can be committed. -/
theorem Server.call_settled {server : Server σ} (hreachable : server.Reachable)
    (hbounded : ∀ entry ∈ server.log.entries, entry.term ≤ server.term)
    (hsettled : server.role.isLeader = true → server.Settled) {now : Duration} {call : Call}
    {later : Server σ} (hlater : (server.call now call).server = later)
    (hascends : Entries.Ascends later.log.entries later.term)
    (hleads : later.role.isLeader = true) :
    later.Settled ∧ (server.commitIndex < later.commitIndex →
      IsGreatest { index | later.Committable index } later.commitIndex) := by
  subst hlater
  by_cases hled : server.role.isLeader = true
  · have htracks := (hreachable.call now call).inOrder.tracks hleads
    rcases (goesOn_of_leads hled hleads).reckoned with hretains | hreckons
    · exact ⟨hretains.settled (hsettled hled),
        fun hrises => absurd hretains.commitIndex_eq (Int.ne_of_gt hrises)⟩
    · exact hreckons.settled hreachable.coherent.commit_ge htracks hascends
  · have hbegins := call_begins hreachable.coherent hreachable.inOrder
      (Bool.eq_false_iff.mpr hled) now call hleads
    exact ⟨hbegins.settled hbounded,
      fun hrises => absurd hbegins.commitIndex_eq (Int.ne_of_gt hrises)⟩

namespace Ensemble

variable {before after moment : Ensemble σ} {run : List (Ensemble σ)} {id : ServerId}

/-! ## Members of a run -/

/-- What one step makes of a member: it stays as it is, or is what a call has left, or starts
again. -/
inductive Becomes (server later : Server σ) : Prop where
  | stays (h : later = server)
  | called (now : Duration) (call : Call) (h : (server.call now call).server = later)
  | starts {config : Config} {store : σ} {draws : Draws} {now : Duration}
      (hvalid : LawfulStore.Valid store)
      (hstart : Server.start config store draws now = .ok later)

/-- What becomes of the member that is called becomes of every member, for the others stay. -/
theorem Becomes.settle {α : Type} {outcome : Outcome σ α} {called : ServerId}
    (h : Becomes (before.servers called) outcome.server) (id : ServerId) :
    Becomes (before.servers id) ((before.settle called outcome).servers id) := by
  by_cases hsame : id = called
  · subst hsame
    rwa [servers_settle_self]
  · exact .stays (servers_settle_of_ne _ _ hsame)

/-- A step makes of each member what can become of it. -/
theorem Step.becomes (h : Step members before after) (id : ServerId) :
    Becomes (before.servers id) (after.servers id) := by
  cases h with
  | @receive _ sender frame now =>
    exact Becomes.settle (.called now (.receive sender frame) rfl) id
  | submit now command => exact Becomes.settle (.called now (.submit command) rfl) id
  | receiveCommand now frame => exact Becomes.settle (.called now (.receiveCommand frame) rfl) id
  | pollTimer now => exact Becomes.settle (.called now .pollTimer rfl) id
  | perform now => exact Becomes.settle (.called now .perform rfl) id
  | transfer => exact .stays rfl
  | @restart other store server draws now _ hvalid _ _ hstart =>
    by_cases hsame : id = other
    · subst hsame
      rw [servers_replace_self]
      exact .starts hvalid hstart
    · exact .stays (servers_replace_of_ne _ _ hsame)

/-- What a member of a run has come to, a server can come to by itself. -/
theorem Run.reachable (h : Run members run) (hmember : id ∈ members) :
    ∀ moment ∈ run, (moment.servers id).Reachable := by
  induction h with
  | start h =>
    intro moment hmoment
    obtain rfl := List.mem_singleton.mp hmoment
    obtain ⟨_, _, _, _, _, _, hvalid, _, _, hstart⟩ := h.started id hmember
    exact .start hvalid hstart
  | @step before after earlier h hstep ih =>
    intro moment hmoment
    rcases List.mem_cons.mp hmoment with rfl | hold
    · have hbefore := ih before List.mem_cons_self
      cases hstep.becomes id with
      | stays hsame => exact hsame ▸ hbefore
      | called now call hcall => exact hcall ▸ hbefore.call now call
      | starts hvalid hstart => exact .start hvalid hstart
    · exact ih moment hold

/-- Through a run the terms of a log ascend, up to the term of its server. -/
theorem Run.ascends (h : Run members run) (hmoment : moment ∈ run) (hmember : id ∈ members) :
    Entries.Ascends (moment.servers id).log.entries (moment.servers id).term := by
  obtain ⟨chronicle, hreachable, hseen⟩ := h.exists_seen
  exact hreachable.ascends (hseen moment hmoment id hmember).1

/-! ## Commits -/

/-- From one moment to the next, a leader has nothing left to commit and has committed the
greatest index there is. -/
theorem Run.settled_of_step {earlier : List (Ensemble σ)}
    (h : Run members (after :: before :: earlier)) (hstep : Step members before after)
    (hmember : id ∈ members)
    (hsettled : (before.servers id).role.isLeader = true → (before.servers id).Settled)
    (hleads : (after.servers id).role.isLeader = true) :
    (after.servers id).Settled ∧
      ((before.servers id).commitIndex < (after.servers id).commitIndex →
        IsGreatest { index | (after.servers id).Committable index }
          (after.servers id).commitIndex) := by
  have hbefore : before ∈ after :: before :: earlier :=
    List.mem_cons_of_mem _ List.mem_cons_self
  have hafter : after ∈ after :: before :: earlier := List.mem_cons_self
  cases hstep.becomes id with
  | stays hsame =>
    rw [hsame] at hleads ⊢
    exact ⟨hsettled hleads, fun hrises => absurd hrises (Int.lt_irrefl _)⟩
  | called now call hcall =>
    exact Server.call_settled (h.reachable hmember _ hbefore) (h.ascends hbefore hmember).bounded
      hsettled hcall (h.ascends hafter hmember) hleads
  | starts hvalid hstart =>
    rw [Server.follows_of_start hvalid hstart] at hleads
    cases hleads

/-- Through a run no leader has left a committable entry uncommitted. -/
theorem Run.settled (h : Run members run) (hmember : id ∈ members) :
    ∀ moment ∈ run, (moment.servers id).role.isLeader = true → (moment.servers id).Settled := by
  induction h with
  | start h =>
    intro moment hmoment hleads
    obtain rfl := List.mem_singleton.mp hmoment
    have hfollows := (h.member hmember).2.2.2.leads_eq
    exact absurd hleads (Bool.eq_false_iff.mp hfollows)
  | @step before after earlier h hstep ih =>
    intro moment hmoment hleads
    rcases List.mem_cons.mp hmoment with rfl | hold
    · exact ((h.step hstep).settled_of_step hstep hmember (ih before List.mem_cons_self) hleads).1
    · exact ih moment hold hleads

/-- Neighbours in a run are a step apart. -/
theorem Run.step_of_infix (h : Run members run) (hnext : [after, before] <:+: run) :
    ∃ earlier, Run members (after :: before :: earlier) ∧ Step members before after := by
  induction h with
  | start h =>
    have hlength := hnext.length_le
    simp at hlength
  | @step former latter earlier h hstep ih =>
    rcases List.infix_cons_iff.mp hnext with hfront | hold
    · obtain ⟨rfl, hrest⟩ := List.cons_prefix_cons.mp hfront
      obtain ⟨rfl, _⟩ := List.cons_prefix_cons.mp hrest
      exact ⟨earlier, h.step hstep, hstep⟩
    · exact ih hold

/-- At every moment of a run the terms of a member's log do not fall by index and are not beyond
the member's. A leader has one match index for each peer, and there is no index beyond its commit
index that a majority holds and whose entry is of its term. Each rise of the commit index of a
leader goes to the greatest index that a majority holds and whose entry is of its term. -/
theorem commit_index_greatest (h : Run members run) (hmember : id ∈ members) :
    (∀ moment ∈ run,
        Entries.Ascends (moment.servers id).log.entries (moment.servers id).term ∧
          ((moment.servers id).role.isLeader = true →
            ((moment.servers id).progress.cursors.map Cursor.serverId).Perm
                (moment.servers id).config.peerIds ∧
              ∀ index, (moment.servers id).Committable index →
                index ≤ (moment.servers id).commitIndex)) ∧
      ∀ before after, [after, before] <:+: run → (after.servers id).role.isLeader = true →
        (before.servers id).commitIndex < (after.servers id).commitIndex →
          IsGreatest { index | (after.servers id).Committable index }
            (after.servers id).commitIndex := by
  refine ⟨fun moment hmoment => ⟨h.ascends hmoment hmember, fun hleads => ?_⟩, ?_⟩
  · exact ⟨((h.reachable hmember moment hmoment).inOrder.tracks hleads).peers,
      h.settled hmember moment hmoment hleads⟩
  · intro before after hnext hleads hrises
    obtain ⟨earlier, hrun, hstep⟩ := h.step_of_infix hnext
    have hbefore := hrun.settled hmember before (List.mem_cons_of_mem _ List.mem_cons_self)
    exact (hrun.settled_of_step hstep hmember hbefore hleads).2 hrises

/-- Server 1 commits its command together with server 2. -/
theorem commit_index_greatest_handover :
    ((Handover.moment 7).servers 1).commitIndex = -1 ∧
      ((Handover.moment 6).servers 1).commitIndex = 0 ∧
      IsGreatest { index | ((Handover.moment 6).servers 1).Committable index } 0 ∧
      ∀ entry ∈ ((Handover.moment 6).servers 1).log.entries,
        entry.term ≤ ((Handover.moment 6).servers 1).term := by
  have hleads : ((Handover.moment 6).servers 1).role.isLeader = true := by decide +kernel
  have hbefore : ((Handover.moment 7).servers 1).commitIndex = -1 := by decide +kernel
  have hafter : ((Handover.moment 6).servers 1).commitIndex = 0 := by decide +kernel
  have hnext : [Handover.moment 6, Handover.moment 7] <:+: Handover.moments := by
    have hlength : 7 < Handover.moments.length := by decide +kernel
    refine ⟨Handover.moments.take 6, Handover.moments.drop 8, ?_⟩
    unfold Handover.moment
    rw [List.getD_eq_getElem _ _ hlength, List.getD_eq_getElem _ _ (Nat.lt_of_succ_lt hlength),
      List.append_assoc, List.cons_append, List.singleton_append, List.getElem_cons_drop,
      List.getElem_cons_drop, List.take_append_drop]
  have hrule := commit_index_greatest Handover.run_moments (by decide : (1 : ServerId) ∈ _)
  have hrises : ((Handover.moment 7).servers 1).commitIndex <
      ((Handover.moment 6).servers 1).commitIndex := by
    rw [hbefore, hafter]
    decide
  have hgreatest := hrule.2 _ _ hnext hleads hrises
  rw [hafter] at hgreatest
  have hmoment := Handover.moment_mem (by decide +kernel : 6 < Handover.moments.length)
  exact ⟨hbefore, hafter, hgreatest, (hrule.1 _ hmoment).1.bounded⟩

end Ensemble

end Consensus
