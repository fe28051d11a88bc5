import Consensus.Proofs.Ensemble.Run
import Consensus.Proofs.Protocol.Range
import Consensus.Proofs.Turn.Operations

/-! # Runs write chronicles

Whatever happens to the members of an ensemble, a chronicle can be written that has seen
each of their views and that sends the message of each frame that they offer.
-/

namespace Consensus

variable {σ : Type} [Store σ] [LawfulStore σ] {members : Finset ServerId}

/-! ## Turns -/

namespace Chronicle

theorem Extends.refl (chronicle : Chronicle) : chronicle.Extends chronicle :=
  ⟨subset_rfl, subset_rfl⟩

theorem Extends.trans {first second third : Chronicle} (h : second.Extends first)
    (hnext : third.Extends second) : third.Extends first :=
  ⟨h.seen_subset.trans hnext.seen_subset, h.sent_subset.trans hnext.sent_subset⟩

/-- What a chronicle has in store for a server stays there when it goes on. -/
theorem intake_within {earlier later : Chronicle} {server : ServerId}
    (hlater : later.Extends earlier)
    (hconfig : (later.present server).config = (earlier.present server).config) :
    (earlier.intake server).Within (later.intake server) := by
  refine ⟨fun sender message harrived => ?_, fun _ _ hroom => hroom, id⟩
  exact ⟨hlater.sent_subset harrived.1, hconfig ▸ harrived.2⟩

/-- The later chronicle goes on from the earlier one with what a server has done in a turn. -/
structure Continues (members : Finset ServerId) (earlier : Chronicle) (id : ServerId)
    (turn : Turn σ) (later : Chronicle) : Prop where
  reachable : Reachable members later
  grown : later.Extends earlier
  present_self : later.present id = turn.server.view
  present_other : ∀ other, other ≠ id → later.present other = earlier.present other
  config_eq : (later.present id).config = (earlier.present id).config
  sent : ∀ posting ∈ turn.postings, ⟨id, posting.receiver, posting.message⟩ ∈ later.sent

end Chronicle

open Chronicle

/-- Every turn that traces the protocol on what was sent can be written down. -/
theorem Turn.Trace.exists_continues {chronicle : Chronicle} (h : Reachable members chronicle)
    {id : ServerId} (hmember : id ∈ members) {server : Server σ} {now : Duration} {last : Turn σ}
    (hpresent : chronicle.present id = server.view)
    (htrace : Turn.Trace (chronicle.intake id) ⟨server, now, []⟩ last) :
    ∃ later, Continues members chronicle id last later := by
  induction htrace with
  | start => exact ⟨chronicle, h, .refl _, hpresent, fun _ _ => rfl, rfl, by simp⟩
  | @move last server _ hmove _ ih =>
    obtain ⟨later, hcontinues⟩ := ih
    -- By now the chronicle has sent what was posted earlier in the turn, so its intake is wider.
    have hwritten : (later.present id).Move (later.intake id) server.view := by
      rw [hcontinues.present_self]
      exact hmove.mono (intake_within hcontinues.grown hcontinues.config_eq)
    refine ⟨later.advance id server.view, hcontinues.reachable.move hmember hwritten,
      hcontinues.grown.trans (extends_advance ..), present_advance_self .., ?_, ?_,
      hcontinues.sent⟩
    · intro other hne
      rw [present_advance_of_ne _ _ hne]
      exact hcontinues.present_other other hne
    · rw [present_advance_self]
      exact hwritten.config_eq.trans hcontinues.config_eq
  | still _ hview _ ih =>
    obtain ⟨later, hcontinues⟩ := ih
    exact ⟨later, { hcontinues with present_self := hcontinues.present_self.trans hview.symm }⟩
  | @post last receiver message _ hvouches ih =>
    obtain ⟨later, hcontinues⟩ := ih
    have hwritten : (later.present id).Vouches (later.intake id) receiver message := by
      rw [hcontinues.present_self]
      exact hvouches.mono (intake_within hcontinues.grown hcontinues.config_eq)
    refine ⟨later.post ⟨id, receiver, message⟩, hcontinues.reachable.post hmember hwritten,
      hcontinues.grown.trans (extends_post ..), hcontinues.present_self,
      hcontinues.present_other, hcontinues.config_eq, ?_⟩
    intro posting hposting
    rcases List.mem_append.mp hposting with hold | hnew
    · exact Set.mem_insert_of_mem _ (hcontinues.sent posting hold)
    · rw [List.mem_singleton.mp hnew]
      exact Set.mem_insert _ _

/-! ## Steps -/

namespace Ensemble

/-- The chronicle shows the ensemble as it is now, and has sent all that was offered. -/
structure Shown (members : Finset ServerId) (ensemble : Ensemble σ) (chronicle : Chronicle) :
    Prop where
  reachable : Reachable members chronicle
  coherent : ∀ id ∈ members, (ensemble.servers id).Coherent
  present : ∀ id ∈ members, chronicle.present id = (ensemble.servers id).view
  sent : ∀ parcel ∈ ensemble.offered, ∃ message, parcel.frame = message.encode ∧
    ⟨parcel.sender, parcel.receiver, message⟩ ∈ chronicle.sent

variable {before after : Ensemble σ} {chronicle : Chronicle}

/-- What a member does in one call can be written down. -/
theorem Shown.settle (h : before.Shown members chronicle) {id : ServerId} (hmember : id ∈ members)
    {α : Type} {outcome : Outcome σ α}
    (htraces : outcome.Traces (chronicle.intake id) (before.servers id)) :
    ∃ later, later.Extends chronicle ∧ (before.settle id outcome).Shown members later := by
  obtain ⟨now, last, htrace, hserver, hpostings⟩ := htraces
  obtain ⟨later, hcontinues⟩ :=
    htrace.exists_continues h.reachable hmember (h.present id hmember)
  refine ⟨later, hcontinues.grown, hcontinues.reachable, ?_, ?_, ?_⟩
  · intro other hother
    by_cases heq : other = id
    · subst heq
      rw [servers_settle_self]
      exact hserver ▸ htrace.coherent
    · rw [servers_settle_of_ne _ _ heq]
      exact h.coherent other hother
  · intro other hother
    by_cases heq : other = id
    · subst heq
      rw [servers_settle_self]
      exact hserver ▸ hcontinues.present_self
    · rw [servers_settle_of_ne _ _ heq]
      exact (hcontinues.present_other other heq).trans (h.present other hother)
  · intro parcel hparcel
    rcases mem_offered_settle hparcel with hold | ⟨posting, hposting, rfl⟩
    · obtain ⟨message, hframe, hsent⟩ := h.sent parcel hold
      exact ⟨message, hframe, hcontinues.grown.sent_subset hsent⟩
    · exact ⟨posting.message, rfl, hcontinues.sent posting (hpostings ▸ hposting)⟩

/-- A frame that was offered gives its receiver the message that it was made from. -/
theorem Shown.given (h : before.Shown members chronicle)
    (hids : ∀ id ∈ members, Word.InRange 4 id) {id sender : ServerId} (hmember : id ∈ members)
    {frame : Bytes} (hoffered : ⟨sender, id, frame⟩ ∈ before.offered) {message : Message}
    (hpeer : (before.servers id).config.isPeer sender = true)
    (hdecode : Message.decode frame = .ok message) :
    (chronicle.intake id).received sender message := by
  -- What was sent fits its frame, so no other message was written in the same bytes.
  obtain ⟨sent, hframe, hsent⟩ := h.sent _ hoffered
  have hfits := h.reachable.fits hids hsent
  rw [show frame = sent.encode from hframe] at hdecode
  rw [Message.eq_of_decode_encode hfits hdecode]
  refine ⟨hsent, ?_⟩
  rw [h.present id hmember]
  exact hpeer

/-- What a member posts fits its frame. -/
theorem Shown.posting_fits (h : before.Shown members chronicle)
    (hids : ∀ id ∈ members, Word.InRange 4 id) {id : ServerId} (hmember : id ∈ members)
    {α : Type} {outcome : Outcome σ α}
    (htraces : outcome.Traces (chronicle.intake id) (before.servers id)) {posting : Posting σ}
    (hposting : posting ∈ outcome.postings) : posting.message.Fits := by
  obtain ⟨now, last, htrace, _, hpostings⟩ := htraces
  obtain ⟨later, hcontinues⟩ :=
    htrace.exists_continues h.reachable hmember (h.present id hmember)
  exact hcontinues.reachable.fits hids (hcontinues.sent posting (hpostings ▸ hposting))

/-- A chronicle goes on to show that leadership was handed over. -/
theorem Shown.transfer (h : before.Shown members chronicle) {id target : ServerId}
    {message : Message} (hmember : id ∈ members)
    (hrequest : (before.servers id).transferRequest target = .ok message) :
    ∃ later, later.Extends chronicle ∧
      (before.offer [(target, message)] id).Shown members later := by
  have hvouches : (chronicle.present id).Vouches (chronicle.intake id) target message := by
    rw [h.present id hmember]
    exact Server.vouches_of_transferRequest hrequest
  have hlater := extends_post chronicle ⟨id, target, message⟩
  refine ⟨_, hlater, h.reachable.post hmember hvouches, h.coherent, h.present, ?_⟩
  intro parcel hparcel
  rcases List.mem_append.mp hparcel with hold | hnew
  · obtain ⟨message, hframe, hsent⟩ := h.sent parcel hold
    exact ⟨message, hframe, hlater.sent_subset hsent⟩
  · rw [List.mem_singleton.mp hnew]
    exact ⟨message, rfl, Set.mem_insert _ _⟩

/-- A server that starts again goes on as the protocol has it restart. -/
theorem Shown.restart (h : before.Shown members chronicle) {id : ServerId} {store : σ}
    {server : Server σ} {draws : Draws} {now : Duration} (hmember : id ∈ members)
    (hvalid : LawfulStore.Valid store)
    (hload : Store.load store = Store.load (before.servers id).log.store)
    (hentries : Store.entries store = (before.servers id).log.entries)
    (hstart : Server.start (before.servers id).config store draws now = .ok server) :
    ∃ later, later.Extends chronicle ∧ (before.replace id server).Shown members later := by
  obtain ⟨_, hcoherent, hloaded, hview⟩ := Server.start_eq_ok hvalid hstart
  -- The term and the vote that are loaded are those that the server had at hand.
  have hkept := (h.coherent id hmember).durable.loaded_eq _ (hload.symm.trans hloaded)
  obtain ⟨hterm, hvote⟩ := Prod.mk.inj hkept
  have hmove : (chronicle.present id).Move (chronicle.intake id) server.view := by
    rw [h.present id hmember, hview, hentries, hterm, hvote]
    exact .restart trivial
  refine ⟨_, extends_advance .., h.reachable.move hmember hmove, ?_, ?_, h.sent⟩
  · intro other hother
    by_cases heq : other = id
    · subst heq
      rwa [servers_replace_self]
    · rw [servers_replace_of_ne _ _ heq]
      exact h.coherent other hother
  · intro other hother
    by_cases heq : other = id
    · subst heq
      rw [servers_replace_self, present_advance_self]
    · rw [servers_replace_of_ne _ _ heq, present_advance_of_ne _ _ heq]
      exact h.present other hother

/-- A chronicle can be continued by every step. -/
theorem Step.shown (h : before.Shown members chronicle)
    (hids : ∀ id ∈ members, Word.InRange 4 id) (hstep : Step members before after) :
    ∃ later, later.Extends chronicle ∧ after.Shown members later := by
  cases hstep with
  | receive now hmember hoffered =>
    exact h.settle hmember (Server.receive_traces (h.coherent _ hmember)
      fun message hpeer hdecode => h.given hids hmember hoffered hpeer hdecode)
  | submit now command hmember hroom =>
    exact h.settle hmember (Server.submit_traces (h.coherent _ hmember) fun _ _ => hroom)
  | receiveCommand now frame hmember hroom =>
    exact h.settle hmember (Server.receiveCommand_traces (h.coherent _ hmember) fun _ => hroom)
  | pollTimer now hmember =>
    exact h.settle hmember (Server.pollTimer_traces (h.coherent _ hmember))
  | perform now hmember =>
    exact h.settle hmember (Server.perform_traces (h.coherent _ hmember))
  | transfer hmember hrequest => exact h.transfer hmember hrequest
  | restart draws now hmember hvalid hload hentries hstart =>
    exact h.restart hmember hvalid hload hentries hstart

/-! ## Runs -/

/-- The chronicle of a cluster in which nothing has happened yet. -/
def genesis (members : Finset ServerId) (ensemble : Ensemble σ) : Chronicle where
  present := fun id => (ensemble.servers id).view
  seen := { view | ∃ id ∈ members, (ensemble.servers id).view = view }
  sent := ∅

/-- At first each member is coherent and fresh, and lists the others. -/
theorem Started.member {ensemble : Ensemble σ} (h : Started members ensemble) {id : ServerId}
    (hmember : id ∈ members) :
    (ensemble.servers id).Coherent ∧ (ensemble.servers id).view.id = id ∧
      (ensemble.servers id).config.Lists members ∧ (ensemble.servers id).view.Fresh := by
  obtain ⟨config, store, draws, now, hid, hpeers, hvalid, hload, hentries, hstart⟩ :=
    h.started id hmember
  obtain ⟨hvalidate, hcoherent, hloaded, hview⟩ := Server.start_eq_ok hvalid hstart
  obtain ⟨hterm, hvote⟩ := Prod.mk.inj (Except.ok.inj (hload.symm.trans hloaded))
  have hconfig : (ensemble.servers id).config = config := congrArg View.config hview
  rw [← hterm, ← hvote, hentries] at hview
  refine ⟨hcoherent, ?_, ?_, ?_⟩
  · rw [hview]
    exact hid
  · rw [hconfig]
    refine ⟨hid ▸ hmember, Config.nodup_of_validate hvalidate, ?_⟩
    rw [hid]
    exact hpeers
  · rw [hview]
    exact ⟨rfl, rfl, rfl, rfl, rfl, rfl, rfl, rfl, rfl⟩

/-- A chronicle begins by showing the members as they start. -/
theorem Started.shown {ensemble : Ensemble σ} (h : Started members ensemble) :
    ensemble.Shown members (ensemble.genesis members) := by
  refine ⟨.genesis ⟨?_, ?_, ?_, fun _ => Iff.rfl, rfl⟩, ?_, fun _ _ => rfl, ?_⟩
  · exact fun id hmember => (h.member hmember).2.1
  · exact fun id hmember => (h.member hmember).2.2.1
  · exact fun id hmember => (h.member hmember).2.2.2
  · exact fun id hmember => (h.member hmember).1
  · simp [h.offered_eq]

/-- The chronicle has seen each member of the ensemble, under its own id. -/
def Seen (members : Finset ServerId) (ensemble : Ensemble σ) (chronicle : Chronicle) : Prop :=
  ∀ id ∈ members, (ensemble.servers id).view ∈ chronicle.seen ∧ (ensemble.servers id).view.id = id

theorem Shown.seen {ensemble : Ensemble σ} (h : ensemble.Shown members chronicle) :
    ensemble.Seen members chronicle := by
  intro id hmember
  rw [← h.present id hmember]
  exact ⟨h.reachable.attended.present_seen id hmember, h.reachable.attended.ids_eq id hmember⟩

omit [LawfulStore σ] in
/-- What was seen stays seen when the chronicle goes on. -/
theorem Seen.of_extends {ensemble : Ensemble σ} {later : Chronicle}
    (hlater : later.Extends chronicle) (h : ensemble.Seen members chronicle) :
    ensemble.Seen members later :=
  fun id hmember => ⟨hlater.seen_subset (h id hmember).1, (h id hmember).2⟩

theorem Run.ids_fit {run : List (Ensemble σ)} (h : Run members run) :
    ∀ id ∈ members, Word.InRange 4 id := by
  induction h with
  | start h => exact h.ids_fit
  | step _ _ ih => exact ih

/-- Some chronicle shows the latest moment of a run and has seen all of them. -/
theorem Run.exists_shown {latest : Ensemble σ} {earlier : List (Ensemble σ)}
    (h : Run members (latest :: earlier)) :
    ∃ chronicle, latest.Shown members chronicle ∧
      ∀ moment ∈ latest :: earlier, moment.Seen members chronicle := by
  -- The moments seen before stay seen, since a chronicle is only added to.
  generalize hrun : latest :: earlier = run at h
  induction h generalizing latest earlier with
  | start h =>
    obtain ⟨rfl, rfl⟩ := List.cons.inj hrun
    refine ⟨_, h.shown, fun moment hmoment => ?_⟩
    rw [List.mem_singleton.mp hmoment]
    exact h.shown.seen
  | step h hstep ih =>
    obtain ⟨rfl, rfl⟩ := List.cons.inj hrun
    obtain ⟨chronicle, hshown, hseen⟩ := ih rfl
    obtain ⟨later, hlater, hafter⟩ := hstep.shown hshown h.ids_fit
    refine ⟨later, hafter, fun moment hmoment => ?_⟩
    rcases List.mem_cons.mp hmoment with rfl | hmoment
    · exact hafter.seen
    · exact (hseen moment hmoment).of_extends hlater

/-- Some chronicle has seen every moment of a run. -/
theorem Run.exists_seen {run : List (Ensemble σ)} (h : Run members run) :
    ∃ chronicle, Reachable members chronicle ∧ ∀ moment ∈ run, moment.Seen members chronicle := by
  cases run with
  | nil => cases h
  | cons latest earlier =>
    obtain ⟨chronicle, hshown, hseen⟩ := h.exists_shown
    exact ⟨chronicle, hshown.reachable, hseen⟩

end Ensemble

end Consensus
