import Consensus.Proofs.Config.Quorum
import Consensus.Proofs.Protocol.View
import Mathlib.Data.Set.Insert
import Mathlib.Logic.Function.Basic

/-! # Chronicles

A chronicle keeps every view that a member of a cluster ever gave and every message
ever sent. Nothing is taken out of it, so what it vouches for stays true, and
messages can be received late, again and out of order, or never.
-/

namespace Consensus

/-- A message on the channel from its sender to its receiver. -/
structure Envelope where
  sender : ServerId
  receiver : ServerId
  message : Message

/-- What has happened in a cluster so far. -/
structure Chronicle where
  present : ServerId → View
  seen : Set View
  sent : Set Envelope

/-- The view of a server that has just started from an empty store. -/
structure View.Fresh (view : View) : Prop where
  term_eq : view.term = 0
  votedFor_eq : view.votedFor = none
  log_eq : view.log = []
  leads_eq : view.leads = false
  tally_eq : view.tally = {}
  commitIndex_eq : view.commitIndex = nullIndex
  lastApplied_eq : view.lastApplied = nullIndex
  matched_eq : view.matched = []
  deliveries_eq : view.deliveries = []

namespace Chronicle

/-- What a server can have received: messages sent to it by its peers. -/
def inbox (chronicle : Chronicle) (server : ServerId) : ServerId → Message → Prop :=
  fun sender message => ⟨sender, server, message⟩ ∈ chronicle.sent ∧
    (chronicle.present server).config.isPeer sender = true

/-- What a server can be given. Commands come while there is an index left for them, and a
new start at any time. -/
abbrev intake (chronicle : Chronicle) (server : ServerId) : View.Intake where
  received := chronicle.inbox server
  submitted := fun log _ => (log.length : Int) < Cursor.maxIndex
  restarted := True

def advance (chronicle : Chronicle) (server : ServerId) (view : View) : Chronicle :=
  { chronicle with
    present := Function.update chronicle.present server view
    seen := insert view chronicle.seen }

def post (chronicle : Chronicle) (envelope : Envelope) : Chronicle :=
  { chronicle with sent := insert envelope chronicle.sent }

@[simp] theorem seen_advance (chronicle : Chronicle) (server : ServerId) (view : View) :
    (chronicle.advance server view).seen = insert view chronicle.seen := rfl

@[simp] theorem sent_advance (chronicle : Chronicle) (server : ServerId) (view : View) :
    (chronicle.advance server view).sent = chronicle.sent := rfl

@[simp] theorem present_advance_self (chronicle : Chronicle) (server : ServerId) (view : View) :
    (chronicle.advance server view).present server = view :=
  Function.update_self ..

theorem present_advance_of_ne (chronicle : Chronicle) {server other : ServerId} (view : View)
    (hne : other ≠ server) :
    (chronicle.advance server view).present other = chronicle.present other :=
  Function.update_of_ne hne ..

/-- A move of one server changes the present view of no other. -/
theorem forall_present_advance {members : Finset ServerId} {chronicle : Chronicle}
    {server : ServerId} {view : View} (property : ServerId → View → Prop)
    (hview : property server view)
    (hothers : ∀ other ∈ members, property other (chronicle.present other)) :
    ∀ other ∈ members, property other ((chronicle.advance server view).present other) := by
  intro other hother
  by_cases heq : other = server
  · rw [heq, present_advance_self]
    exact hview
  · rw [present_advance_of_ne _ _ heq]
    exact hothers other hother

@[simp] theorem seen_post (chronicle : Chronicle) (envelope : Envelope) :
    (chronicle.post envelope).seen = chronicle.seen := rfl

@[simp] theorem sent_post (chronicle : Chronicle) (envelope : Envelope) :
    (chronicle.post envelope).sent = insert envelope chronicle.sent := rfl

@[simp] theorem present_post (chronicle : Chronicle) (envelope : Envelope) :
    (chronicle.post envelope).present = chronicle.present := rfl

/-- A cluster whose members have all just started. -/
structure Genesis (members : Finset ServerId) (chronicle : Chronicle) : Prop where
  ids_eq : ∀ server ∈ members, (chronicle.present server).id = server
  lists : ∀ server ∈ members, (chronicle.present server).config.Lists members
  fresh : ∀ server ∈ members, (chronicle.present server).Fresh
  seen_iff : ∀ view, view ∈ chronicle.seen ↔ ∃ server ∈ members, chronicle.present server = view
  sent_eq : chronicle.sent = ∅

/-- The chronicles that members can write by moves and postings, in any order. -/
inductive Reachable (members : Finset ServerId) : Chronicle → Prop where
  | genesis {chronicle : Chronicle} (h : Genesis members chronicle) : Reachable members chronicle
  | move {chronicle : Chronicle} {server : ServerId} {view : View}
      (h : Reachable members chronicle) (hmember : server ∈ members)
      (hmove : (chronicle.present server).Move (chronicle.intake server) view) :
      Reachable members (chronicle.advance server view)
  | post {chronicle : Chronicle} {server receiver : ServerId} {message : Message}
      (h : Reachable members chronicle) (hmember : server ∈ members)
      (hvouches : (chronicle.present server).Vouches (chronicle.intake server) receiver message) :
      Reachable members (chronicle.post ⟨server, receiver, message⟩)

/-! ## The members -/

/-- The present views are those of the members, and each was seen. -/
structure Attended (members : Finset ServerId) (chronicle : Chronicle) : Prop where
  ids_eq : ∀ server ∈ members, (chronicle.present server).id = server
  lists : ∀ server ∈ members, (chronicle.present server).config.Lists members
  present_seen : ∀ server ∈ members, chronicle.present server ∈ chronicle.seen
  seen_member : ∀ view ∈ chronicle.seen, view.id ∈ members
  sender_member : ∀ envelope ∈ chronicle.sent, envelope.sender ∈ members

/-- However far it has grown, a chronicle is attended by its members. -/
theorem Reachable.attended {members : Finset ServerId} {chronicle : Chronicle}
    (h : Reachable members chronicle) : Attended members chronicle := by
  induction h with
  | genesis h =>
    refine ⟨h.ids_eq, h.lists, fun server hserver => (h.seen_iff _).mpr ⟨server, hserver, rfl⟩,
      ?_, ?_⟩
    · intro view hview
      obtain ⟨server, hserver, rfl⟩ := (h.seen_iff view).mp hview
      rw [h.ids_eq server hserver]
      exact hserver
    · simp [h.sent_eq]
  | @move chronicle server view _ hmember hmove ih =>
    have hid : view.id = server := hmove.id_eq.trans (ih.ids_eq server hmember)
    have hlists : view.config.Lists members := hmove.config_eq ▸ ih.lists server hmember
    refine ⟨forall_present_advance (fun id view => view.id = id) hid ih.ids_eq,
      forall_present_advance (fun _ view => view.config.Lists members) hlists ih.lists,
      forall_present_advance (fun _ present => present ∈ insert view chronicle.seen)
        (Set.mem_insert _ _) fun other hother => Set.mem_insert_of_mem _
          (ih.present_seen other hother), ?_, ih.sender_member⟩
    intro other hother
    rcases Set.mem_insert_iff.mp hother with rfl | hold
    · exact hid ▸ hmember
    · exact ih.seen_member other hold
  | post _ hmember _ ih =>
    refine ⟨ih.ids_eq, ih.lists, ih.present_seen, ih.seen_member, ?_⟩
    intro envelope henvelope
    rcases Set.mem_insert_iff.mp henvelope with rfl | hold
    · exact hmember
    · exact ih.sender_member envelope hold

/-- A message is received from another server. -/
theorem Attended.sender_ne {members : Finset ServerId} {chronicle : Chronicle}
    (h : Attended members chronicle) {server sender : ServerId} {message : Message}
    (hmember : server ∈ members) (harrived : chronicle.inbox server sender message) :
    sender ≠ server := by
  have hpeer := (h.lists server hmember).mem_peerIds_iff sender
  have hne := (hpeer.mp (Config.isPeer_iff.mp harrived.2)).2
  exact fun heq => hne (heq.trans (h.ids_eq server hmember).symm)

/-! ## What is recorded -/

/-- A later chronicle has all that an earlier one has. -/
structure Extends (later earlier : Chronicle) : Prop where
  seen_subset : earlier.seen ⊆ later.seen
  sent_subset : earlier.sent ⊆ later.sent

theorem extends_advance (chronicle : Chronicle) (server : ServerId) (view : View) :
    (chronicle.advance server view).Extends chronicle :=
  ⟨Set.subset_insert _ _, subset_rfl⟩

theorem extends_post (chronicle : Chronicle) (envelope : Envelope) :
    (chronicle.post envelope).Extends chronicle :=
  ⟨subset_rfl, Set.subset_insert _ _⟩

/-- A property of records that stays true as a chronicle grows. -/
def Lasting {α : Type} (property : Chronicle → α → Prop) : Prop :=
  ∀ ⦃earlier later : Chronicle⦄, later.Extends earlier → ∀ ⦃record : α⦄,
    property earlier record → property later record

/-- Lasting properties hold of all that is recorded when they hold of each view and each
envelope at the moment it is recorded. -/
theorem Reachable.recorded {members : Finset ServerId} {ofView : Chronicle → View → Prop}
    {ofEnvelope : Chronicle → Envelope → Prop} (hviews : Lasting ofView)
    (henvelopes : Lasting ofEnvelope)
    (hfresh : ∀ ⦃chronicle view⦄, view ∈ chronicle.seen → view.Fresh → ofView chronicle view)
    (hmove : ∀ ⦃chronicle server view⦄, Reachable members chronicle → server ∈ members →
      (∀ old ∈ chronicle.seen, ofView chronicle old) →
      (∀ old ∈ chronicle.sent, ofEnvelope chronicle old) →
      (chronicle.present server).Move (chronicle.intake server) view →
      ofView (chronicle.advance server view) view)
    (hpost : ∀ ⦃chronicle server receiver message⦄, Reachable members chronicle →
      server ∈ members →
      (∀ old ∈ chronicle.seen, ofView chronicle old) →
      (∀ old ∈ chronicle.sent, ofEnvelope chronicle old) →
      (chronicle.present server).Vouches (chronicle.intake server) receiver message →
      ofEnvelope (chronicle.post ⟨server, receiver, message⟩) ⟨server, receiver, message⟩)
    {chronicle : Chronicle} (h : Reachable members chronicle) :
    (∀ view ∈ chronicle.seen, ofView chronicle view) ∧
      ∀ envelope ∈ chronicle.sent, ofEnvelope chronicle envelope := by
  induction h with
  | genesis h =>
    refine ⟨?_, by simp [h.sent_eq]⟩
    intro view hview
    obtain ⟨server, hserver, rfl⟩ := (h.seen_iff view).mp hview
    exact hfresh hview (h.fresh server hserver)
  -- All that was recorded before lasts, which leaves the view or the envelope that is new.
  | @move chronicle server view h hmember hstep ih =>
    have hlater := extends_advance chronicle server view
    refine ⟨?_, fun envelope hold => henvelopes hlater (ih.2 envelope hold)⟩
    intro other hother
    rcases Set.mem_insert_iff.mp hother with rfl | hold
    · exact hmove h hmember ih.1 ih.2 hstep
    · exact hviews hlater (ih.1 other hold)
  | @post chronicle server receiver message h hmember hvouches ih =>
    have hlater := extends_post chronicle ⟨server, receiver, message⟩
    refine ⟨fun view hold => hviews hlater (ih.1 view hold), ?_⟩
    intro envelope henvelope
    rcases Set.mem_insert_iff.mp henvelope with rfl | hold
    · exact hpost h hmember ih.1 ih.2 hvouches
    · exact henvelopes hlater (ih.2 envelope hold)

/-- The case of views alone. -/
theorem Reachable.recorded_views {members : Finset ServerId}
    {ofView : Chronicle → View → Prop} (hviews : Lasting ofView)
    (hfresh : ∀ ⦃chronicle view⦄, view ∈ chronicle.seen → view.Fresh → ofView chronicle view)
    (hmove : ∀ ⦃chronicle server view⦄, Reachable members chronicle → server ∈ members →
      (∀ old ∈ chronicle.seen, ofView chronicle old) →
      (chronicle.present server).Move (chronicle.intake server) view →
      ofView (chronicle.advance server view) view)
    {chronicle : Chronicle} (h : Reachable members chronicle) :
    ∀ view ∈ chronicle.seen, ofView chronicle view := by
  have hnothing : Lasting fun (_ : Chronicle) (_ : Envelope) => True := fun _ _ _ _ _ => trivial
  refine (h.recorded hviews hnothing hfresh ?_ ?_).1
  · intro _ _ _ h hmember hold _ hstep
    exact hmove h hmember hold hstep
  · intros
    trivial

/-- The case of envelopes alone. -/
theorem Reachable.recorded_envelopes {members : Finset ServerId}
    {ofEnvelope : Chronicle → Envelope → Prop} (henvelopes : Lasting ofEnvelope)
    (hpost : ∀ ⦃chronicle server receiver message⦄, Reachable members chronicle →
      server ∈ members →
      (∀ old ∈ chronicle.sent, ofEnvelope chronicle old) →
      (chronicle.present server).Vouches (chronicle.intake server) receiver message →
      ofEnvelope (chronicle.post ⟨server, receiver, message⟩) ⟨server, receiver, message⟩)
    {chronicle : Chronicle} (h : Reachable members chronicle) :
    ∀ envelope ∈ chronicle.sent, ofEnvelope chronicle envelope := by
  have hnothing : Lasting fun (_ : Chronicle) (_ : View) => True := fun _ _ _ _ _ => trivial
  refine (h.recorded hnothing henvelopes ?_ ?_ ?_).2
  · intros
    trivial
  · intros
    trivial
  · intro _ _ _ _ h hmember _ hold hvouches
    exact hpost h hmember hold hvouches

/-- What relates the present view of a server to each of its earlier ones relates any two
views of it. -/
theorem Reachable.same_server {members : Finset ServerId} {related : View → View → Prop}
    (hsymm : ∀ ⦃first second⦄, related first second → related second first)
    (hpresent : ∀ ⦃chronicle⦄, Reachable members chronicle → ∀ view ∈ chronicle.seen,
      related (chronicle.present view.id) view)
    {chronicle : Chronicle} (h : Reachable members chronicle) :
    ∀ first ∈ chronicle.seen, ∀ second ∈ chronicle.seen, first.id = second.id →
      related first second := by
  induction h with
  | genesis h =>
    intro first hfirst second hsecond hsame
    obtain ⟨server, hserver, rfl⟩ := (h.seen_iff first).mp hfirst
    have := hpresent (.genesis h) second hsecond
    rwa [← hsame, h.ids_eq server hserver] at this
  | @move chronicle server next h hmember hmove ih =>
    have hid : next.id = server := hmove.id_eq.trans (h.attended.ids_eq server hmember)
    -- Every pair that is new has the latest view in it.
    have hlatest : ∀ old ∈ (chronicle.advance server next).seen, next.id = old.id →
        related next old := by
      intro old hold hsame
      have := hpresent (h.move hmember hmove) old hold
      rwa [← hsame, hid, present_advance_self] at this
    intro first hfirst second hsecond hsame
    rcases Set.mem_insert_iff.mp hfirst with rfl | hfirst_old
    · exact hlatest second hsecond hsame
    · rcases Set.mem_insert_iff.mp hsecond with rfl | hsecond_old
      · exact hsymm (hlatest first hfirst hsame.symm)
      · exact ih first hfirst_old second hsecond_old hsame
  | post _ _ _ ih => exact ih

end Chronicle

end Consensus
