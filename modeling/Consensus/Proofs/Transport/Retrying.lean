import Consensus.Proofs.Wire.Buffer
import Consensus.Transport.Outbox

/-! # Offers of an outbox

What an outbox offers can be told by whoever takes note of the offers on their way to the
transport. It offers a message to one receiver, as the same frame each time, until the
transport does something else than refuse it for the moment or no attempt is left.
-/

namespace Consensus

/-! ## Noted offers -/

/-- A frame that was offered, and what the transport did with it. -/
structure Offer where
  receiver : ServerId
  frame : Bytes
  verdict : Verdict
  deriving DecidableEq, Repr

/-- A transport with the offers that were made of it, oldest first. -/
structure Noted (τ : Type) where
  transport : τ
  offers : List Offer

variable {τ : Type} [Transport τ]

instance : Transport (Noted τ) where
  offer noted receiver frame :=
    let (verdict, transport) := Transport.offer noted.transport receiver frame
    (verdict, ⟨transport, noted.offers ++ [⟨receiver, frame, verdict⟩]⟩)
  pollPeer noted peer :=
    let (found, transport) := Transport.pollPeer noted.transport peer
    (found, { noted with transport })
  pollCommand noted :=
    let (found, transport) := Transport.pollCommand noted.transport
    (found, { noted with transport })

namespace Outbox

omit [Transport τ] in
/-- The outbox with its offers noted from now on. -/
def note (outbox : Outbox τ) : Outbox (Noted τ) :=
  { outbox with transport := ⟨outbox.transport, []⟩ }

omit [Transport τ] in
/-- The outbox with nobody taking notes any more. -/
def unnote (outbox : Outbox (Noted τ)) : Outbox τ :=
  { outbox with transport := outbox.transport.transport }

/-- The offers that sending a message makes. -/
def offersOf (outbox : Outbox τ) (receiver : ServerId) (message : Message) : List Offer :=
  (outbox.note.send receiver message).2.transport.offers

section Step

variable {outbox : Outbox τ} {receiver : ServerId} {verdict : Verdict} {transport : τ}

/-- After an offer that is refused for the moment, the rest of the offers is made. -/
theorem offerUpTo_of_transient
    (hoffer : Transport.offer outbox.transport receiver outbox.buffer = (verdict, transport))
    (htransient : verdict.isTransient = true) (left : Nat) :
    offerUpTo receiver (left + 1) outbox =
      offerUpTo receiver left { outbox with transport } := by
  cases verdict with
  | accepted | closed => cases htransient
  | backpressured | adminAction => simp only [offerUpTo, hoffer]

theorem offerUpTo_of_accepted {position : Nat}
    (hoffer : Transport.offer outbox.transport receiver outbox.buffer =
      (.accepted position, transport)) (left : Nat) :
    offerUpTo receiver (left + 1) outbox = (.ok position, { outbox with transport }) := by
  simp only [offerUpTo, hoffer]

theorem offerUpTo_of_closed
    (hoffer : Transport.offer outbox.transport receiver outbox.buffer = (.closed, transport))
    (left : Nat) :
    offerUpTo receiver (left + 1) outbox =
      (.error (.closed receiver), { outbox with transport }) := by
  simp only [offerUpTo, hoffer]

end Step

theorem offer_noted {noted : Noted τ} {receiver : ServerId} {frame : Bytes} {verdict : Verdict}
    {transport : τ}
    (hoffer : Transport.offer noted.transport receiver frame = (verdict, transport)) :
    Transport.offer noted receiver frame =
      (verdict, ⟨transport, noted.offers ++ [⟨receiver, frame, verdict⟩]⟩) := by
  simp only [Transport.offer, hoffer]

/-- Offers are what they are whether or not they are noted. -/
theorem offerUpTo_unnote (receiver : ServerId) (left : Nat) (outbox : Outbox (Noted τ)) :
    offerUpTo receiver left outbox.unnote =
      ((offerUpTo receiver left outbox).1, (offerUpTo receiver left outbox).2.unnote) := by
  induction left generalizing outbox with
  | zero => rfl
  | succ left ih =>
    rcases hoffer : Transport.offer outbox.unnote.transport receiver outbox.unnote.buffer with
      ⟨verdict, transport⟩
    have hnoted := offer_noted hoffer
    cases verdict with
    | accepted position =>
      rw [offerUpTo_of_accepted hoffer, offerUpTo_of_accepted hnoted]
      rfl
    | closed =>
      rw [offerUpTo_of_closed hoffer, offerUpTo_of_closed hnoted]
      rfl
    | backpressured | adminAction =>
      rw [offerUpTo_of_transient hoffer rfl, offerUpTo_of_transient hnoted rfl]
      exact ih { outbox with transport := ⟨transport, _⟩ }

/-- A message is sent in the same way whether or not its offers are noted. -/
theorem send_eq_note (outbox : Outbox τ) (receiver : ServerId) (message : Message) :
    outbox.send receiver message =
      ((outbox.note.send receiver message).1, (outbox.note.send receiver message).2.unnote) :=
  offerUpTo_unnote receiver outbox.attempts
    { outbox.note with buffer := (message.write outbox.buffer).1 }

/-! ## What is offered -/

/-- Offers of one frame up to as many as are left, with the result that they lead to. -/
inductive Tried (attempts : Nat) (receiver : ServerId) (frame : Bytes) :
    (left : Nat) → List Offer → Except TransportFailure Nat → Prop
  | spent : Tried attempts receiver frame 0 [] (.error (.backpressured receiver attempts))
  | accepted {left : Nat} (position : Nat) :
      Tried attempts receiver frame (left + 1) [⟨receiver, frame, .accepted position⟩]
        (.ok position)
  | closed {left : Nat} :
      Tried attempts receiver frame (left + 1) [⟨receiver, frame, .closed⟩]
        (.error (.closed receiver))
  | refused {left : Nat} {verdict : Verdict} {rest : List Offer}
      {result : Except TransportFailure Nat} (htransient : verdict.isTransient = true)
      (h : Tried attempts receiver frame left rest result) :
      Tried attempts receiver frame (left + 1) (⟨receiver, frame, verdict⟩ :: rest) result

theorem offerUpTo_tried (receiver : ServerId) (left : Nat) (outbox : Outbox (Noted τ)) :
    ∃ offers,
      (offerUpTo receiver left outbox).2.transport.offers = outbox.transport.offers ++ offers ∧
      Tried outbox.attempts receiver outbox.buffer left offers
        (offerUpTo receiver left outbox).1 := by
  induction left generalizing outbox with
  | zero => exact ⟨[], (List.append_nil _).symm, .spent⟩
  | succ left ih =>
    rcases hoffer : Transport.offer outbox.transport.transport receiver outbox.buffer with
      ⟨verdict, transport⟩
    have hnoted := offer_noted hoffer
    cases verdict with
    | accepted position =>
      rw [offerUpTo_of_accepted hnoted]
      exact ⟨_, rfl, .accepted position⟩
    | closed =>
      rw [offerUpTo_of_closed hnoted]
      exact ⟨_, rfl, .closed⟩
    | backpressured | adminAction =>
      rw [offerUpTo_of_transient hnoted rfl]
      obtain ⟨offers, hoffers, htried⟩ := ih { outbox with transport := ⟨transport, _⟩ }
      exact ⟨_, hoffers.trans (List.append_assoc ..), .refused rfl htried⟩

section Tried

variable {attempts left : Nat} {receiver : ServerId} {frame : Bytes} {offers : List Offer}
variable {result : Except TransportFailure Nat}

theorem Tried.length_le (h : Tried attempts receiver frame left offers result) :
    offers.length ≤ left := by
  induction h with
  | spent => exact Nat.le_refl 0
  | accepted | closed => exact Nat.succ_le_succ (Nat.zero_le _)
  | refused _ _ ih => exact Nat.succ_le_succ ih

theorem Tried.ne_nil (h : Tried attempts receiver frame (left + 1) offers result) :
    offers ≠ [] := by
  cases h <;> exact List.cons_ne_nil _ _

theorem Tried.same (h : Tried attempts receiver frame left offers result) :
    ∀ offer ∈ offers, offer.receiver = receiver ∧ offer.frame = frame := by
  induction h with
  | spent => simp
  | accepted | closed => simp
  | refused _ _ ih => exact List.forall_mem_cons.mpr ⟨⟨rfl, rfl⟩, ih⟩

/-- Only the last offer can be something else than refused for the moment. -/
theorem Tried.transient_of_mem_dropLast
    (h : Tried attempts receiver frame left offers result) :
    ∀ offer ∈ offers.dropLast, offer.verdict.isTransient = true := by
  induction h with
  | spent => simp
  | accepted | closed => simp
  | @refused _ _ rest _ htransient _ ih =>
    cases rest with
    | nil => simp
    | cons next rest =>
      rw [List.dropLast_cons_cons]
      exact List.forall_mem_cons.mpr ⟨htransient, ih⟩

/-- An offer that is refused for the moment settles nothing. -/
theorem exists_settled_iff {first : Offer} (htransient : first.verdict.isTransient = true)
    {settled : Verdict} (hsettled : settled.isTransient = false) :
    (∃ offer ∈ offers, offer.verdict = settled) ↔
      ∃ offer ∈ first :: offers, offer.verdict = settled := by
  have hfirst : first.verdict ≠ settled := by
    rintro rfl
    exact Bool.noConfusion (htransient.symm.trans hsettled)
  simp [hfirst]

/-- The offer that is accepted is the one whose position is given. -/
theorem Tried.ok_iff (h : Tried attempts receiver frame left offers result) (position : Nat) :
    result = .ok position ↔ ∃ offer ∈ offers, offer.verdict = .accepted position := by
  induction h with
  | spent => simp
  | accepted given => simp
  | closed => simp
  | refused htransient _ ih =>
    rw [ih]
    exact exists_settled_iff htransient rfl

/-- The channel is reported closed exactly if an offer found it so. -/
theorem Tried.closed_iff (h : Tried attempts receiver frame left offers result) :
    result = .error (.closed receiver) ↔ ∃ offer ∈ offers, offer.verdict = .closed := by
  induction h with
  | spent => simp
  | accepted given => simp
  | closed => simp
  | refused htransient _ ih =>
    rw [ih]
    exact exists_settled_iff htransient rfl

/-- A message is given up for back pressure when every offer there was to make was refused for
the moment. -/
theorem Tried.backpressured_iff (h : Tried attempts receiver frame left offers result) :
    result = .error (.backpressured receiver attempts) ↔
      offers.length = left ∧ ∀ offer ∈ offers, offer.verdict.isTransient = true := by
  induction h with
  | spent => simp
  | accepted given => simp [Verdict.isTransient]
  | closed => simp [Verdict.isTransient]
  | refused htransient _ ih =>
    rw [ih, List.length_cons, List.forall_mem_cons, Nat.succ_inj]
    simp only [htransient, true_and]

/-- Fewer offers than there were to make end with one that is not refused for the moment. -/
theorem Tried.stops (h : Tried attempts receiver frame left offers result) :
    offers.length < left → ∃ offer ∈ offers, offer.verdict.isTransient = false := by
  induction h with
  | spent => simp
  | accepted given => exact fun _ => ⟨_, List.mem_singleton_self _, rfl⟩
  | closed => exact fun _ => ⟨_, List.mem_singleton_self _, rfl⟩
  | refused _ _ ih =>
    intro hless
    obtain ⟨offer, hoffer, hlasting⟩ := ih (Nat.lt_of_succ_lt_succ hless)
    exact ⟨offer, List.mem_cons_of_mem _ hoffer, hlasting⟩

end Tried

/-! ## Sending -/

/-- What sending a message offers, and the result it has with so many attempts. -/
structure Sends (attempts : Nat) (receiver : ServerId) (message : Message) (offers : List Offer)
    (result : Except TransportFailure Nat) : Prop where
  /-- At least one offer is made, and no more than there are attempts. -/
  made : 1 ≤ offers.length ∧ offers.length ≤ attempts
  same : ∀ offer ∈ offers, offer.receiver = receiver ∧ offer.frame = message.encode
  /-- Whatever is not the last offer was refused for the moment. -/
  persists : ∀ offer ∈ offers.dropLast, offer.verdict.isTransient = true
  /-- If an attempt is left, one offer was not refused for the moment. -/
  stops : offers.length < attempts → ∃ offer ∈ offers, offer.verdict.isTransient = false
  ok_iff : ∀ position,
    result = .ok position ↔ ∃ offer ∈ offers, offer.verdict = .accepted position
  closed_iff : result = .error (.closed receiver) ↔ ∃ offer ∈ offers, offer.verdict = .closed
  backpressured_iff : result = .error (.backpressured receiver attempts) ↔
    offers.length = attempts ∧ ∀ offer ∈ offers, offer.verdict.isTransient = true

/-- Whatever is in the buffer, a message is offered as its own frame. -/
theorem sends (outbox : Outbox τ) (receiver : ServerId) (message : Message) :
    Sends outbox.attempts receiver message (outbox.offersOf receiver message)
      (outbox.send receiver message).1 := by
  have hbuffer : (message.write outbox.buffer).1 = message.encode := by rw [message.write_eq]
  obtain ⟨offers, hoffers, htried⟩ := offerUpTo_tried receiver outbox.attempts
    { outbox.note with buffer := (message.write outbox.buffer).1 }
  have hmade : outbox.offersOf receiver message = offers := hoffers
  obtain ⟨attempts, hattempts⟩ := Nat.exists_eq_add_one.mpr outbox.attempts_pos
  rw [send_eq_note, hmade]
  change Tried outbox.attempts receiver (message.write outbox.buffer).1 outbox.attempts offers
    (outbox.note.send receiver message).1 at htried
  rw [hbuffer] at htried
  refine ⟨⟨?_, htried.length_le⟩, htried.same, htried.transient_of_mem_dropLast, htried.stops,
    htried.ok_iff, htried.closed_iff, htried.backpressured_iff⟩
  rw [hattempts] at htried
  exact List.length_pos_iff.mpr htried.ne_nil

/-- Posting tells whether sending gives a position. -/
theorem post_iff (outbox : Outbox τ) (receiver : ServerId) (message : Message) :
    (outbox.post receiver message).1 = true ↔
      ∃ position, (outbox.send receiver message).1 = .ok position := by
  unfold post
  rcases outbox.send receiver message with ⟨_ | position, sent⟩ <;> simp

/-! ## The buffer is a detail -/

/-- The result of offering a frame up to so many times. -/
def resultOf (attempts : Nat) (receiver : ServerId) : Verdict → Except TransportFailure Nat
  | .accepted position => .ok position
  | .closed => .error (.closed receiver)
  | .backpressured | .adminAction => .error (.backpressured receiver attempts)

/-- What offers come to depends on the transport and the attempts alone. -/
theorem offerUpTo_eq (receiver : ServerId) (left : Nat) (outbox : Outbox τ) :
    offerUpTo receiver left outbox =
      (resultOf outbox.attempts receiver
        (Transport.offerUpTo receiver outbox.buffer left outbox.transport).1,
        { outbox with
          transport := (Transport.offerUpTo receiver outbox.buffer left outbox.transport).2 }) := by
  induction left generalizing outbox with
  | zero => rfl
  | succ left ih =>
    rcases hoffer : Transport.offer outbox.transport receiver outbox.buffer with
      ⟨verdict, transport⟩
    cases verdict with
    | accepted position =>
      rw [offerUpTo_of_accepted hoffer]
      simp [Transport.offerUpTo, hoffer, Verdict.isTransient, resultOf]
    | closed =>
      rw [offerUpTo_of_closed hoffer]
      simp [Transport.offerUpTo, hoffer, Verdict.isTransient, resultOf]
    | backpressured | adminAction =>
      rw [offerUpTo_of_transient hoffer rfl, ih]
      simp [Transport.offerUpTo, hoffer, Verdict.isTransient]

/-- An outbox sends as one does that encodes each message anew. -/
theorem send_eq (outbox : Outbox τ) (receiver : ServerId) (message : Message) :
    outbox.send receiver message =
      ((Transport.send outbox.attempts receiver message outbox.transport).1,
        { outbox with
          transport := (Transport.send outbox.attempts receiver message outbox.transport).2
          buffer := message.encode }) := by
  have hattempts : Transport.attemptsMade outbox.attempts = outbox.attempts :=
    Nat.max_eq_left outbox.attempts_pos
  unfold send Transport.send
  rw [hattempts]
  simp only [message.write_eq, offerUpTo_eq]
  rcases Transport.offerUpTo receiver message.encode outbox.attempts outbox.transport with
    ⟨_ | _ | _ | _, transport⟩ <;> rfl

theorem post_eq (outbox : Outbox τ) (receiver : ServerId) (message : Message) :
    outbox.post receiver message =
      ((Transport.post outbox.attempts receiver message outbox.transport).1,
        { outbox with
          transport := (Transport.post outbox.attempts receiver message outbox.transport).2
          buffer := message.encode }) := by
  unfold post Transport.post
  rw [send_eq]
  rcases Transport.send outbox.attempts receiver message outbox.transport with
    ⟨_ | position, transport⟩ <;> rfl

theorem postAll_eq (outbox : Outbox τ) (messages : List (ServerId × Message)) :
    (outbox.postAll messages).attempts = outbox.attempts ∧
      (outbox.postAll messages).transport =
        Transport.postAll outbox.attempts messages outbox.transport := by
  unfold postAll Transport.postAll
  induction messages generalizing outbox with
  | nil => exact ⟨rfl, rfl⟩
  | cons message rest ih =>
    rw [List.foldl_cons, List.foldl_cons]
    have hpost := outbox.post_eq message.1 message.2
    obtain ⟨hattempts, htransport⟩ := ih (outbox.post message.1 message.2).2
    rw [hpost] at hattempts htransport
    dsimp only at hattempts htransport ⊢
    rw [hpost]
    exact ⟨hattempts, htransport⟩

end Outbox

end Consensus
