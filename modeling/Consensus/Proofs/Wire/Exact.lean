import Consensus.Proofs.Wire.Buffer
import Consensus.Proofs.Wire.RoundTrip

/-! # Reading and writing undo one another

What is read from a frame accounts for each of its bytes, so a message that was read is
written as the frame it came from. Together with the way back this makes frames and messages
two forms of one thing, except for requests whose command is none.
-/

namespace Consensus

/-! ## Fields -/

namespace Word

/-- A word that was read is written back behind what stands in front of it. -/
theorem take_append_encode (bytes : Bytes) (offset width : Nat)
    (hlength : offset + width ≤ bytes.length) :
    bytes.take offset ++ encode width (field bytes offset width) = bytes.take (offset + width) := by
  have hwidth : ((bytes.drop offset).take width).length = width := by
    rw [List.length_take, List.length_drop]
    omega
  have hword := encode_decode ((bytes.drop offset).take width)
  rw [hwidth] at hword
  rw [field, hword, List.take_add]

end Word

namespace Frame

variable {frame : Bytes}

theorem flagAt_eq_ok {offset : Nat} {value : Bool} (h : flagAt frame offset = .ok value) :
    frame.getD offset 0 = if value then 1 else 0 := by
  unfold flagAt at h
  split at h
  next hbyte => obtain rfl := Except.ok.inj h; exact hbyte
  next hbyte => obtain rfl := Except.ok.inj h; exact hbyte
  next => cases h

/-- A truth value that was read is written back as the byte it was read from. -/
theorem take_append_flag {offset : Nat} {value : Bool} (h : flagAt frame offset = .ok value)
    (hlength : offset + 1 ≤ frame.length) :
    frame.take offset ++ flag value = frame.take (offset + 1) := by
  have hbyte := flagAt_eq_ok h
  rw [List.getD_eq_getElem?_getD, List.getElem?_eq_getElem hlength, Option.getD_some] at hbyte
  rw [flag, ← hbyte, List.take_append_getElem]

/-- A frame is of the kind whose tag it begins with. -/
theorem kind_eq_ok {kind : MessageKind} (h : Frame.kind frame = .ok kind) :
    headerLength ≤ frame.length ∧ Word.field frame 0 4 = kind.tag := by
  unfold Frame.kind at h
  split at h
  next => cases h
  next hlong =>
    simp only at h
    split at h
    next htag =>
      obtain rfl := Except.ok.inj h
      exact ⟨Nat.le_of_not_lt hlong, (MessageKind.ofTag?_eq_some_iff.mp htag).symm⟩
    next => cases h

/-- The header of a frame that has a kind is read back whole. -/
theorem header_of_kind {kind : MessageKind} (h : Frame.kind frame = .ok kind) :
    header kind (Word.field frame 4 4) = frame.take headerLength := by
  obtain ⟨hlong, htag⟩ := kind_eq_ok h
  simp only [headerLength] at hlong
  have hfirst := Word.take_append_encode frame 0 4 (by omega)
  have hboth := Word.take_append_encode frame 4 4 (by omega)
  rw [List.take_zero, List.nil_append, htag] at hfirst
  rw [header, hfirst, hboth]
  rfl

theorem expectKind_eq_ok {kind : MessageKind} :
    expectKind frame kind = .ok () ↔ Frame.kind frame = .ok kind := by
  unfold expectKind
  cases Frame.kind frame with
  | error => simp [bind, Except.bind]
  | ok found =>
    by_cases hfound : found = kind <;>
    simp [hfound, bind, Except.bind, pure, Except.pure, throw, throwThe, MonadExceptOf.throw]

theorem expectFixed_eq_ok {kind : MessageKind} {length : Nat}
    (h : expectFixed frame kind length = .ok ()) :
    Frame.kind frame = .ok kind ∧ frame.length = length := by
  unfold expectFixed at h
  obtain ⟨⟨⟩, hkind, hrest⟩ := bind_eq_ok.mp h
  refine ⟨expectKind_eq_ok.mp hkind, ?_⟩
  split at hrest
  next hlength => exact hlength
  next => cases hrest

end Frame

/-! ## Commands -/

namespace Command

/-- The bytes a command is read from are the bytes it is written as. -/
theorem layout_of_decode {bytes : Bytes} {command : Command} (h : decode bytes = .ok command) :
    command.layout = bytes ∧ command.payload.length ≤ maxPayload := by
  unfold decode at h
  split at h
  next => cases h
  next hlong =>
    simp only [commandHeaderLength] at hlong
    simp only at h
    split at h
    next => cases h
    next hnonneg =>
      split at h
      next => cases h
      next hlength =>
        obtain rfl := Except.ok.inj h
        simp only [commandHeaderLength, ne_eq, not_not] at hlength
        have hpayload : (bytes.drop commandHeaderLength).length = bytes.length - 16 :=
          List.length_drop
        have hdeclared : ((bytes.drop commandHeaderLength).length : Int) =
            Word.field bytes 12 4 := by omega
        have hrange : Word.InRange 4 (Word.field bytes 12 4) := Word.field_inRange (by omega)
        refine ⟨?_, ?_⟩
        · have hsource := Word.take_append_encode bytes 0 4 (by omega)
          rw [List.take_zero, List.nil_append] at hsource
          rw [layout, hdeclared, hsource, Word.take_append_encode bytes _ 8 (by omega),
            Word.take_append_encode bytes _ 4 (by omega)]
          exact List.take_append_drop ..
        · simp only [Word.InRange, Word.bound] at hrange
          simp only [maxPayload]
          omega

end Command

/-! ## Messages -/

open Consensus.Frame

theorem VoteRequest.encode_of_decode {frame : Bytes} {request : VoteRequest}
    (h : decode frame = .ok request) : request.encode = frame := by
  obtain ⟨⟨⟩, hfixed, hfields⟩ := bind_eq_ok.mp h
  obtain ⟨hkind, hlength⟩ := expectFixed_eq_ok hfixed
  obtain rfl := Except.ok.inj hfields
  simp only [voteRequestLength] at hlength
  simp only [encode, header_of_kind hkind, headerLength]
  rw [Word.take_append_encode frame _ 4 (by omega), Word.take_append_encode frame _ 4 (by omega),
    Word.take_append_encode frame _ 8 (by omega), List.take_of_length_le (by omega)]

theorem VoteResponse.encode_of_decode {frame : Bytes} {response : VoteResponse}
    (h : decode frame = .ok response) : response.encode = frame := by
  obtain ⟨⟨⟩, hfixed, hrest⟩ := bind_eq_ok.mp h
  obtain ⟨hkind, hlength⟩ := expectFixed_eq_ok hfixed
  obtain ⟨granted, hgranted, hfields⟩ := bind_eq_ok.mp hrest
  obtain rfl := Except.ok.inj hfields
  simp only [voteResponseLength] at hlength
  simp only [encode, header_of_kind hkind, headerLength]
  rw [take_append_flag hgranted (by omega), List.take_of_length_le (by omega)]

theorem AppendResponse.encode_of_decode {frame : Bytes} {response : AppendResponse}
    (h : decode frame = .ok response) : response.encode = frame := by
  obtain ⟨⟨⟩, hfixed, hrest⟩ := bind_eq_ok.mp h
  obtain ⟨hkind, hlength⟩ := expectFixed_eq_ok hfixed
  obtain ⟨successful, hsuccessful, hfields⟩ := bind_eq_ok.mp hrest
  obtain rfl := Except.ok.inj hfields
  simp only [appendResponseLength] at hlength
  simp only [encode, header_of_kind hkind, headerLength]
  rw [take_append_flag hsuccessful (by omega), Word.take_append_encode frame _ 4 (by omega),
    Word.take_append_encode frame _ 8 (by omega), List.take_of_length_le (by omega)]

theorem TimeoutNow.encode_of_decode {frame : Bytes} {request : TimeoutNow}
    (h : decode frame = .ok request) : request.encode = frame := by
  obtain ⟨⟨⟩, hfixed, hfields⟩ := bind_eq_ok.mp h
  obtain ⟨hkind, hlength⟩ := expectFixed_eq_ok hfixed
  obtain rfl := Except.ok.inj hfields
  simp only [timeoutNowLength] at hlength
  simp only [encode, header_of_kind hkind, headerLength]
  rw [Word.take_append_encode frame _ 4 (by omega), List.take_of_length_le (by omega)]

namespace AppendRequest

variable {frame : Bytes}

/-- A frame is a heartbeat by its length, or its entry fills the rest of it. -/
theorem decodeEntry_eq_ok {entry : Option PlacedEntry} (h : decodeEntry frame = .ok entry) :
    (entry = none ∧ frame.length = heartbeatLength) ∨
      (entryCommandOffset ≤ frame.length ∧
        Command.Decodes (frame.drop entryCommandOffset) ∧
        entry = some ⟨Word.field frame 32 4, Word.field frame 36 8,
          frame.drop entryCommandOffset⟩) := by
  unfold decodeEntry at h
  split at h
  next hheartbeat => exact .inl ⟨(Except.ok.inj h).symm, hheartbeat⟩
  next =>
    split at h
    next => cases h
    next hlong =>
      obtain ⟨command, hcommand, hfields⟩ := bind_eq_ok.mp h
      exact .inr ⟨by omega, ⟨command, hcommand⟩, (Except.ok.inj hfields).symm⟩

theorem encode_of_decode {request : AppendRequest} (h : decode frame = .ok request) :
    request.encode = frame := by
  obtain ⟨⟨⟩, hexpect, hrest⟩ := bind_eq_ok.mp h
  have hheader := header_of_kind (expectKind_eq_ok.mp hexpect)
  obtain ⟨entry, hentry, hfields⟩ := bind_eq_ok.mp hrest
  obtain rfl := Except.ok.inj hfields
  simp only [encode, hheader, headerLength]
  rcases decodeEntry_eq_ok hentry with ⟨rfl, hlength⟩ | ⟨hlength, _, rfl⟩
  · simp only [heartbeatLength] at hlength
    rw [Word.take_append_encode frame _ 4 (by omega), Word.take_append_encode frame _ 4 (by omega),
      Word.take_append_encode frame _ 8 (by omega), Word.take_append_encode frame _ 8 (by omega),
      List.take_of_length_le (by omega), List.append_nil]
  · simp only [entryCommandOffset] at hlength
    rw [Word.take_append_encode frame _ 4 (by omega), Word.take_append_encode frame _ 4 (by omega),
      Word.take_append_encode frame _ 8 (by omega), Word.take_append_encode frame _ 8 (by omega),
      ← List.append_assoc, ← List.append_assoc, Word.take_append_encode frame _ 4 (by omega),
      Word.take_append_encode frame _ 8 (by omega)]
    exact List.take_append_drop ..

end AppendRequest

namespace Message

/-- Reads a frame as a message of one kind. -/
def decodeAs (frame : Bytes) : MessageKind → Except Malformed Message
  | .voteRequest => (VoteRequest.decode frame).map .voteRequest
  | .voteResponse => (VoteResponse.decode frame).map .voteResponse
  | .appendRequest => (AppendRequest.decode frame).map .appendRequest
  | .appendResponse => (AppendResponse.decode frame).map .appendResponse
  | .timeoutNow => (TimeoutNow.decode frame).map .timeoutNow

variable {frame : Bytes} {kind : MessageKind} {message : Message}

theorem decode_eq_bind : decode frame = Frame.kind frame >>= decodeAs frame := by
  unfold decode
  congr 1

/-- A frame is read as a message of its own kind only. -/
theorem kind_of_decodeAs (h : decodeAs frame kind = .ok message) :
    message.kind = kind ∧ Frame.kind frame = .ok kind := by
  cases kind with
  | appendRequest =>
    obtain ⟨body, hbody, rfl⟩ := map_eq_ok.mp h
    obtain ⟨⟨⟩, hexpect, _⟩ := bind_eq_ok.mp hbody
    exact ⟨rfl, expectKind_eq_ok.mp hexpect⟩
  | _ =>
    obtain ⟨body, hbody, rfl⟩ := map_eq_ok.mp h
    obtain ⟨⟨⟩, hfixed, _⟩ := bind_eq_ok.mp hbody
    exact ⟨rfl, (expectFixed_eq_ok hfixed).1⟩

/-- A frame decodes to a message exactly if it does so as one of the message's kind. -/
theorem decode_eq_ok_iff :
    decode frame = .ok message ↔ decodeAs frame message.kind = .ok message := by
  rw [decode_eq_bind, bind_eq_ok]
  constructor
  · rintro ⟨kind, -, hread⟩
    rwa [(kind_of_decodeAs hread).1]
  · exact fun hread => ⟨message.kind, (kind_of_decodeAs hread).2, hread⟩

theorem kind_of_decode (h : decode frame = .ok message) : Frame.kind frame = .ok message.kind :=
  (kind_of_decodeAs (decode_eq_ok_iff.mp h)).2

/-- The bytes a message is read from are the bytes it is written as. -/
theorem encode_of_decode (h : decode frame = .ok message) : message.encode = frame := by
  have hread := decode_eq_ok_iff.mp h
  cases message with
  | voteRequest body =>
    obtain ⟨_, hbody, ⟨⟩⟩ := map_eq_ok.mp hread
    exact VoteRequest.encode_of_decode hbody
  | voteResponse body =>
    obtain ⟨_, hbody, ⟨⟩⟩ := map_eq_ok.mp hread
    exact VoteResponse.encode_of_decode hbody
  | appendRequest body =>
    obtain ⟨_, hbody, ⟨⟩⟩ := map_eq_ok.mp hread
    exact AppendRequest.encode_of_decode hbody
  | appendResponse body =>
    obtain ⟨_, hbody, ⟨⟩⟩ := map_eq_ok.mp hread
    exact AppendResponse.encode_of_decode hbody
  | timeoutNow body =>
    obtain ⟨_, hbody, ⟨⟩⟩ := map_eq_ok.mp hread
    exact TimeoutNow.encode_of_decode hbody

/-- The term of a message stands behind the tag of its frame. -/
theorem term_of_decodeAs (h : decodeAs frame kind = .ok message) :
    message.term = Word.field frame 4 4 := by
  cases kind with
  | voteRequest =>
    obtain ⟨_, hbody, rfl⟩ := map_eq_ok.mp h
    obtain ⟨⟨⟩, _, ⟨⟩⟩ := bind_eq_ok.mp hbody
    rfl
  | timeoutNow =>
    obtain ⟨_, hbody, rfl⟩ := map_eq_ok.mp h
    obtain ⟨⟨⟩, _, ⟨⟩⟩ := bind_eq_ok.mp hbody
    rfl
  | _ =>
    obtain ⟨_, hbody, rfl⟩ := map_eq_ok.mp h
    obtain ⟨⟨⟩, _, hrest⟩ := bind_eq_ok.mp hbody
    obtain ⟨_, _, ⟨⟩⟩ := bind_eq_ok.mp hrest
    rfl

theorem term_of_decode (h : decode frame = .ok message) : Frame.term frame = .ok message.term := by
  rw [Frame.term, kind_of_decode h, term_of_decodeAs (decode_eq_ok_iff.mp h)]
  rfl

/-- The message carries no entry, or one whose command can be read. -/
def Carried (message : Message) : Prop :=
  ∀ request entry, message = .appendRequest request → request.entry = some entry →
    Command.Decodes entry.command

/-- What is read from a frame has a command that can be read. -/
theorem carried_of_decode (h : decode frame = .ok message) : message.Carried := by
  rintro request entry rfl hcarried
  obtain ⟨_, hbody, ⟨⟩⟩ := map_eq_ok.mp (decode_eq_ok_iff.mp h)
  obtain ⟨⟨⟩, _, hrest⟩ := bind_eq_ok.mp hbody
  obtain ⟨found, hfound, hfields⟩ := bind_eq_ok.mp hrest
  obtain rfl := Except.ok.inj hfields
  obtain rfl : found = some entry := hcarried
  rcases AppendRequest.decodeEntry_eq_ok hfound with ⟨⟨⟩, _⟩ | ⟨_, hcommand, hentry⟩
  obtain rfl := Option.some.inj hentry
  exact hcommand

/-- A frame is refused exactly when the command that the message carries is none. -/
theorem decode_encode_iff (h : message.Fits) :
    (message.Carried → decode message.encode = .ok message) ∧
      (¬ message.Carried → ∃ cause, decode message.encode = .error cause) := by
  rcases decode_encode h with hok | ⟨request, entry, cause, hmessage, hentry, hrefused, herror⟩
  · exact ⟨fun _ => hok, fun hnot => absurd (carried_of_decode hok) hnot⟩
  · exact ⟨fun hcarried => absurd (hcarried request entry hmessage hentry) hrefused,
      fun _ => ⟨cause, herror⟩⟩

end Message

/-! ## Both directions -/

/-- Reading and writing undo one another. A message that was read is written as the frame it
came from, whatever the buffer held, and that frame announces its kind and its term. A message
that is written is read back, unless it carries what is no command. Each kind has its own
reader, which reads just the frames that are read as a message of that kind. The same holds of
commands and their bytes. -/
theorem wire_exact :
    (∀ frame message, Message.decode frame = .ok message →
      (∀ buffer, message.write buffer = (frame, frame.length)) ∧
        message.encodedLength = frame.length ∧
        Frame.kind frame = .ok message.kind ∧ Frame.term frame = .ok message.term) ∧
    (∀ message : Message, message.Fits → ∀ buffer,
      (message.Carried → Message.decode (message.write buffer).1 = .ok message) ∧
        (¬ message.Carried → ∃ cause, Message.decode (message.write buffer).1 = .error cause)) ∧
    (∀ frame,
      (∀ body, VoteRequest.decode frame = .ok body ↔
        Message.decode frame = .ok (.voteRequest body)) ∧
      (∀ body, VoteResponse.decode frame = .ok body ↔
        Message.decode frame = .ok (.voteResponse body)) ∧
      (∀ body, AppendRequest.decode frame = .ok body ↔
        Message.decode frame = .ok (.appendRequest body)) ∧
      (∀ body, AppendResponse.decode frame = .ok body ↔
        Message.decode frame = .ok (.appendResponse body)) ∧
      (∀ body, TimeoutNow.decode frame = .ok body ↔
        Message.decode frame = .ok (.timeoutNow body))) ∧
    (∀ command : Command, command.Fits → command.payload.length ≤ Command.maxPayload →
      ∀ buffer, ∃ bytes, command.write buffer = .ok (bytes, bytes.length) ∧
        bytes.length = command.encodedLength ∧ Command.decode bytes = .ok command) ∧
    (∀ bytes command, Command.decode bytes = .ok command →
      (∀ buffer, command.write buffer = .ok (bytes, bytes.length)) ∧
        command.encodedLength = bytes.length) := by
  refine ⟨?_, ?_, ?_, ?_, ?_⟩
  · intro frame message hread
    have hframe := Message.encode_of_decode hread
    have hlength : message.encodedLength = frame.length := by
      rw [← Message.length_encode, hframe]
    refine ⟨fun buffer => ?_, hlength, Message.kind_of_decode hread, Message.term_of_decode hread⟩
    rw [Message.write_eq, hframe, hlength]
  · intro message hfits buffer
    rw [Message.write_eq]
    exact Message.decode_encode_iff hfits
  · intro frame
    refine ⟨?_, ?_, ?_, ?_, ?_⟩ <;>
    · intro body
      rw [Message.decode_eq_ok_iff]
      simp [Message.kind, Message.decodeAs, map_eq_ok]
  · intro command hfits hpayload buffer
    have hencode : command.encode = .ok command.layout := if_pos hpayload
    refine ⟨command.layout, ?_, Command.length_layout command,
      Command.decode_encode hfits hencode⟩
    rw [Command.write_eq, hencode, Command.length_layout]
    rfl
  · intro bytes command hread
    obtain ⟨hlayout, hpayload⟩ := Command.layout_of_decode hread
    have hlength : command.encodedLength = bytes.length := by
      rw [← Command.length_layout, hlayout]
    have hencode : command.encode = .ok bytes := by
      rw [← hlayout]
      exact if_pos hpayload
    refine ⟨fun buffer => ?_, hlength⟩
    rw [Command.write_eq, hencode, hlength]
    rfl

/-- A request with an entry, written over a buffer in use, and one that carries no command. -/
theorem wire_exact_entry :
    let entry : PlacedEntry := ⟨3, 5, Command.layout ⟨7, 1, [104, 105]⟩⟩
    let request : AppendRequest := ⟨3, 1, ⟨2, 4⟩, 4, some entry⟩
    let hollow : AppendRequest := { request with entry := some { entry with command := [104] } }
    Message.write [9, 9, 9] (.appendRequest request) = (request.encode, 62) ∧
      ∃ cause,
        Message.decode (Message.write [9, 9, 9] (.appendRequest hollow)).1 = .error cause := by
  intro entry request hollow
  have hread : Message.decode request.encode = .ok (.appendRequest request) := by decide +kernel
  refine ⟨(wire_exact.1 _ _ hread).1 [9, 9, 9], (wire_exact.2.1 _ ?_ [9, 9, 9]).2 ?_⟩
  · refine ⟨?_, ?_, ?_, ?_, fun found hfound => ?_⟩
    · exact ⟨by decide, by decide⟩
    · exact ⟨by decide, by decide⟩
    · exact ⟨⟨by decide, by decide⟩, by decide, by decide⟩
    · exact ⟨by decide, by decide⟩
    · obtain rfl := Option.some.inj hfound
      exact ⟨⟨by decide, by decide⟩, by decide, by decide⟩
  · intro hcarried
    obtain ⟨command, hcommand⟩ := hcarried hollow _ rfl rfl
    cases hcommand

end Consensus
