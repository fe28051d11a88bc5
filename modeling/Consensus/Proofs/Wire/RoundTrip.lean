import Consensus.Wire.Frame

/-! # Reading back what was written

Within the range of its words, a frame gives back the message that it was written
from, and so do the bytes of a command. A request's command is the only part of a
message that may still be refused.
-/

namespace Consensus

/-! ## Ranges -/

/-- The key fits the words that it is written in. -/
def LogKey.Fits (key : LogKey) : Prop := Word.InRange 4 key.term ∧ Word.InRange 8 key.index

/-- Each field of the message fits the word that it is written in. -/
def Message.Fits : Message → Prop
  | .voteRequest body =>
    Word.InRange 4 body.term ∧ Word.InRange 4 body.candidateId ∧ body.lastLogEntry.Fits
  | .voteResponse body => Word.InRange 4 body.term
  | .appendRequest body =>
    Word.InRange 4 body.term ∧ Word.InRange 4 body.leaderId ∧ body.prevLogEntry.Fits ∧
      Word.InRange 8 body.leaderCommit ∧ ∀ entry, body.entry = some entry → entry.key.Fits
  | .appendResponse body =>
    Word.InRange 4 body.term ∧ Word.InRange 4 body.serverId ∧ Word.InRange 8 body.matchLogIndex
  | .timeoutNow body => Word.InRange 4 body.term ∧ Word.InRange 4 body.candidateId

/-- The client's numbers fit the words that they are written in. -/
def Command.Fits (command : Command) : Prop :=
  Word.InRange 4 command.sourceId ∧ Word.InRange 8 command.sequence

theorem MessageKind.tag_inRange (kind : MessageKind) : Word.InRange 4 kind.tag := by
  cases kind <;> exact ⟨by decide, by decide⟩

/-! ## Fields -/

namespace Word

/-- A word that stands at an offset of a frame is read from there. -/
theorem field_eq {frame : Bytes} (before : Bytes) {offset width : Nat} {value : Int}
    (hbegins : before ++ encode width value <+: frame) (hoffset : before.length = offset)
    (hrange : InRange width value) : field frame offset width = value := by
  obtain ⟨rest, rfl⟩ := hbegins
  have hword : ((before ++ encode width value ++ rest).drop offset).take width =
      encode width value := by
    rw [List.append_assoc, ← hoffset, List.drop_left, List.take_left' (length_encode width value)]
  rw [field, hword, decode_encode hrange]

/-- What is read fits the bytes it is read from. -/
theorem decode_inRange (bytes : Bytes) : InRange bytes.length (decode bytes) := by
  have hlow := Int.le_bmod (x := (toNat bytes : Int)) (bound_pos bytes.length)
  have hhigh := Int.bmod_lt (x := (toNat bytes : Int)) (bound_pos bytes.length)
  unfold InRange decode
  omega

theorem field_inRange {bytes : Bytes} {offset width : Nat}
    (hlength : offset + width ≤ bytes.length) : InRange width (field bytes offset width) := by
  have hword : ((bytes.drop offset).take width).length = width := by
    rw [List.length_take, List.length_drop]
    omega
  have hrange := decode_inRange ((bytes.drop offset).take width)
  rwa [hword] at hrange

end Word

/-! ## Commands -/

namespace Command

/-- What is written of a command is read as one, with the numbers that fit their words. -/
theorem decode_layout {command : Command} (hpayload : command.payload.length ≤ maxPayload) :
    decode command.layout = .ok
      ⟨Word.field command.layout 0 4, Word.field command.layout 4 8, command.payload⟩ := by
  have hlength : command.layout.length = commandHeaderLength + command.payload.length :=
    length_layout command
  have hdeclared : Word.field command.layout 12 4 = command.payload.length := by
    refine Word.field_eq (Word.encode 4 command.sourceId ++ Word.encode 8 command.sequence)
      (by simp [layout]) (by simp) ?_
    simp only [Word.InRange, Word.bound, maxPayload] at hpayload ⊢
    omega
  have hrest : command.layout.drop commandHeaderLength = command.payload := by
    rw [layout, List.drop_left']
    simp [commandHeaderLength]
  have hlong : ¬ command.layout.length < commandHeaderLength := by omega
  have hpositive : ¬ (command.payload.length : Int) < 0 := by omega
  rw [decode, if_neg hlong, hdeclared, hrest]
  simp [hpositive, hlength]

/-- A command is read back from its bytes. -/
theorem decode_encode {command : Command} (h : command.Fits) {bytes : Bytes}
    (hencode : command.encode = .ok bytes) : decode bytes = .ok command := by
  unfold encode at hencode
  split at hencode
  next hpayload =>
    obtain rfl := Except.ok.inj hencode
    have hsource : Word.field command.layout 0 4 = command.sourceId :=
      Word.field_eq [] (by simp [layout]) rfl h.1
    have hsequence : Word.field command.layout 4 8 = command.sequence :=
      Word.field_eq (Word.encode 4 command.sourceId) (by simp [layout]) (by simp) h.2
    rw [decode_layout hpayload, hsource, hsequence]
  next => cases hencode

/-- Some command is read from what is written, also when its numbers do not fit. -/
theorem decodes_of_encode {command : Command} {bytes : Bytes}
    (hencode : command.encode = .ok bytes) : Decodes bytes := by
  unfold encode at hencode
  split at hencode
  next hpayload =>
    obtain rfl := Except.ok.inj hencode
    exact ⟨_, decode_layout hpayload⟩
  next => cases hencode

/-- What is read as a command fits. -/
theorem fits_of_decode {bytes : Bytes} {command : Command} (h : decode bytes = .ok command) :
    command.Fits := by
  unfold decode at h
  split at h
  next => cases h
  next hlong =>
    simp only [commandHeaderLength] at hlong
    simp only at h
    split at h
    next => cases h
    next =>
      split at h
      next => cases h
      next =>
        obtain rfl := Except.ok.inj h
        exact ⟨Word.field_inRange (by omega), Word.field_inRange (by omega)⟩

end Command

namespace Frame

theorem flagAt_eq {frame : Bytes} (before : Bytes) {offset : Nat} {value : Bool}
    (hbegins : before ++ flag value <+: frame) (hoffset : before.length = offset) :
    flagAt frame offset = .ok value := by
  obtain ⟨rest, rfl⟩ := hbegins
  have hbyte : (before ++ flag value ++ rest).getD offset 0 = if value then 1 else 0 := by
    simp [← hoffset, flag]
  rw [flagAt, hbyte]
  cases value <;> rfl

variable {frame : Bytes} {kind : MessageKind} {term : Term}

/-- The kind is read back from the header. -/
theorem kind_eq (hbegins : header kind term <+: frame) : Frame.kind frame = .ok kind := by
  have hlength : ¬ frame.length < headerLength := by
    have := hbegins.length_le
    simp only [header, List.length_append, Word.length_encode] at this
    simp only [headerLength]
    omega
  have htag : Word.field frame 0 4 = kind.tag :=
    Word.field_eq [] ((List.prefix_append _ _).trans hbegins) rfl kind.tag_inRange
  simp [Frame.kind, hlength, htag, MessageKind.ofTag?_tag]

theorem expectKind_eq (hbegins : header kind term <+: frame) : expectKind frame kind = .ok () := by
  simp [expectKind, kind_eq hbegins, bind, Except.bind, pure, Except.pure]

theorem expectFixed_eq (hbegins : header kind term <+: frame) {length : Nat}
    (hlength : frame.length = length) : expectFixed frame kind length = .ok () := by
  simp [expectFixed, expectKind_eq hbegins, hlength, bind, Except.bind, pure, Except.pure]

/-- The term is read back from the header if it fits. -/
theorem term_eq (hbegins : header kind term <+: frame) (hrange : Word.InRange 4 term) :
    Word.field frame 4 4 = term :=
  Word.field_eq (Word.encode 4 kind.tag) hbegins (Word.length_encode ..) hrange

end Frame

/-! ## Messages -/

open Consensus.Frame

theorem VoteRequest.decode_encode {request : VoteRequest}
    (h : (Message.voteRequest request).Fits) :
    VoteRequest.decode request.encode = .ok request := by
  obtain ⟨hterm, hcandidate, hlast⟩ := h
  have hheader : header .voteRequest request.term <+: request.encode := by simp [encode]
  have hfixed : expectFixed request.encode .voteRequest voteRequestLength = .ok () :=
    expectFixed_eq hheader (Message.length_encode (.voteRequest request))
  have hcandidate_field : Word.field request.encode 8 4 = request.candidateId :=
    Word.field_eq (header .voteRequest request.term) (by simp [encode]) (by simp [header])
      hcandidate
  have hlast_term : Word.field request.encode 12 4 = request.lastLogEntry.term :=
    Word.field_eq (header .voteRequest request.term ++ Word.encode 4 request.candidateId)
      (by simp [encode]) (by simp [header]) hlast.1
  have hlast_index : Word.field request.encode 16 8 = request.lastLogEntry.index :=
    Word.field_eq (header .voteRequest request.term ++ Word.encode 4 request.candidateId ++
      Word.encode 4 request.lastLogEntry.term) (by simp [encode]) (by simp [header]) hlast.2
  simp only [decode, hfixed, term_eq hheader hterm, hcandidate_field, hlast_term, hlast_index,
    bind, Except.bind, pure, Except.pure]

theorem VoteResponse.decode_encode {response : VoteResponse}
    (h : (Message.voteResponse response).Fits) :
    VoteResponse.decode response.encode = .ok response := by
  have hheader : header .voteResponse response.term <+: response.encode := by simp [encode]
  have hfixed : expectFixed response.encode .voteResponse voteResponseLength = .ok () :=
    expectFixed_eq hheader (Message.length_encode (.voteResponse response))
  have hgranted : flagAt response.encode 8 = .ok response.granted :=
    flagAt_eq (header .voteResponse response.term) (by simp [encode]) (by simp [header])
  simp only [decode, hfixed, hgranted, term_eq hheader h, bind, Except.bind, pure, Except.pure]

theorem AppendResponse.decode_encode {response : AppendResponse}
    (h : (Message.appendResponse response).Fits) :
    AppendResponse.decode response.encode = .ok response := by
  obtain ⟨hterm, hserver, hmatch⟩ := h
  have hheader : header .appendResponse response.term <+: response.encode := by simp [encode]
  have hfixed : expectFixed response.encode .appendResponse appendResponseLength = .ok () :=
    expectFixed_eq hheader (Message.length_encode (.appendResponse response))
  have hsuccessful : flagAt response.encode 8 = .ok response.successful :=
    flagAt_eq (header .appendResponse response.term) (by simp [encode]) (by simp [header])
  have hserver_field : Word.field response.encode 9 4 = response.serverId :=
    Word.field_eq (header .appendResponse response.term ++ flag response.successful)
      (by simp [encode]) (by simp [header, flag]) hserver
  have hmatch_field : Word.field response.encode 13 8 = response.matchLogIndex :=
    Word.field_eq (header .appendResponse response.term ++ flag response.successful ++
      Word.encode 4 response.serverId) (by simp [encode]) (by simp [header, flag]) hmatch
  simp only [decode, hfixed, hsuccessful, term_eq hheader hterm, hserver_field, hmatch_field,
    bind, Except.bind, pure, Except.pure]

theorem TimeoutNow.decode_encode {request : TimeoutNow}
    (h : (Message.timeoutNow request).Fits) :
    TimeoutNow.decode request.encode = .ok request := by
  obtain ⟨hterm, hcandidate⟩ := h
  have hheader : header .timeoutNow request.term <+: request.encode := by simp [encode]
  have hfixed : expectFixed request.encode .timeoutNow timeoutNowLength = .ok () :=
    expectFixed_eq hheader (Message.length_encode (.timeoutNow request))
  have hcandidate_field : Word.field request.encode 8 4 = request.candidateId :=
    Word.field_eq (header .timeoutNow request.term) (by simp [encode]) (by simp [header])
      hcandidate
  simp only [decode, hfixed, term_eq hheader hterm, hcandidate_field, bind, Except.bind, pure,
    Except.pure]

namespace AppendRequest

/-- The fields in front of the entry. -/
def preamble (request : AppendRequest) : Bytes :=
  header .appendRequest request.term ++ Word.encode 4 request.leaderId ++
    Word.encode 4 request.prevLogEntry.term ++ Word.encode 8 request.prevLogEntry.index ++
    Word.encode 8 request.leaderCommit

theorem length_preamble (request : AppendRequest) :
    request.preamble.length = heartbeatLength := by
  simp [preamble, header, heartbeatLength]

theorem encode_of_none {request : AppendRequest} (h : request.entry = none) :
    request.encode = request.preamble := by
  simp [encode, preamble, h]

theorem encode_of_some {request : AppendRequest} {entry : PlacedEntry}
    (h : request.entry = some entry) :
    request.encode = request.preamble ++ Word.encode 4 entry.term ++
      Word.encode 8 entry.index ++ entry.command := by
  simp [encode, preamble, h]

/-- Of what a request carries, only a command that is none is refused. -/
theorem decodeEntry_encode {request : AppendRequest} (h : (Message.appendRequest request).Fits) :
    decodeEntry request.encode = .ok request.entry ∨
      ∃ entry cause, request.entry = some entry ∧ ¬ Command.Decodes entry.command ∧
        decodeEntry request.encode = .error cause := by
  obtain ⟨_, _, _, _, hentry⟩ := h
  cases hcarried : request.entry with
  | none =>
    refine .inl (if_pos ?_)
    rw [encode_of_none hcarried, length_preamble]
  | some entry =>
    have hencode := encode_of_some hcarried
    have hlength : request.encode.length = entryCommandOffset + entry.command.length := by
      have := Message.length_encode (.appendRequest request)
      simpa [Message.encode, Message.encodedLength, encodedLength, hcarried] using this
    have hcommand : request.encode.drop entryCommandOffset = entry.command := by
      rw [hencode, List.drop_left']
      simp [length_preamble, heartbeatLength, entryCommandOffset]
    have hterm : Word.field request.encode 32 4 = entry.term :=
      Word.field_eq request.preamble (by simp [hencode]) request.length_preamble
        (hentry entry hcarried).1
    have hindex : Word.field request.encode 36 8 = entry.index :=
      Word.field_eq (request.preamble ++ Word.encode 4 entry.term) (by simp [hencode])
        (by simp [length_preamble, heartbeatLength]) (hentry entry hcarried).2
    have hnot_heartbeat : ¬ request.encode.length = heartbeatLength := by
      simp only [hlength, heartbeatLength, entryCommandOffset]
      omega
    unfold decodeEntry
    rw [if_neg hnot_heartbeat]
    cases hdecode : Command.decode entry.command with
    | error cause =>
      have hrefused : ¬ Command.Decodes entry.command := by
        rintro ⟨command, hok⟩
        rw [hdecode] at hok
        cases hok
      right
      -- The frame is refused for its length before the command is looked at.
      split
      next => exact ⟨entry, _, rfl, hrefused, rfl⟩
      next =>
        refine ⟨entry, cause, rfl, hrefused, ?_⟩
        simp only [hcommand, hdecode, bind, Except.bind]
    | ok command =>
      left
      have hlong : ¬ request.encode.length < entryCommandOffset + commandHeaderLength := by
        intro hshort
        have : entry.command.length < commandHeaderLength := by omega
        simp [Command.decode, this] at hdecode
      rw [if_neg hlong]
      simp only [hcommand, hdecode, hterm, hindex, bind, Except.bind, pure, Except.pure]

theorem decode_encode_eq_map {request : AppendRequest} (h : (Message.appendRequest request).Fits) :
    decode request.encode = (decodeEntry request.encode).map ({ request with entry := · }) := by
  obtain ⟨hterm, hleader, hprev, hcommit, _⟩ := h
  have hheader : header .appendRequest request.term <+: request.encode := by simp [encode]
  have hkind : expectKind request.encode .appendRequest = .ok () := expectKind_eq hheader
  have hleader_field : Word.field request.encode 8 4 = request.leaderId :=
    Word.field_eq (header .appendRequest request.term) (by simp [encode]) (by simp [header])
      hleader
  have hprev_term : Word.field request.encode 12 4 = request.prevLogEntry.term :=
    Word.field_eq (header .appendRequest request.term ++ Word.encode 4 request.leaderId)
      (by simp [encode]) (by simp [header]) hprev.1
  have hprev_index : Word.field request.encode 16 8 = request.prevLogEntry.index :=
    Word.field_eq (header .appendRequest request.term ++ Word.encode 4 request.leaderId ++
      Word.encode 4 request.prevLogEntry.term) (by simp [encode]) (by simp [header]) hprev.2
  have hcommit_field : Word.field request.encode 24 8 = request.leaderCommit :=
    Word.field_eq (header .appendRequest request.term ++ Word.encode 4 request.leaderId ++
      Word.encode 4 request.prevLogEntry.term ++ Word.encode 8 request.prevLogEntry.index)
      (by simp [encode]) (by simp [header]) hcommit
  cases hentry : decodeEntry request.encode <;>
  simp only [decode, hkind, hentry, term_eq hheader hterm, hleader_field, hprev_term, hprev_index,
    hcommit_field, bind, Except.bind, pure, Except.pure, Except.map]

/-- A request is read back, or its command is refused. -/
theorem decode_encode {request : AppendRequest} (h : (Message.appendRequest request).Fits) :
    decode request.encode = .ok request ∨
      ∃ entry cause, request.entry = some entry ∧ ¬ Command.Decodes entry.command ∧
        decode request.encode = .error cause := by
  rw [decode_encode_eq_map h]
  rcases decodeEntry_encode h with hok | ⟨entry, cause, hentry, hrefused, herror⟩
  · rw [hok]
    exact .inl rfl
  · rw [herror]
    exact .inr ⟨entry, cause, hentry, hrefused, rfl⟩

end AppendRequest

namespace Message

theorem header_isPrefix (message : Message) :
    header message.kind message.term <+: message.encode := by
  cases message <;>
  simp [encode, VoteRequest.encode, VoteResponse.encode, AppendRequest.encode,
    AppendResponse.encode, TimeoutNow.encode, kind, term]

/-- A message is read back from its frame, unless it is a request whose command is none. -/
theorem decode_encode {message : Message} (h : message.Fits) :
    decode message.encode = .ok message ∨
      ∃ request entry cause, message = .appendRequest request ∧ request.entry = some entry ∧
        ¬ Command.Decodes entry.command ∧ decode message.encode = .error cause := by
  have hkind : Frame.kind message.encode = .ok message.kind := kind_eq message.header_isPrefix
  cases message with
  | voteRequest body =>
    replace hkind : Frame.kind body.encode = .ok .voteRequest := hkind
    simp [decode, encode, hkind, VoteRequest.decode_encode h, bind, Except.bind, pure, Except.pure]
  | voteResponse body =>
    replace hkind : Frame.kind body.encode = .ok .voteResponse := hkind
    simp [decode, encode, hkind, VoteResponse.decode_encode h, bind, Except.bind, pure, Except.pure]
  | appendRequest body =>
    replace hkind : Frame.kind body.encode = .ok .appendRequest := hkind
    rcases AppendRequest.decode_encode h with hread | ⟨entry, cause, hentry, hrefused, herror⟩
    · simp [decode, encode, hkind, hread, bind, Except.bind, pure, Except.pure]
    · refine .inr ⟨body, entry, cause, rfl, hentry, hrefused, ?_⟩
      simp [decode, encode, hkind, herror, bind, Except.bind]
  | appendResponse body =>
    replace hkind : Frame.kind body.encode = .ok .appendResponse := hkind
    simp [decode, encode, hkind, AppendResponse.decode_encode h, bind, Except.bind, pure,
      Except.pure]
  | timeoutNow body =>
    replace hkind : Frame.kind body.encode = .ok .timeoutNow := hkind
    simp [decode, encode, hkind, TimeoutNow.decode_encode h, bind, Except.bind, pure, Except.pure]

/-- What is read from the frame of a message is the message. -/
theorem eq_of_decode_encode {message decoded : Message} (h : message.Fits)
    (hok : decode message.encode = .ok decoded) : decoded = message := by
  rcases decode_encode h with hread | ⟨_, _, cause, _, _, _, herror⟩
  · exact Except.ok.inj (hok.symm.trans hread)
  · rw [herror] at hok
    cases hok

end Message

end Consensus
