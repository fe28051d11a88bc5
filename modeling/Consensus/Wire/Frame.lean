import Consensus.Wire.Command

/-! # Frames

Every frame opens with a four-byte tag and a four-byte term; the rest has a
fixed layout for each kind. Only an append request varies in length: an entry's
term, index and command follow the heartbeat's fields, and the command fills
the rest of the frame.
-/

namespace Consensus

namespace Frame

/-- Bytes of a vote request. -/
def voteRequestLength : Nat := 24

/-- Bytes of a vote response. -/
def voteResponseLength : Nat := 9

/-- Bytes of an append request without an entry. -/
def heartbeatLength : Nat := 32

/-- Where the command starts in an append request that carries an entry. -/
def entryCommandOffset : Nat := 44

/-- Bytes of an append response. -/
def appendResponseLength : Nat := 21

/-- Bytes of a request to time out. -/
def timeoutNowLength : Nat := 12

/-- The tag and term at the head of a frame. -/
def header (kind : MessageKind) (term : Term) : Bytes :=
  Word.encode 4 kind.tag ++ Word.encode 4 term

/-- A truth value is the byte 1 or 0. -/
def flag (value : Bool) : Bytes := [if value then 1 else 0]

/-- Reads the truth value at `offset` of a frame that is long enough. -/
def flagAt (frame : Bytes) (offset : Nat) : Except Malformed Bool :=
  match frame.getD offset 0 with
  | 0 => .ok false
  | 1 => .ok true
  | byte => .error (.invalidBoolean byte offset)

/-- The kind that a frame's tag announces. -/
def kind (frame : Bytes) : Except Malformed MessageKind :=
  if frame.length < headerLength then
    .error (.shortFrame frame.length)
  else
    let tag := Word.field frame 0 4
    match MessageKind.ofTag? tag with
    | some found => .ok found
    | none => .error (.unknownTag tag)

/-- The term of a frame whose tag is known. The rest of the frame is not read. -/
def term (frame : Bytes) : Except Malformed Term := do
  let _ ← kind frame
  return Word.field frame 4 4

/-- Refuses a frame of another kind. -/
def expectKind (frame : Bytes) (expected : MessageKind) : Except Malformed Unit := do
  let found ← kind frame
  if found = expected then return () else throw (.unexpectedKind expected found)

/-- Refuses a frame of another kind or, for a kind of fixed length, of another length. -/
def expectFixed (frame : Bytes) (expected : MessageKind) (length : Nat) :
    Except Malformed Unit := do
  expectKind frame expected
  if frame.length = length then
    return ()
  else
    throw (.wrongLength expected length frame.length)

end Frame

open Consensus.Frame

namespace VoteRequest

def encode (request : VoteRequest) : Bytes :=
  header .voteRequest request.term ++ Word.encode 4 request.candidateId ++
    Word.encode 4 request.lastLogEntry.term ++ Word.encode 8 request.lastLogEntry.index

def decode (frame : Bytes) : Except Malformed VoteRequest := do
  expectFixed frame .voteRequest voteRequestLength
  return {
    term := Word.field frame 4 4
    candidateId := Word.field frame 8 4
    lastLogEntry := ⟨Word.field frame 12 4, Word.field frame 16 8⟩ }

end VoteRequest

namespace VoteResponse

def encode (response : VoteResponse) : Bytes :=
  header .voteResponse response.term ++ flag response.granted

def decode (frame : Bytes) : Except Malformed VoteResponse := do
  expectFixed frame .voteResponse voteResponseLength
  let granted ← flagAt frame 8
  return { term := Word.field frame 4 4, granted }

end VoteResponse

namespace AppendRequest

def encodedLength (request : AppendRequest) : Nat :=
  match request.entry with
  | some entry => entryCommandOffset + entry.command.length
  | none => heartbeatLength

/-- The bytes of a request. The entry's command is taken as it is. -/
def encode (request : AppendRequest) : Bytes :=
  header .appendRequest request.term ++ Word.encode 4 request.leaderId ++
    Word.encode 4 request.prevLogEntry.term ++ Word.encode 8 request.prevLogEntry.index ++
    Word.encode 8 request.leaderCommit ++
    match request.entry with
    | some entry => Word.encode 4 entry.term ++ Word.encode 8 entry.index ++ entry.command
    | none => []

/-- The entry a frame carries, none for a heartbeat. Its command must decode. -/
def decodeEntry (frame : Bytes) : Except Malformed (Option PlacedEntry) :=
  if frame.length = heartbeatLength then
    .ok none
  else if frame.length < entryCommandOffset + commandHeaderLength then
    .error (.partialEntry frame.length)
  else do
    let command := frame.drop entryCommandOffset
    let _ ← Command.decode command
    return some ⟨Word.field frame 32 4, Word.field frame 36 8, command⟩

def decode (frame : Bytes) : Except Malformed AppendRequest := do
  expectKind frame .appendRequest
  let entry ← decodeEntry frame
  return {
    term := Word.field frame 4 4
    leaderId := Word.field frame 8 4
    prevLogEntry := ⟨Word.field frame 12 4, Word.field frame 16 8⟩
    leaderCommit := Word.field frame 24 8
    entry }

end AppendRequest

namespace AppendResponse

def encode (response : AppendResponse) : Bytes :=
  header .appendResponse response.term ++ flag response.successful ++
    Word.encode 4 response.serverId ++ Word.encode 8 response.matchLogIndex

def decode (frame : Bytes) : Except Malformed AppendResponse := do
  expectFixed frame .appendResponse appendResponseLength
  let successful ← flagAt frame 8
  return {
    term := Word.field frame 4 4
    successful
    serverId := Word.field frame 9 4
    matchLogIndex := Word.field frame 13 8 }

end AppendResponse

namespace TimeoutNow

def encode (request : TimeoutNow) : Bytes :=
  header .timeoutNow request.term ++ Word.encode 4 request.candidateId

def decode (frame : Bytes) : Except Malformed TimeoutNow := do
  expectFixed frame .timeoutNow timeoutNowLength
  return { term := Word.field frame 4 4, candidateId := Word.field frame 8 4 }

end TimeoutNow

namespace Message

def encodedLength : Message → Nat
  | .voteRequest _ => voteRequestLength
  | .voteResponse _ => voteResponseLength
  | .appendRequest body => body.encodedLength
  | .appendResponse _ => appendResponseLength
  | .timeoutNow _ => timeoutNowLength

/-- The frame of a message. Fields wrap to the width of their words. -/
def encode : Message → Bytes
  | .voteRequest body => body.encode
  | .voteResponse body => body.encode
  | .appendRequest body => body.encode
  | .appendResponse body => body.encode
  | .timeoutNow body => body.encode

/-- Reads a frame of any kind. -/
def decode (frame : Bytes) : Except Malformed Message := do
  match ← Frame.kind frame with
  | .voteRequest => return .voteRequest (← VoteRequest.decode frame)
  | .voteResponse => return .voteResponse (← VoteResponse.decode frame)
  | .appendRequest => return .appendRequest (← AppendRequest.decode frame)
  | .appendResponse => return .appendResponse (← AppendResponse.decode frame)
  | .timeoutNow => return .timeoutNow (← TimeoutNow.decode frame)

@[simp] theorem length_encode (message : Message) :
    message.encode.length = message.encodedLength := by
  cases message with
  | appendRequest body =>
    simp only [encode, AppendRequest.encode, encodedLength, AppendRequest.encodedLength]
    cases body.entry with
    | none => simp [header, heartbeatLength]
    | some entry =>
      simp [header, entryCommandOffset]
      omega
  | _ => simp [encode, encodedLength, header, flag, VoteRequest.encode, VoteResponse.encode,
      AppendResponse.encode, TimeoutNow.encode, voteRequestLength, voteResponseLength,
      appendResponseLength, timeoutNowLength]

end Message

end Consensus
