import Consensus.Wire.Frame

/-! # Reused buffers

One buffer serves for all that a sender writes. It is emptied and brought to the length of
what is to be written, and then each field is put in its place. Nothing is left of what the
buffer held, and the fields leave no gap.
-/

namespace Consensus

/-- Bytes and the offset at which they stand. -/
structure Field where
  offset : Nat
  bytes : Bytes

namespace Buffer

def clear (_ : Bytes) : Bytes := []

/-- Cuts a buffer off, or fills it up with zeros. -/
def resize (buffer : Bytes) (length : Nat) : Bytes :=
  buffer.take length ++ List.replicate (length - buffer.length) 0

/-- Puts a field in the place of as many bytes. -/
def put (buffer : Bytes) (field : Field) : Bytes :=
  buffer.take field.offset ++ field.bytes ++ buffer.drop (field.offset + field.bytes.length)

/-- Writes fields over whatever the buffer holds, and tells how long it is then. -/
def write (buffer : Bytes) (length : Nat) (fields : List Field) : Bytes × Nat :=
  (fields.foldl put (resize (clear buffer) length), length)

end Buffer

namespace Frame

/-- The fields at the head of a frame. -/
def headerFields (kind : MessageKind) (term : Term) : List Field :=
  [⟨0, Word.encode 4 kind.tag⟩, ⟨4, Word.encode 4 term⟩]

end Frame

open Consensus.Frame

/-- The fields of a message, each where its frame has it. -/
def Message.fields : Message → List Field
  | .voteRequest body =>
    headerFields .voteRequest body.term ++ [
      ⟨8, Word.encode 4 body.candidateId⟩, ⟨12, Word.encode 4 body.lastLogEntry.term⟩,
      ⟨16, Word.encode 8 body.lastLogEntry.index⟩]
  | .voteResponse body => headerFields .voteResponse body.term ++ [⟨8, flag body.granted⟩]
  | .appendRequest body =>
    headerFields .appendRequest body.term ++ [
      ⟨8, Word.encode 4 body.leaderId⟩, ⟨12, Word.encode 4 body.prevLogEntry.term⟩,
      ⟨16, Word.encode 8 body.prevLogEntry.index⟩, ⟨24, Word.encode 8 body.leaderCommit⟩] ++
    match body.entry with
    | some entry =>
      [⟨32, Word.encode 4 entry.term⟩, ⟨36, Word.encode 8 entry.index⟩,
        ⟨entryCommandOffset, entry.command⟩]
    | none => []
  | .appendResponse body =>
    headerFields .appendResponse body.term ++ [
      ⟨8, flag body.successful⟩, ⟨9, Word.encode 4 body.serverId⟩,
      ⟨13, Word.encode 8 body.matchLogIndex⟩]
  | .timeoutNow body =>
    headerFields .timeoutNow body.term ++ [⟨8, Word.encode 4 body.candidateId⟩]

/-- Writes the frame of a message into a buffer. -/
def Message.write (buffer : Bytes) (message : Message) : Bytes × Nat :=
  Buffer.write buffer message.encodedLength message.fields

/-- The fields of a command. -/
def Command.fields (command : Command) : List Field :=
  [⟨0, Word.encode 4 command.sourceId⟩, ⟨4, Word.encode 8 command.sequence⟩,
    ⟨12, Word.encode 4 command.payload.length⟩, ⟨commandHeaderLength, command.payload⟩]

/-- Writes a command into a buffer, which stays as it is when the payload is too long. -/
def Command.write (buffer : Bytes) (command : Command) : Except Malformed (Bytes × Nat) :=
  if command.payload.length ≤ Command.maxPayload then
    .ok (Buffer.write buffer command.encodedLength command.fields)
  else
    .error (.payloadTooLong command.payload.length)

end Consensus
