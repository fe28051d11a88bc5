import Consensus.Proofs.Results
import Consensus.Wire.Buffer

/-! # What a buffer holds after writing

Fields that follow one another without a gap fill a buffer with their bytes, one behind the
other. The frame of a message is written so, whatever the buffer held before.
-/

namespace Consensus

namespace Buffer

/-- Each field starts where the one in front of it ends, the first one at `offset`. -/
def Adjoining : (offset : Nat) → List Field → Prop
  | _, [] => True
  | offset, field :: rest => field.offset = offset ∧ Adjoining (offset + field.bytes.length) rest

/-- The bytes of fields, one behind the other. -/
def contents (fields : List Field) : Bytes := fields.flatMap Field.bytes

theorem put_behind {front : Bytes} {room : Nat} {field : Field}
    (hoffset : field.offset = front.length) :
    put (front ++ List.replicate room 0) field =
      front ++ field.bytes ++ List.replicate (room - field.bytes.length) 0 := by
  unfold put
  rw [hoffset, List.take_left, List.drop_append, List.drop_replicate]
  simp

theorem foldl_put {fields : List Field} {front : Bytes} {room : Nat}
    (hadjoining : Adjoining front.length fields) :
    fields.foldl put (front ++ List.replicate room 0) =
      front ++ contents fields ++ List.replicate (room - (contents fields).length) 0 := by
  induction fields generalizing front room with
  | nil => simp [contents]
  | cons field rest ih =>
    obtain ⟨hoffset, hrest⟩ := hadjoining
    rw [List.foldl_cons, put_behind hoffset, ih (by simpa using hrest)]
    simp [contents, Nat.sub_sub]

/-- Adjoining fields of the right length are all that a buffer holds afterwards. -/
theorem write_eq {fields : List Field} {length : Nat} (buffer : Bytes)
    (hadjoining : Adjoining 0 fields) (hlength : (contents fields).length = length) :
    write buffer length fields = (contents fields, length) := by
  have hempty : resize (clear buffer) length = [] ++ List.replicate length 0 := by
    simp [resize, clear]
  have hfilled : fields.foldl put ([] ++ List.replicate length 0) =
      [] ++ contents fields ++ List.replicate (length - (contents fields).length) 0 :=
    foldl_put hadjoining
  rw [write, hempty, hfilled, hlength]
  simp

end Buffer

open Consensus.Frame

theorem Message.adjoining_fields (message : Message) : Buffer.Adjoining 0 message.fields := by
  cases message with
  | appendRequest body =>
    cases hentry : body.entry <;>
    simp [fields, headerFields, Buffer.Adjoining, hentry, entryCommandOffset]
  | _ => simp [fields, headerFields, Buffer.Adjoining, flag]

theorem Message.contents_fields (message : Message) :
    Buffer.contents message.fields = message.encode := by
  cases message with
  | appendRequest body =>
    cases hentry : body.entry <;>
    simp [fields, headerFields, Buffer.contents, encode, AppendRequest.encode, header, hentry]
  | _ => simp [fields, headerFields, Buffer.contents, encode, VoteRequest.encode,
      VoteResponse.encode, AppendResponse.encode, TimeoutNow.encode, header]

/-- A buffer holds the frame and nothing else, whatever it held before. -/
theorem Message.write_eq (buffer : Bytes) (message : Message) :
    message.write buffer = (message.encode, message.encodedLength) := by
  have hlength : (Buffer.contents message.fields).length = message.encodedLength := by
    rw [message.contents_fields, message.length_encode]
  rw [write, Buffer.write_eq buffer message.adjoining_fields hlength, message.contents_fields]

/-- A command that can be written is all that the buffer holds then. -/
theorem Command.write_eq (buffer : Bytes) (command : Command) :
    command.write buffer = command.encode.map fun bytes => (bytes, command.encodedLength) := by
  have hadjoining : Buffer.Adjoining 0 command.fields := by
    simp [fields, Buffer.Adjoining, commandHeaderLength]
  have hcontents : Buffer.contents command.fields = command.layout := by
    simp [fields, Buffer.contents, layout]
  have hlength : (Buffer.contents command.fields).length = command.encodedLength := by
    rw [hcontents, length_layout]
  unfold write encode
  split
  next => rw [Buffer.write_eq buffer hadjoining hlength, hcontents]; rfl
  next => rfl

end Consensus
