import Consensus.Wire.Malformed
import Consensus.Wire.Word

/-! # Command layout

A command is its source (4 bytes), its sequence number (8), the length of its
payload (4) and the payload. It carries no tag, so it stands alone on a command
channel and fills the end of a frame that carries an entry.
-/

namespace Consensus.Command

/-- The longest payload that a command can declare. -/
def maxPayload : Nat := 2147483647

def encodedLength (command : Command) : Nat :=
  commandHeaderLength + command.payload.length

/-- The bytes of a command, without a look at the payload's length. -/
def layout (command : Command) : Bytes :=
  Word.encode 4 command.sourceId ++ Word.encode 8 command.sequence ++
    Word.encode 4 command.payload.length ++ command.payload

/-- The bytes of a command whose payload length can be declared. -/
def encode (command : Command) : Except Malformed Bytes :=
  if command.payload.length ≤ maxPayload then
    .ok command.layout
  else
    .error (.payloadTooLong command.payload.length)

/-- Reads a command that fills the whole byte string. -/
def decode (bytes : Bytes) : Except Malformed Command :=
  if bytes.length < commandHeaderLength then
    .error (.shortCommand bytes.length)
  else
    let declared := Word.field bytes 12 4
    if declared < 0 then
      .error (.negativePayload declared)
    else if bytes.length ≠ commandHeaderLength + declared.toNat then
      .error (.payloadMismatch declared.toNat (bytes.length - commandHeaderLength))
    else
      .ok ⟨Word.field bytes 0 4, Word.field bytes 4 8, bytes.drop commandHeaderLength⟩

/-- A byte string is the encoding of some command. -/
def Decodes (bytes : Bytes) : Prop := ∃ command, decode bytes = .ok command

instance (bytes : Bytes) : Decidable (Decodes bytes) :=
  decidable_of_iff ((decode bytes).isOk = true) (by
    unfold Decodes
    cases decode bytes <;> simp [Except.isOk, Except.toBool])

@[simp] theorem length_layout (command : Command) :
    command.layout.length = command.encodedLength := by
  simp [layout, encodedLength, commandHeaderLength]
  omega

end Consensus.Command
