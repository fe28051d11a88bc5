import Consensus.Protocol.Message

/-! # Malformed frames

A byte string that is no frame is refused with the first reason that applies:
its header, its kind, its length, a truth value, and last the command inside.
-/

namespace Consensus

/-- Bytes of tag and term at the head of every frame. -/
def headerLength : Nat := 8

/-- Bytes in front of a command's payload. -/
def commandHeaderLength : Nat := 16

/-- Why a byte string is no frame, or no command. -/
inductive Malformed where
  | shortFrame (length : Nat)
  | unknownTag (tag : Int)
  | unexpectedKind (expected found : MessageKind)
  | wrongLength (kind : MessageKind) (expected length : Nat)
  /-- Longer than a heartbeat, or shorter, and too short to carry an entry. -/
  | partialEntry (length : Nat)
  | invalidBoolean (byte : UInt8) (offset : Nat)
  | shortCommand (length : Nat)
  | negativePayload (declared : Int)
  | payloadMismatch (declared carried : Nat)
  /-- The payload's length does not fit the four bytes that declare it. -/
  | payloadTooLong (length : Nat)
  deriving DecidableEq, Repr

def Malformed.message : Malformed → String
  | .shortFrame length =>
      s!"frame of {length} bytes is shorter than the {headerLength}-byte header"
  | .unknownTag tag => s!"unknown type tag {tag}"
  | .unexpectedKind expected found => s!"expected {expected.name}, found {found.name}"
  | .wrongLength kind expected length =>
      s!"{kind.name} frame must be {expected} bytes, got {length}"
  | .partialEntry length =>
      s!"AppendRequest frame of {length} bytes is neither a heartbeat nor carries a full entry"
  | .invalidBoolean byte offset => s!"invalid boolean byte {byte.toNat} at offset {offset}"
  | .shortCommand length =>
      s!"command of {length} bytes is shorter than its {commandHeaderLength}-byte header"
  | .negativePayload declared => s!"negative payload length {declared}"
  | .payloadMismatch declared carried =>
      s!"command declares {declared} payload bytes but carries {carried}"
  | .payloadTooLong length => s!"payload of {length} bytes is too long"

end Consensus
