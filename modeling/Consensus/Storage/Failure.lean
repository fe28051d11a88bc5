import Consensus.Wire.Malformed

/-! # Storage failures

A storage call that fails says why. The kind of a failure tells a request that
could never be met from data that is not what the storage wrote.
-/

namespace Consensus

/-- Why a storage call, or the delivery of a stored entry, failed. -/
inductive StorageFailure where
  /-- Writes are switched off. -/
  | injectedFault
  /-- An append in memory that does not extend the log by one. -/
  | misplacedAppend (index expected : Index)
  /-- An append on disk that does not extend the log by one. -/
  | appendOutOfOrder (index expected : Index)
  | negativeTruncation (index : Index)
  /-- A record on disk that does not hold the next index. -/
  | corruptRecord (offset : Nat) (index expected : Index)
  | invalidMetadata
  /-- The metadata file is not UTF-8. -/
  | metadataNotText
  /-- The command's length does not fit the four bytes that record it. -/
  | commandTooLarge (length : Nat)
  /-- The operating system did not carry out a change of the log file, which holds `file` by
  then. -/
  | writeFailed (cause : String) (file : Bytes)
  | entryMissing (index : Index)
  | entryCorrupt (index : Index) (cause : Malformed)
  deriving DecidableEq, Repr

namespace StorageFailure

/-- What kind of failure the caller sees. -/
inductive Kind where
  | invalidInput
  | invalidData
  | other
  deriving DecidableEq, Repr

def kind : StorageFailure → Kind
  | .injectedFault => .other
  | .misplacedAppend _ _ => .invalidInput
  | .appendOutOfOrder _ _ => .invalidInput
  | .negativeTruncation _ => .invalidInput
  | .corruptRecord _ _ _ => .invalidData
  | .invalidMetadata => .invalidData
  | .metadataNotText => .invalidData
  | .commandTooLarge _ => .invalidInput
  | .writeFailed _ _ => .other
  | .entryMissing _ => .invalidData
  | .entryCorrupt _ _ => .invalidData

def message : StorageFailure → String
  | .injectedFault => "injected write failure"
  | .misplacedAppend index expected => s!"append at index {index}, expected {expected}"
  | .appendOutOfOrder index expected =>
      s!"entry {index} appended out of order, expected {expected}"
  | .negativeTruncation index => s!"cannot truncate from negative index {index}"
  | .corruptRecord offset index expected =>
      s!"log record at byte {offset} is corrupt: holds index {index}, expected {expected}"
  | .invalidMetadata => "invalid metadata"
  | .metadataNotText => "stream did not contain valid UTF-8"
  | .commandTooLarge length => s!"command of {length} bytes is too large for a log record"
  | .writeFailed cause _ => cause
  | .entryMissing index => s!"committed entry {index} is missing from the log"
  | .entryCorrupt index cause =>
      s!"committed entry {index} is corrupt: malformed message: {cause.message}"

end StorageFailure

end Consensus
