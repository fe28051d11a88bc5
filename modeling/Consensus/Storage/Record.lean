import Consensus.Storage.Store
import Consensus.Wire.Word

/-! # Log records

A log file is a row of records. A record is the entry's term (4 bytes), index
(8), the length of its command (4, unsigned) and the command. A file may end in
the middle of a record, which is what an interrupted append leaves; that tail
is not part of the log.
-/

namespace Consensus.Record

/-- Bytes in front of a record's command. -/
def headLength : Nat := 16

/-- Command lengths a record can hold are below this bound. -/
def lengthBound : Nat := Word.bound 4

/-- Bytes of an entry's record. -/
def size (entry : Entry) : Nat := headLength + entry.command.length

def encode (index : Index) (entry : Entry) : Bytes :=
  Word.encode 4 entry.term ++ Word.encode 8 index ++ Word.ofNat 4 entry.command.length ++
    entry.command

/-- The records of consecutive entries, the first one at `index`. -/
def encodeAll (index : Index) : List Entry → Bytes
  | [] => []
  | entry :: rest => encode index entry ++ encodeAll (index + 1) rest

/-- What a log file holds. -/
structure Image where
  entries : List Entry
  /-- Where each entry's record starts. -/
  offsets : List Nat
  /-- Where the last whole record ends. -/
  stop : Nat
  deriving DecidableEq, Repr

/-- Reads the records from `offset` on, where `count` records have gone before.
The index is tested before the length, so a wrong one is noticed even in a record
that was cut off. -/
def scan (count offset : Nat) (rest : Bytes) : Except StorageFailure Image :=
  if rest.length < headLength then
    .ok ⟨[], [], offset⟩
  else
    let index := Word.field rest 4 8
    let length := Word.toNat ((rest.drop 12).take 4)
    if index ≠ count then
      .error (.corruptRecord offset index count)
    else if rest.length - headLength < length then
      .ok ⟨[], [], offset⟩
    else
      let entry : Entry := ⟨Word.field rest 0 4, (rest.drop headLength).take length⟩
      let next := headLength + length
      (scan (count + 1) (offset + next) (rest.drop next)).map fun later =>
        ⟨entry :: later.entries, offset :: later.offsets, later.stop⟩
termination_by rest.length
decreasing_by
  simp only [headLength, List.length_drop] at *
  omega

/-- Reads a whole log file. -/
def parse (file : Bytes) : Except StorageFailure Image := scan 0 0 file

end Consensus.Record
