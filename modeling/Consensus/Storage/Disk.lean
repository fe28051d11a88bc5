import Consensus.Storage.Metadata
import Consensus.Storage.Record

/-! # Storage on disk

A directory holds two files: the log, which only grows at its end and shrinks
by truncation, and the metadata, which is replaced as a whole. The log is kept
in memory beside its file, so a change of the file from outside shows only when
the directory is opened again, or where a later write lands on it. The operating
system may fail a change of the log file before it is whole.
-/

namespace Consensus

/-- The two files of a directory, each of which may be missing. -/
structure Directory where
  log : Option Bytes := none
  metadata : Option Bytes := none
  deriving DecidableEq, Repr

namespace Directory

def logName : String := "log.bin"

def metadataName : String := "meta.json"

/-- The names of the files, in alphabetical order. -/
def names (directory : Directory) : List String :=
  (directory.log.map fun _ => logName).toList ++
    (directory.metadata.map fun _ => metadataName).toList

/-- Drops bytes from the end of the log file. -/
def chopLog (directory : Directory) (count : Nat) : Directory :=
  { directory with log := directory.log.map fun file => file.take (file.length - count) }

end Directory

/-! ## File contents -/

/-- A file of exactly `length` bytes: cut off, or filled up with zeros. -/
def resized (file : Bytes) (length : Nat) : Bytes :=
  file.take length ++ List.replicate (length - file.length) 0

/-- A file after a write at `offset`. A gap in front of the write is filled with zeros,
and bytes behind it stay. -/
def overwritten (file : Bytes) (offset : Nat) (written : Bytes) : Bytes :=
  resized file offset ++ written ++ file.drop (offset + written.length)

/-- What the operating system makes of a change of the log file. -/
inductive Fate where
  | done
  /-- The change fails for some cause. By then nothing of it is in the file, or so many of the bytes
  to be written, or the whole cut. -/
  | failed (cause : String) (reached : Nat)
  deriving DecidableEq, Repr

/-! ## The store -/

/-- An open directory. -/
structure DiskStore where
  directory : Directory
  entries : List Entry
  /-- Where the record of each entry starts in the log file. -/
  offsets : List Nat
  /-- Where the next record goes. -/
  logEnd : Nat
  /-- What the operating system will make of the next changes of the log file. It carries out all
  later ones. -/
  fates : List Fate := []
  deriving DecidableEq, Repr

namespace DiskStore

/-- What the log file holds. -/
def file (store : DiskStore) : Bytes := store.directory.log.getD []

/-- Opens a directory. A missing log file is created and a torn tail is cut off;
a log file that holds anything else is refused and left as it is. -/
def openDirectory (directory : Directory) : Except StorageFailure DiskStore := do
  let file := directory.log.getD []
  let image ← Record.parse file
  return {
    directory := { directory with log := some (file.take image.stop) }
    entries := image.entries
    offsets := image.offsets
    logEnd := image.stop }

def save (store : DiskStore) (term : Term) (votedFor : Option ServerId) : DiskStore :=
  let file := (Metadata.render term votedFor).toUTF8.toList
  { store with directory := { store.directory with metadata := some file } }

def load (store : DiskStore) : Except StorageFailure (Term × Option ServerId) :=
  match store.directory.metadata with
  | none => .ok (0, none)
  | some file => Metadata.read file

/-- The store with one more entry, whose record is in the file. -/
def extended (store : DiskStore) (entry : Entry) : DiskStore :=
  let record := Record.encode store.entries.length entry
  { store with
    directory := { store.directory with
      log := some (overwritten store.file store.logEnd record) }
    entries := store.entries ++ [entry]
    offsets := store.offsets ++ [store.logEnd]
    logEnd := store.logEnd + record.length }

/-- The store with the first `count` entries, whose records end at `offset` in the file. -/
def shortened (store : DiskStore) (count offset : Nat) : DiskStore :=
  { store with
    directory := { store.directory with log := some (resized store.file offset) }
    entries := store.entries.take count
    offsets := store.offsets.take count
    logEnd := offset }

/-- The store after a change, if the operating system carries it out. Otherwise the file holds what
`partway` makes of it, unless nothing has reached it. -/
def commit (store changed : DiskStore) (partway : Nat → Bytes) :
    Except StorageFailure DiskStore :=
  match store.fates with
  | [] => .ok changed
  | .done :: later => .ok { changed with fates := later }
  | .failed cause reached :: _ =>
    .error (.writeFailed cause (if reached = 0 then store.file else partway reached))

def append (store : DiskStore) (index : Index) (entry : Entry) :
    Except StorageFailure DiskStore :=
  if index ≠ store.entries.length then
    .error (.appendOutOfOrder index store.entries.length)
  else if Record.lengthBound ≤ entry.command.length then
    .error (.commandTooLarge entry.command.length)
  else
    store.commit (store.extended entry) fun reached =>
      overwritten store.file store.logEnd ((Record.encode index entry).take reached)

def truncate (store : DiskStore) (index : Index) : Except StorageFailure DiskStore :=
  if index < 0 then
    .error (.negativeTruncation index)
  else
    match store.offsets[index.toNat]? with
    | none => .ok store
    | some offset =>
      store.commit (store.shortened index.toNat offset) fun _ => resized store.file offset

/-- The store after a failed call. What was kept in memory is kept, over the file as a failed change
of it has left it. -/
def afterFailure (store : DiskStore) : StorageFailure → DiskStore
  | .writeFailed _ file =>
    { store with
      directory := { store.directory with log := some file }
      fates := store.fates.tail }
  | _ => store

end DiskStore

instance : Store DiskStore where
  save store term votedFor := .ok (store.save term votedFor)
  load := DiskStore.load
  append := DiskStore.append
  truncate := DiskStore.truncate
  entries := DiskStore.entries

end Consensus
