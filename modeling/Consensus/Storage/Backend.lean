import Consensus.Storage.Disk
import Consensus.Storage.Memory

/-! # Choice of storage

A server can be given either kind of store at run time.
-/

namespace Consensus

/-- A store of either kind. -/
inductive Backend where
  | memory (store : MemoryStore)
  | disk (store : DiskStore)
  deriving DecidableEq, Repr

namespace Backend

/-- The files of a store on disk. -/
def directory? : Backend → Option Directory
  | .memory _ => none
  | .disk store => some store.directory

/-- Changes the files behind the back of a store on disk. -/
def changeFiles (change : Directory → Directory) : Backend → Backend
  | .memory store => .memory store
  | .disk store => .disk { store with directory := change store.directory }

/-- Turns the failure of writes on or off. Only a store in memory has the switch. -/
def setFault (faulty : Bool) : Backend → Backend
  | .memory store => .memory (store.setFault faulty)
  | .disk store => .disk store

/-- Tells what the operating system will make of the next changes of a log file. -/
def schedule (fates : List Fate) : Backend → Backend
  | .memory store => .memory store
  | .disk store => .disk { store with fates }

/-- The store after a failed call, with the files as the call has left them. -/
def afterFailure (cause : StorageFailure) : Backend → Backend
  | .memory store => .memory store
  | .disk store => .disk (store.afterFailure cause)

/-- Opens the storage anew. Memory has forgotten everything; a directory is read again. -/
def reopen : Backend → Except StorageFailure Backend
  | .memory _ => .ok (.memory {})
  | .disk store => (DiskStore.openDirectory store.directory).map .disk

end Backend

instance : Store Backend where
  save
    | .memory store, term, votedFor => (Store.save store term votedFor).map .memory
    | .disk store, term, votedFor => (Store.save store term votedFor).map .disk
  load
    | .memory store => Store.load store
    | .disk store => Store.load store
  append
    | .memory store, index, entry => (Store.append store index entry).map .memory
    | .disk store, index, entry => (Store.append store index entry).map .disk
  truncate
    | .memory store, index => (Store.truncate store index).map .memory
    | .disk store, index => (Store.truncate store index).map .disk
  entries
    | .memory store => store.entries
    | .disk store => store.entries

end Consensus
