import Consensus.Server.State
import Consensus.Storage.Backend

/-! # Restarts

A restart opens the storage anew and starts from what it holds. When that fails
the old state is kept, over the files as the attempt left them: opening a log
may already have cut off a torn tail before its metadata turns out unreadable.
-/

namespace Consensus

/-- Files as another store has them. -/
def Backend.withFilesOf (store opened : Backend) : Backend :=
  match opened.directory? with
  | none => store
  | some directory => store.changeFiles fun _ => directory

/-- The log of the reopened store. -/
def Log.reopen (log : Log Backend) :
    Except Failure Unit × Log Backend :=
  match log.store.reopen with
  | .error cause => (.error (.storage cause), log)
  | .ok store => (.ok (), .ofStore store)

/-- The state that the reopened store holds. -/
def Durable.reload (durable : Durable Backend) : Except Failure Unit × Durable Backend :=
  match durable.log.store.reopen with
  | .error cause => (.error (.storage cause), durable)
  | .ok store =>
    match Durable.load store with
    | .error cause => (.error (.storage cause), durable.mapStore (·.withFilesOf store))
    | .ok loaded => (.ok (), loaded)

/-- A new server of the same configuration on the reopened store. -/
def Server.restart (server : Server Backend) (draws : Draws) (now : Duration) :
    Except Failure Unit × Server Backend :=
  match server.log.store.reopen with
  | .error cause => (.error (.storage cause), server)
  | .ok store =>
    match Server.start server.config store draws now with
    | .error failure => (.error failure, server.mapStore (·.withFilesOf store))
    | .ok started => (.ok (), started)

end Consensus
