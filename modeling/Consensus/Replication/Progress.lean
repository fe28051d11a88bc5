import Consensus.Election.Tally
import Consensus.Replication.Cursor

/-! # Progress

What a server knows since it started and forgets when it stops: how far the log
is committed and applied, the cursors of a leader and the tally of an election.
-/

namespace Consensus

structure Progress where
  commitIndex : Index := nullIndex
  lastApplied : Index := nullIndex
  cursors : Cursors := []
  tally : Tally := {}
  deriving DecidableEq, Repr

namespace Progress

/-- Raises the commit index. It never falls. -/
def raiseCommit (progress : Progress) (index : Index) : Progress :=
  if progress.commitIndex < index then { progress with commitIndex := index } else progress

/-- The next index to apply, none when all that is committed is applied. -/
def nextDue? (progress : Progress) : Option Index :=
  if progress.lastApplied < progress.commitIndex then some (progress.lastApplied + 1) else none

def markApplied (progress : Progress) (index : Index) : Progress :=
  { progress with lastApplied := index }

def resetCursors (progress : Progress) (servers : List ServerId) (logSize : Index) : Progress :=
  { progress with cursors := .reset servers logSize }

def clearCursors (progress : Progress) : Progress := { progress with cursors := [] }

def cursor? (progress : Progress) (server : ServerId) : Option Cursor :=
  progress.cursors.find? server

/-- Changes the cursor of one server, if there is one. -/
def updateCursor (progress : Progress) (server : ServerId) (change : Cursor → Cursor) :
    Progress :=
  { progress with cursors := progress.cursors.update server change }

end Progress

end Consensus
