import Consensus.Log.Key

/-! # Replication cursors

A leader keeps one cursor per follower: the next index to send and the highest
index known to be replicated there. What a majority holds is an order statistic
of the matched indices and the leader's own last index.
-/

namespace Consensus

/-- A leader's view of one follower's log. -/
structure Cursor where
  serverId : ServerId
  /-- The next index to send. -/
  nextIndex : Index
  /-- The highest index known to be replicated. -/
  matchIndex : Index
  deriving DecidableEq, Repr

namespace Cursor

/-- A cursor at the end of the leader's log, with nothing known of the follower. -/
def fresh (server : ServerId) (logSize : Index) : Cursor := ⟨server, logSize, nullIndex⟩

/-- Takes note of a matching index that is higher than the one known. -/
def advance (cursor : Cursor) (matched : Index) : Cursor :=
  if cursor.matchIndex < matched then
    { cursor with matchIndex := matched, nextIndex := matched + 1 }
  else
    cursor

/-- The highest index there is. -/
def maxIndex : Index := 9223372036854775807

/-- The index after the one a follower hinted at, as far as indices go. -/
def afterHint (hint : Index) : Index := min (hint + 1) maxIndex

/-- Steps back after a refusal: by one at least, to the follower's hint at most, and
never to what is known to be replicated. -/
def backOff (cursor : Cursor) (hint : Index) : Cursor :=
  let wanted := min (cursor.nextIndex - 1) (afterHint hint)
  { cursor with nextIndex := max (max wanted (cursor.matchIndex + 1)) 0 }

end Cursor

/-- The cursors of a leader, in order of their servers. -/
abbrev Cursors := List Cursor

namespace Cursors

def find? (cursors : Cursors) (server : ServerId) : Option Cursor :=
  List.find? (·.serverId == server) cursors

/-- Puts a cursor in its place, instead of one of the same server. -/
def insert (cursor : Cursor) : Cursors → Cursors
  | [] => [cursor]
  | other :: rest =>
    if cursor.serverId < other.serverId then cursor :: other :: rest
    else if cursor.serverId = other.serverId then cursor :: rest
    else other :: insert cursor rest

/-- Changes the cursor of one server, if there is one. -/
def update (cursors : Cursors) (server : ServerId) (change : Cursor → Cursor) : Cursors :=
  cursors.map fun cursor => if cursor.serverId = server then change cursor else cursor

/-- Fresh cursors for each of some servers. -/
def reset (servers : List ServerId) (logSize : Index) : Cursors :=
  servers.foldl (fun cursors server => insert (.fresh server logSize) cursors) []

/-- Puts an index in its place among others, highest first. -/
def rank (index : Index) : List Index → List Index
  | [] => [index]
  | other :: rest => if other ≤ index then index :: other :: rest else other :: rank index rest

/-- The matched indices with the leader's own last index, highest first. -/
def holdings (cursors : Cursors) (lastIndex : Index) : List Index :=
  (cursors.map Cursor.matchIndex ++ [lastIndex]).foldr rank []

/-- The highest index that at least `majority` servers hold, counting the leader. A majority
of none counts as one, and one that is more than all servers holds nothing. -/
def majorityMatch (cursors : Cursors) (lastIndex : Index) (majority : Nat) : Index :=
  (cursors.holdings lastIndex).getD (majority - 1) nullIndex

end Cursors

end Consensus
