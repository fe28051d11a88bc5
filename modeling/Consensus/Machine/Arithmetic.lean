import Consensus.Replication.Cursor
import Consensus.Wire.Word

/-! # Sums of machine words

Indices and terms are integers of any size here, and words of eight and of four bytes in a
running program. A sum that does not fit wraps, or it stops the program. A term that does not
fit is refused in either case.
-/

namespace Consensus

/-- A way to form sums, which may give none. -/
structure Arithmetic where
  /-- The index behind this one. -/
  next : Index → Option Index
  /-- The index in front of this one. -/
  prev : Index → Option Index
  /-- The term after this one, none when there is no further term. -/
  nextTerm : Term → Option Term

namespace Arithmetic

/-- A value that `width` bytes can hold. -/
def checked? (width : Nat) (value : Int) : Option Int :=
  if Word.InRange width value then some value else none

/-- Sums of integers. Only terms come to an end. -/
def exact : Arithmetic where
  next index := some (index + 1)
  prev index := some (index - 1)
  nextTerm term := if maxTerm ≤ term then none else some (term + 1)

/-- Sums of words that stop the program when they overflow. -/
def checked : Arithmetic where
  next index := checked? 8 (index + 1)
  prev index := checked? 8 (index - 1)
  nextTerm term := checked? 4 (term + 1)

/-- Sums of words that keep what eight bytes can hold of them. -/
def wrapping : Arithmetic where
  next index := some (Word.decode (Word.encode 8 (index + 1)))
  prev index := some (Word.decode (Word.encode 8 (index - 1)))
  nextTerm term := checked? 4 (term + 1)

end Arithmetic

/-! ## Cursors -/

/-- Steps back after a refusal. -/
def Cursor.backOffBy (arithmetic : Arithmetic) (cursor : Cursor) (hint : Index) :
    Option Cursor := do
  let floor ← arithmetic.next cursor.matchIndex
  let back ← arithmetic.prev cursor.nextIndex
  return { cursor with nextIndex := max (max (min back (afterHint hint)) floor) 0 }

/-- Takes note of a matching index that is higher than the one known. -/
def Cursor.advanceBy (arithmetic : Arithmetic) (cursor : Cursor) (matched : Index) :
    Option Cursor :=
  if cursor.matchIndex < matched then do
    let nextIndex ← arithmetic.next matched
    return { cursor with matchIndex := matched, nextIndex }
  else
    some cursor

/-- Changes the cursor of one server, if there is one and the change can be made. -/
def Cursors.updateBy (cursors : Cursors) (server : ServerId) (change : Cursor → Option Cursor) :
    Option Cursors :=
  cursors.mapM fun cursor => if cursor.serverId = server then change cursor else some cursor

end Consensus
