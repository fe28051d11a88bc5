import Consensus.Json.Literal
import Consensus.Json.Value
import Consensus.Wire.Word

/-! # Fields of JSON records

A reader takes a value apart by what it expects to find. Whole numbers must be
written as integers and fit the width of their field.
-/

namespace Consensus.Json

namespace Value

/-- The value as an integer from `low` on and below `limit`. -/
def integer? (low limit : Int) : Value → Option Int
  | .integer value => if low ≤ value ∧ value < limit then some value else none
  | _ => none

/-- A signed integer that `width` bytes can hold. -/
def signed? (width : Nat) (value : Value) : Option Int :=
  let half : Int := Word.bound width / 2
  value.integer? (-half) half

/-- A count that `width` bytes can hold. -/
def count? (width : Nat) (value : Value) : Option Nat :=
  (value.integer? 0 (Word.bound width)).map Int.toNat

def text? : Value → Option String
  | .text pieces => (decodeText? pieces).map String.ofList
  | _ => none

def array? : Value → Option (List Value)
  | .array items => some items
  | _ => none

/-- The members of an object with their names decoded. -/
def members? : Value → Option (List (String × Value))
  | .object members =>
    members.mapM fun (name, value) => do return (String.ofList (← decodeText? name), value)
  | _ => none

/-- The fields of a record. A record is an object, where unknown members are
passed over and a known one may come once, or an array of the fields in their
declared order, where trailing ones may be missing. -/
def record? (names : List String) (value : Value) : Option (List (Option Value)) :=
  match value with
  | .array items =>
    if items.length ≤ names.length then
      some (items.map some ++ List.replicate (names.length - items.length) none)
    else
      none
  | .object _ => do
    let members ← value.members?
    names.mapM fun name =>
      match members.filter (·.1 == name) with
      | [] => some none
      | [(_, field)] => some (some field)
      | _ => none
  | _ => none

/-- A field that keeps its default when it is missing. -/
def fieldOr {α : Type} (field : Option Value) (default : α) (read : Value → Option α) :
    Option α :=
  match field with
  | none => some default
  | some value => read value

end Value

end Consensus.Json
