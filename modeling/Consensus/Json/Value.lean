import Consensus.Json.Token

/-! # JSON values

Tokens are put together with a stack of containers whose closing brackets are
still to come, so nesting may be of any depth. A text is one value with nothing
after it. Member names and strings stay undecoded until a reader wants them.
-/

namespace Consensus.Json

/-- A parsed JSON value. Members keep their order, and names may repeat. -/
inductive Value where
  | null
  | boolean (value : Bool)
  | integer (value : Int)
  | decimal
  | text (pieces : List Piece)
  | array (items : List Value)
  | object (members : List (List Piece × Value))

/-- A container that is still open. What it holds so far is kept newest first. -/
inductive Opened where
  | array (items : List Value)
  | object (members : List (List Piece × Value))
  /-- An object whose last member has a name and no value yet. -/
  | member (members : List (List Piece × Value)) (name : List Piece)

/-- What the next token may be. -/
inductive Position where
  /-- A value. -/
  | value
  /-- A value, or the end of an array that is empty so far. -/
  | firstItem
  /-- A member's name. -/
  | name
  /-- A member's name, or the end of an object that is empty so far. -/
  | firstName
  /-- The colon after a member's name. -/
  | colon
  /-- A comma, or the end of the container. -/
  | next

/-- How far a text has been read. -/
inductive Progress where
  | within (opened : List Opened) (position : Position)
  | finished (value : Value)

namespace Progress

/-- A value has ended inside the given containers. -/
def complete (value : Value) : List Opened → Option Progress
  | [] => some (.finished value)
  | .array items :: outer => some (.within (.array (value :: items) :: outer) .next)
  | .member members name :: outer =>
    some (.within (.object ((name, value) :: members) :: outer) .next)
  | .object _ :: _ => none

/-- The start of a value. -/
def begin (opened : List Opened) : Token → Option Progress
  | .null => complete .null opened
  | .boolean value => complete (.boolean value) opened
  | .integer value => complete (.integer value) opened
  | .decimal => complete .decimal opened
  | .text pieces => complete (.text pieces) opened
  | .openArray => some (.within (.array [] :: opened) .firstItem)
  | .openObject => some (.within (.object [] :: opened) .firstName)
  | _ => none

/-- The end of the innermost container. -/
def close (opened : List Opened) : Token → Option Progress
  | .closeArray =>
    match opened with
    | .array items :: outer => complete (.array items.reverse) outer
    | _ => none
  | .closeObject =>
    match opened with
    | .object members :: outer => complete (.object members.reverse) outer
    | _ => none
  | _ => none

/-- Takes one more token. -/
def step (progress : Progress) (token : Token) : Option Progress :=
  match progress with
  | .finished _ => none
  | .within opened position =>
    match position, token, opened with
    | .value, _, _ => begin opened token
    | .firstItem, .closeArray, _ => close opened token
    | .firstItem, _, _ => begin opened token
    | .firstName, .closeObject, _ => close opened token
    | .firstName, .text name, .object members :: outer =>
      some (.within (.member members name :: outer) .colon)
    | .name, .text name, .object members :: outer =>
      some (.within (.member members name :: outer) .colon)
    | .colon, .colon, _ => some (.within opened .value)
    | .next, .comma, .array _ :: _ => some (.within opened .value)
    | .next, .comma, .object _ :: _ => some (.within opened .name)
    | .next, _, _ => close opened token
    | _, _, _ => none

end Progress

/-- The one value that a text holds. -/
def parse? (source : List Char) : Option Value := do
  let tokens ← scan source
  match ← tokens.foldlM Progress.step (.within [] .value) with
  | .finished value => some value
  | .within _ _ => none

end Consensus.Json
