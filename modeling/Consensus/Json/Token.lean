/-! # JSON tokens

A JSON text is first cut into brackets, separators, literals and string
literals. A string literal keeps its numeric escapes as they are: whether they
form text is decided only where text is wanted.
-/

namespace Consensus.Json

/-- One part of a string literal: a character, or the code unit of a numeric escape. -/
inductive Piece where
  | char (value : Char)
  | unit (code : Nat)
  deriving DecidableEq, Repr

/-- A word of JSON. Numbers with a fraction or an exponent, and a negative zero,
are `decimal`: no integer is written that way. -/
inductive Token where
  | openArray
  | closeArray
  | openObject
  | closeObject
  | comma
  | colon
  | null
  | boolean (value : Bool)
  | integer (value : Int)
  | decimal
  | text (pieces : List Piece)
  deriving DecidableEq, Repr

/-- The four blanks that may stand between tokens. -/
def isBlank (c : Char) : Bool :=
  c == ' ' || c == '\n' || c == '\t' || c == '\r'

/-- The token of a bracket or separator. -/
def punctuation? (c : Char) : Option Token :=
  match c with
  | '[' => some .openArray
  | ']' => some .closeArray
  | '{' => some .openObject
  | '}' => some .closeObject
  | ',' => some .comma
  | ':' => some .colon
  | _ => none

/-- Characters of a bare word: everything that neither ends nor opens something else. -/
def isBare (c : Char) : Bool :=
  !isBlank c && (punctuation? c).isNone && c != '"'

/-! ## Numbers -/

/-- Digits without a needless leading zero. -/
def isWhole (digits : List Char) : Bool :=
  match digits with
  | [] => false
  | ['0'] => true
  | '0' :: _ => false
  | _ => true

/-- An exponent, or nothing. -/
def isExponent (chars : List Char) : Bool :=
  let digits : List Char → Bool := fun cs => !cs.isEmpty && cs.all Char.isDigit
  match chars with
  | [] => true
  | mark :: rest =>
    (mark == 'e' || mark == 'E') &&
      match rest with
      | '+' :: after => digits after
      | '-' :: after => digits after
      | after => digits after

/-- A fraction and an exponent, each of which may be missing. -/
def isFraction (chars : List Char) : Bool :=
  match chars with
  | '.' :: rest =>
    !(rest.takeWhile Char.isDigit).isEmpty && isExponent (rest.dropWhile Char.isDigit)
  | _ => isExponent chars

/-- The number that decimal digits spell. -/
def digitsValue (digits : List Char) : Nat :=
  digits.foldl (fun value digit => 10 * value + (digit.toNat - '0'.toNat)) 0

def number? (literal : List Char) : Option Token :=
  let negative := literal.head? == some '-'
  let unsigned := if negative then literal.drop 1 else literal
  let digits := unsigned.takeWhile Char.isDigit
  let rest := unsigned.dropWhile Char.isDigit
  if !isWhole digits || !isFraction rest then
    none
  else if !rest.isEmpty then
    some .decimal
  else
    match negative, digitsValue digits with
    | true, 0 => some .decimal
    | true, value => some (.integer (-value))
    | false, value => some (.integer value)

/-- A bare word is one of three literals or a number. -/
def bare? (literal : List Char) : Option Token :=
  if literal = ['n', 'u', 'l', 'l'] then some .null
  else if literal = ['t', 'r', 'u', 'e'] then some (.boolean true)
  else if literal = ['f', 'a', 'l', 's', 'e'] then some (.boolean false)
  else number? literal

/-! ## Strings -/

def hexDigit? (c : Char) : Option Nat :=
  if c.isDigit then some (c.toNat - '0'.toNat)
  else if 'a' ≤ c && c ≤ 'f' then some (c.toNat - 'a'.toNat + 10)
  else if 'A' ≤ c && c ≤ 'F' then some (c.toNat - 'A'.toNat + 10)
  else none

def codeUnit? (first second third fourth : Char) : Option Nat := do
  return ((← hexDigit? first) * 16 + (← hexDigit? second)) * 256 +
    ((← hexDigit? third) * 16 + (← hexDigit? fourth))

/-- The character behind a one-letter escape. -/
def escape? (letter : Char) : Option Char :=
  match letter with
  | '"' => some '"'
  | '\\' => some '\\'
  | '/' => some '/'
  | 'b' => some '\x08'
  | 'f' => some '\x0c'
  | 'n' => some '\n'
  | 'r' => some '\r'
  | 't' => some '\t'
  | _ => none

/-- Reads a string literal after its opening quote, and what follows its closing one.
A control character may only be escaped. -/
def scanText : List Char → Option (List Piece × List Char)
  | [] => none
  | '"' :: rest => some ([], rest)
  | '\\' :: 'u' :: first :: second :: third :: fourth :: rest => do
    let code ← codeUnit? first second third fourth
    let (pieces, after) ← scanText rest
    return (.unit code :: pieces, after)
  | '\\' :: letter :: rest => do
    let value ← escape? letter
    let (pieces, after) ← scanText rest
    return (.char value :: pieces, after)
  | c :: rest =>
    if c.toNat < 0x20 then
      none
    else do
      let (pieces, after) ← scanText rest
      return (.char c :: pieces, after)

theorem length_of_scanText {source after : List Char} {pieces : List Piece}
    (h : scanText source = some (pieces, after)) : after.length < source.length := by
  fun_induction scanText source generalizing pieces after with
  | case1 => simp at h
  | case2 rest =>
    simp only [Option.some.injEq, Prod.mk.injEq] at h
    simp [h.2]
  | case3 first second third fourth rest ih =>
    simp only [Option.pure_def, Option.bind_eq_bind, Option.bind_eq_some_iff,
      Option.some.injEq, Prod.mk.injEq, Prod.exists] at h
    obtain ⟨_, _, _, _, hrest, _, rfl⟩ := h
    have := ih hrest
    simp only [List.length_cons]
    omega
  | case4 letter rest _ ih =>
    simp only [Option.pure_def, Option.bind_eq_bind, Option.bind_eq_some_iff,
      Option.some.injEq, Prod.mk.injEq, Prod.exists] at h
    obtain ⟨_, _, _, _, hrest, _, rfl⟩ := h
    have := ih hrest
    simp only [List.length_cons]
    omega
  | case5 => simp at h
  | case6 c rest _ _ _ _ ih =>
    simp only [Option.pure_def, Option.bind_eq_bind, Option.bind_eq_some_iff,
      Option.some.injEq, Prod.mk.injEq, Prod.exists] at h
    obtain ⟨_, _, hrest, _, rfl⟩ := h
    have := ih hrest
    simp only [List.length_cons]
    omega

/-! ## The scanner -/

/-- Cuts a text into tokens. Two bare words cannot touch, so each is as long as possible. -/
def scan (source : List Char) : Option (List Token) :=
  match source with
  | [] => some []
  | c :: rest =>
    if isBlank c then
      scan rest
    else if c = '"' then
      match h : scanText rest with
      | none => none
      | some (pieces, after) =>
        have := length_of_scanText h
        (scan after).map (.text pieces :: ·)
    else
      match punctuation? c with
      | some token => (scan rest).map (token :: ·)
      | none =>
        match bare? (c :: rest.takeWhile isBare) with
        | none => none
        | some token =>
          have := (List.dropWhile_suffix (l := rest) isBare).length_le
          (scan (rest.dropWhile isBare)).map (token :: ·)
termination_by source.length
decreasing_by all_goals simp_all <;> omega

end Consensus.Json
