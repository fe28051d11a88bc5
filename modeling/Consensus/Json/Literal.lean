import Consensus.Json.Token

/-! # String literals

A string literal stands for a text when every surrogate in it is half of a pair.
A text is written with the fewest escapes: quotes, backslashes and control
characters, the latter by their short form where they have one.
-/

namespace Consensus.Json

/-! ## Reading -/

/-- A code unit that opens a surrogate pair. -/
def isLeading (code : Nat) : Bool := 0xD800 ≤ code && code ≤ 0xDBFF

/-- A code unit that closes a surrogate pair. -/
def isTrailing (code : Nat) : Bool := 0xDC00 ≤ code && code ≤ 0xDFFF

/-- The text of a string literal, when every surrogate in it is one of a pair. -/
def decodeText? : List Piece → Option (List Char)
  | [] => some []
  | .char c :: rest => (decodeText? rest).map (c :: ·)
  | .unit first :: .unit second :: rest =>
    if isLeading first then
      if isTrailing second then
        (decodeText? rest).map
          (Char.ofNat ((first - 0xD800) * 0x400 + (second - 0xDC00) + 0x10000) :: ·)
      else
        none
    else if isTrailing first then
      none
    else
      (decodeText? (.unit second :: rest)).map (Char.ofNat first :: ·)
  | .unit code :: rest =>
    if isLeading code || isTrailing code then none
    else (decodeText? rest).map (Char.ofNat code :: ·)

/-! ## Writing -/

/-- The lowercase digit of a number below sixteen. -/
def hexDigit (n : Nat) : Char :=
  if n < 10 then Char.ofNat ('0'.toNat + n) else Char.ofNat ('a'.toNat + (n - 10))

/-- A character inside a string literal. Quotes, backslashes and control characters are escaped. -/
def escape (c : Char) : List Char :=
  match c with
  | '"' => ['\\', '"']
  | '\\' => ['\\', '\\']
  | '\n' => ['\\', 'n']
  | '\r' => ['\\', 'r']
  | '\t' => ['\\', 't']
  | '\x08' => ['\\', 'b']
  | '\x0c' => ['\\', 'f']
  | _ =>
    if c.toNat < 0x20 then
      ['\\', 'u', '0', '0', hexDigit (c.toNat / 16), hexDigit (c.toNat % 16)]
    else
      [c]

/-- A string literal. -/
def quote (text : String) : String :=
  "\"" ++ String.ofList (text.toList.flatMap escape) ++ "\""

end Consensus.Json
