import Consensus.Text.Extending
import Consensus.Text.Ignorable
import Consensus.Text.Printable

/-! # Quoted text

Text inside a message is put between quotes, with quotes, backslashes and every
character that cannot be seen by itself escaped, so that the message stays on
one line and shows every character of the text.
-/

namespace Consensus.Text

/-- A character by its code in hexadecimal digits between braces. -/
def escapeCode (c : Char) : List Char :=
  ['\\', 'u', '\x7b'] ++ Nat.toDigits 16 c.toNat ++ ['\x7d']

/-- The character can be told from its neighbours when it is written as it is. -/
def isVisible (c : Char) : Bool := isPrintable c && !isIgnorable c && !isExtending c

/-- A character between quotes. -/
def escape (c : Char) : List Char :=
  match c with
  | '"' => ['\\', '"']
  | '\\' => ['\\', '\\']
  | '\n' => ['\\', 'n']
  | '\r' => ['\\', 'r']
  | '\t' => ['\\', 't']
  | '\x00' => ['\\', '0']
  | _ => if isVisible c then [c] else escapeCode c

/-- A text between quotes. -/
def quoted (text : String) : String :=
  "\"" ++ String.ofList (text.toList.flatMap escape) ++ "\""

example : quoted "a\tb" = "\"a\\tb\"" := by decide +kernel

example : quoted "\x1b\x7f" = "\"\\u\x7b1b\x7d\\u\x7b7f\x7d\"" := by decide +kernel

example : quoted "e\u0301" = "\"e\\u\x7b301\x7d\"" := by decide +kernel

end Consensus.Text
