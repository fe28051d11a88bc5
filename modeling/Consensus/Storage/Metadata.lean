import Consensus.Json.Field
import Consensus.Storage.Store

/-! # Stored metadata

The term and vote are stored as a small JSON object of two lines. The term must
be there; a vote may be null, and may be missing from an object only.
-/

namespace Consensus.Metadata

open Json (Value)

/-- A vote as JSON. -/
def voteText : Option ServerId → String
  | none => "null"
  | some server => toString server

/-- The metadata file of a term and vote. -/
def render (term : Term) (votedFor : Option ServerId) : String :=
  s!"\x7b\n  \"term\": {term},\n  \"voted_for\": {voteText votedFor}\n\x7d"

/-- A vote is null or a server. -/
def vote? : Value → Option (Option ServerId)
  | .null => some none
  | value => (value.signed? 4).map some

def ofValue? (value : Value) : Option (Term × Option ServerId) := do
  match value, ← value.record? ["term", "voted_for"] with
  | .array _, [some term, some vote] => return (← term.signed? 4, ← vote? vote)
  | .object _, [some term, some vote] => return (← term.signed? 4, ← vote? vote)
  | .object _, [some term, none] => return (← term.signed? 4, none)
  | _, _ => none

/-- The term and vote that a metadata file holds. -/
def read (file : Bytes) : Except StorageFailure (Term × Option ServerId) :=
  match String.fromUTF8? ⟨file.toArray⟩ with
  | none => .error .metadataNotText
  | some text =>
    match Json.parse? text.toList >>= ofValue? with
    | none => .error .invalidMetadata
    | some stored => .ok stored

end Consensus.Metadata
