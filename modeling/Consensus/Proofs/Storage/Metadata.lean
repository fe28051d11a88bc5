import Consensus.Proofs.Json.Tokens
import Consensus.Storage.Metadata

/-! # Reading back stored metadata

A term and vote that fit their words are read back from the file that they are written to,
and nothing else ever is.
-/

namespace Consensus

/-! ## Text -/

theorem toList_loop (bytes : ByteArray) (place : Nat) (front : Bytes) :
    ByteArray.toList.loop bytes place front = front.reverse ++ bytes.data.toList.drop place := by
  induction place, front using ByteArray.toList.loop.induct bytes with
  | case1 place front hinside ih =>
    have hget : bytes.get! place = bytes.data.toList[place] :=
      getElem!_pos bytes.data place hinside
    rw [ByteArray.toList.loop, if_pos hinside, ih, hget, List.drop_eq_getElem_cons hinside,
      List.reverse_cons, List.append_assoc]
    rfl
  | case2 place front houtside =>
    have hnothing : bytes.data.toList.drop place = [] :=
      List.drop_of_length_le (Nat.not_lt.mp houtside)
    rw [ByteArray.toList.loop, if_neg houtside, hnothing, List.append_nil]

theorem toList_byteArray (bytes : ByteArray) : bytes.toList = bytes.data.toList :=
  toList_loop bytes 0 []

/-- Text is read back from its bytes. -/
theorem fromUTF8?_toUTF8 (text : String) :
    String.fromUTF8? ⟨text.toUTF8.toList.toArray⟩ = some text := by
  have hbytes : (⟨text.toUTF8.toList.toArray⟩ : ByteArray) = text.toByteArray := by
    rw [toList_byteArray]
    rfl
  rw [hbytes, String.fromUTF8?, dif_pos text.isValidUTF8]
  rfl

namespace Metadata

open Json (Piece Token Value)

/-! ## Tokens -/

/-- A field name as it stands in a text. -/
def namePieces (name : String) : List Piece := name.toList.map Piece.char

def voteToken : Option ServerId → Token
  | none => .null
  | some server => .integer server

theorem scan_voteText (votedFor : Option ServerId) (rest : List Char)
    (hend : ∀ c ∈ rest.head?, Json.isBare c = false) :
    Json.scan ((voteText votedFor).toList ++ rest) =
      (Json.scan rest).map (voteToken votedFor :: ·) := by
  cases votedFor with
  | none =>
    show Json.scan (['n', 'u', 'l', 'l'] ++ rest) = (Json.scan rest).map (.null :: ·)
    exact Json.scan_word (List.cons_ne_nil _ _) (List.all_eq_true.mp rfl) hend rfl
  | some server => exact Json.scan_integer server hend

/-- A member's name, and the blanks around it. -/
theorem scan_name {name : String} {rest : List Char}
    (hname : Json.scanText (name.toList ++ '"' :: ':' :: ' ' :: rest) =
      some (namePieces name, ':' :: ' ' :: rest)) :
    Json.scan ('\n' :: ' ' :: ' ' :: '"' :: (name.toList ++ '"' :: ':' :: ' ' :: rest)) =
      (Json.scan rest).map (.text (namePieces name) :: .colon :: ·) := by
  rw [Json.scan_blank rfl, Json.scan_blank rfl, Json.scan_blank rfl, Json.scan_quote hname,
    Json.scan_punctuation (c := ':') rfl, Json.scan_blank rfl, Option.map_map]
  rfl

theorem toList_render (term : Term) (votedFor : Option ServerId) :
    (render term votedFor).toList =
      '\x7b' :: '\n' :: ' ' :: ' ' :: '"' :: ("term".toList ++ '"' :: ':' :: ' ' ::
        ((toString term).toList ++ ',' :: '\n' :: ' ' :: ' ' :: '"' :: ("voted_for".toList ++
          '"' :: ':' :: ' ' :: ((voteText votedFor).toList ++ ['\n', '\x7d'])))) := by
  have hpieces : (render term votedFor).toList = "\x7b\n  \"term\": ".toList ++
      ((toString term).toList ++ (",\n  \"voted_for\": ".toList ++
        ((voteText votedFor).toList ++ "\n\x7d".toList))) := by
    simp only [← String.toList_append, ← String.append_assoc]
    rfl
  exact hpieces

/-- The tokens of the metadata are those of its two fields. -/
theorem scan_render (term : Term) (votedFor : Option ServerId) :
    Json.scan (render term votedFor).toList = some [
      .openObject, .text (namePieces "term"), .colon, .integer term, .comma,
      .text (namePieces "voted_for"), .colon, voteToken votedFor, .closeObject] := by
  have hend : Json.scan ['\n', '\x7d'] = some [.closeObject] := by
    rw [Json.scan_blank rfl, Json.scan_punctuation (c := '\x7d') rfl, Json.scan]
    rfl
  rw [toList_render, Json.scan_punctuation (c := '\x7b') rfl, scan_name rfl,
    Json.scan_integer term (by simp [Json.isBare, Json.punctuation?]),
    Json.scan_punctuation (c := ',') rfl, scan_name rfl,
    scan_voteText votedFor _ (by simp [Json.isBare, Json.isBlank]), hend]
  rfl

/-! ## Values -/

def voteValue : Option ServerId → Value
  | none => .null
  | some server => .integer server

/-- The metadata reads as an object of its two fields. -/
theorem parse_render (term : Term) (votedFor : Option ServerId) :
    Json.parse? (render term votedFor).toList = some (.object [
      (namePieces "term", .integer term), (namePieces "voted_for", voteValue votedFor)]) := by
  rw [Json.parse?, scan_render]
  cases votedFor <;> rfl

theorem signed?_integer {width : Nat} {value : Int} (hfits : Word.InRange (width + 1) value) :
    (Value.integer value).signed? (width + 1) = some value := by
  have hlow := hfits.1
  have hhigh := hfits.2
  simp only [Word.bound] at hlow hhigh
  refine if_pos ⟨?_, ?_⟩ <;> simp only [Word.bound] <;> omega

theorem eq_of_signed?_integer {width : Nat} {value read : Int}
    (h : (Value.integer value).signed? width = some read) : read = value := by
  obtain ⟨_, hvalue⟩ := Option.ite_none_right_eq_some.mp h
  exact (Option.some.inj hvalue).symm

/-- A vote reads as it was written. -/
theorem vote?_voteValue {votedFor : Option ServerId}
    (hfits : ∀ server ∈ votedFor, Word.InRange 4 server) :
    vote? (voteValue votedFor) = some votedFor := by
  cases votedFor with
  | none => rfl
  | some server => exact congrArg (Option.map some) (signed?_integer (hfits server rfl))

theorem eq_of_vote?_voteValue {votedFor read : Option ServerId}
    (h : vote? (voteValue votedFor) = some read) : read = votedFor := by
  cases votedFor with
  | none => exact (Option.some.inj h).symm
  | some server =>
    obtain ⟨value, hvalue, rfl⟩ := Option.map_eq_some_iff.mp h
    rw [eq_of_signed?_integer hvalue]

/-! ## Files -/

/-- What is written is looked at field by field, as it stands. -/
theorem read_render (term : Term) (votedFor : Option ServerId) :
    read (render term votedFor).toUTF8.toList =
      match (Value.integer term).signed? 4, vote? (voteValue votedFor) with
      | some term, some votedFor => .ok (term, votedFor)
      | _, _ => .error .invalidMetadata := by
  have hrecord : (Value.object [(namePieces "term", .integer term),
      (namePieces "voted_for", voteValue votedFor)]).record? ["term", "voted_for"] =
        some [some (.integer term), some (voteValue votedFor)] := rfl
  rw [read, fromUTF8?_toUTF8]
  simp only [parse_render, ofValue?, hrecord, Option.bind_eq_bind, Option.bind_some]
  cases (Value.integer term).signed? 4 <;> cases vote? (voteValue votedFor) <;> rfl

/-- A term and vote that fit their words are read back from their file. -/
theorem read_render_of_fits {term : Term} {votedFor : Option ServerId}
    (hterm : Word.InRange 4 term) (hvote : ∀ server ∈ votedFor, Word.InRange 4 server) :
    read (render term votedFor).toUTF8.toList = .ok (term, votedFor) := by
  rw [read_render, signed?_integer hterm, vote?_voteValue hvote]

/-- No other term or vote is read back, whether they fit or not. -/
theorem eq_of_read_render {term : Term} {votedFor : Option ServerId}
    {stored : Term × Option ServerId}
    (h : read (render term votedFor).toUTF8.toList = .ok stored) : stored = (term, votedFor) := by
  rw [read_render] at h
  split at h
  next hterm hvote =>
    rw [← Except.ok.inj h, eq_of_signed?_integer hterm, eq_of_vote?_voteValue hvote]
  next => cases h

end Metadata

end Consensus
