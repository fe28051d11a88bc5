import Consensus.Proofs.Results
import Consensus.Proofs.Wire.RoundTrip
import Consensus.Storage.Record

/-! # Rows of records

A file of records is read back record by record. What is read from the start of a file does
not depend on what follows it, and each record ends where the next one starts.
-/

namespace Consensus.Record

/-- An entry that is read back from its record. -/
structure Fits (entry : Entry) : Prop where
  term_fits : Word.InRange 4 entry.term
  length_lt : entry.command.length < lengthBound

instance (entry : Entry) : Decidable (Fits entry) :=
  decidable_of_iff (Word.InRange 4 entry.term ∧ entry.command.length < lengthBound)
    ⟨fun h => ⟨h.1, h.2⟩, fun h => ⟨h.term_fits, h.length_lt⟩⟩

variable {entry : Entry} {front entries : List Entry} {index count offset : Nat} {rest : Bytes}

@[simp] theorem length_encode (index : Index) (entry : Entry) :
    (encode index entry).length = size entry := by
  simp only [encode, size, headLength, List.length_append, Word.length_encode, Word.length_ofNat]

theorem encodeAll_append (index : Index) (front entries : List Entry) :
    encodeAll index (front ++ entries) =
      encodeAll index front ++ encodeAll (index + front.length) entries := by
  induction front generalizing index with
  | nil => simp [encodeAll]
  | cons first front ih =>
    have hindex : index + 1 + (front.length : Int) = index + ((first :: front).length : Int) := by
      rw [List.length_cons]
      lia
    rw [List.cons_append, encodeAll, encodeAll, ih, hindex, List.append_assoc]

/-- The records of the first entries are the first records. -/
theorem encodeAll_concat (front : List Entry) (entry : Entry) :
    encodeAll 0 (front ++ [entry]) = encodeAll 0 front ++ encode front.length entry := by
  rw [encodeAll_append, Int.zero_add, encodeAll, encodeAll, List.append_nil]

theorem encodeAll_isPrefix (index : Index) (hfront : front <+: entries) :
    encodeAll index front <+: encodeAll index entries := by
  obtain ⟨rest, rfl⟩ := hfront
  rw [encodeAll_append]
  exact List.prefix_append _ _

/-! ## Reading -/

/-- Nothing is read from less than the head of a record. -/
theorem scan_of_short (hshort : rest.length < headLength) :
    scan count offset rest = .ok ⟨[], [], offset⟩ := by
  rw [scan, if_pos hshort]

/-- The bytes of a record in front of its command. -/
def head (index : Index) (entry : Entry) : Bytes :=
  Word.encode 4 entry.term ++ Word.encode 8 index ++ Word.ofNat 4 entry.command.length

@[simp] theorem length_head (index : Index) (entry : Entry) :
    (head index entry).length = headLength := by
  simp [head, headLength]

theorem encode_eq_append (index : Index) (entry : Entry) :
    encode index entry = head index entry ++ entry.command := rfl

/-- The head of a record tells how many of the bytes behind it are the command. When there are
fewer, reading ends in front of the head. -/
theorem scan_head_append (hfits : Fits entry) (hindex : Word.InRange 8 count) (body : Bytes) :
    scan count offset (head count entry ++ body) =
      if body.length < entry.command.length then .ok ⟨[], [], offset⟩
      else (scan (count + 1) (offset + size entry) (body.drop entry.command.length)).map
        fun later => ⟨⟨entry.term, body.take entry.command.length⟩ :: later.entries,
          offset :: later.offsets, later.stop⟩ := by
  have hlength : (head count entry ++ body).length = headLength + body.length := by
    rw [List.length_append, length_head]
  have hterm_field : Word.field (head count entry ++ body) 0 4 = entry.term :=
    Word.field_eq [] (by simp [head]) rfl hfits.term_fits
  have hindex_field : Word.field (head count entry ++ body) 4 8 = count :=
    Word.field_eq (Word.encode 4 entry.term) (by simp [head]) (by simp) hindex
  have hlength_field : Word.toNat (((head count entry ++ body).drop 12).take 4) =
      entry.command.length := by
    have hword : ((head count entry ++ body).drop 12).take 4 =
        Word.ofNat 4 entry.command.length := by
      simp only [head, List.append_assoc]
      rw [← List.append_assoc, List.drop_left' (by simp), List.take_left' (by simp)]
    rw [hword, Word.toNat_ofNat]
    exact Nat.mod_eq_of_lt hfits.length_lt
  have hbody : (head count entry ++ body).drop headLength = body :=
    List.drop_left' (length_head count entry)
  have hbehind : (head count entry ++ body).drop (headLength + entry.command.length) =
      body.drop entry.command.length := by
    rw [← List.drop_drop, hbody]
  have hlong : ¬ (head count entry ++ body).length < headLength := by omega
  have hcut : (head count entry ++ body).length - headLength = body.length := by omega
  rw [scan, if_neg hlong]
  simp only [hterm_field, hindex_field, hlength_field, hbody, hbehind, hcut, ne_eq,
    not_true_eq_false, if_false]
  rfl

/-- Reading goes on behind a record, whatever is there. -/
theorem scan_encode_append (hfits : Fits entry) (hindex : Word.InRange 8 count) :
    scan count offset (encode count entry ++ rest) =
      (scan (count + 1) (offset + size entry) rest).map fun later =>
        ⟨entry :: later.entries, offset :: later.offsets, later.stop⟩ := by
  have hwhole : ¬ (entry.command ++ rest).length < entry.command.length := by
    rw [List.length_append]
    omega
  rw [encode_eq_append, List.append_assoc, scan_head_append hfits hindex, if_neg hwhole,
    List.drop_left, List.take_left]

/-- Where the records of entries start, the first one at `offset`. -/
def starts (offset : Nat) : List Entry → List Nat
  | [] => []
  | entry :: rest => offset :: starts (offset + size entry) rest

/-- Reading goes on behind any number of records. -/
theorem scan_encodeAll_append (hfits : ∀ entry ∈ entries, Fits entry)
    (hindices : ∀ index : Nat, index < count + entries.length → Word.InRange 8 index) :
    scan count offset (encodeAll count entries ++ rest) =
      (scan (count + entries.length) (offset + (encodeAll count entries).length) rest).map
        fun later => ⟨entries ++ later.entries, starts offset entries ++ later.offsets,
          later.stop⟩ := by
  induction entries generalizing count offset with
  | nil =>
    cases hrest : scan count offset rest <;> simp [encodeAll, starts, hrest, Except.map]
  | cons first entries ih =>
    have hnext : ((count : Int) + 1) = ((count + 1 : Nat) : Int) := rfl
    rw [encodeAll, List.append_assoc,
      scan_encode_append (hfits first List.mem_cons_self) (hindices count (by simp)), hnext,
      ih (fun entry hentry => hfits entry (List.mem_cons_of_mem _ hentry))
        (fun index hindex => hindices index (by rw [List.length_cons]; omega))]
    have hcount : count + 1 + entries.length = count + (first :: entries).length := by
      rw [List.length_cons]
      omega
    rw [List.length_append, length_encode, hcount, Nat.add_assoc]
    cases scan (count + (first :: entries).length)
      (offset + (size first + (encodeAll ((count + 1 : Nat) : Int) entries).length)) rest <;> rfl

/-- A file of whole records holds just their entries. -/
theorem parse_encodeAll (hfits : ∀ entry ∈ entries, Fits entry)
    (hindices : ∀ index : Nat, index < entries.length → Word.InRange 8 index) :
    parse (encodeAll 0 entries) =
      .ok ⟨entries, starts 0 entries, (encodeAll 0 entries).length⟩ := by
  have hend : scan (0 + entries.length) (0 + (encodeAll ((0 : Nat) : Int) entries).length) [] =
      .ok ⟨[], [], 0 + (encodeAll ((0 : Nat) : Int) entries).length⟩ := scan_of_short (by decide)
  have hscan : scan 0 0 (encodeAll ((0 : Nat) : Int) entries ++ []) = _ :=
    scan_encodeAll_append hfits fun index hindex => hindices index (by omega)
  rw [hend, List.append_nil] at hscan
  simpa [parse, Except.map] using hscan

/-! ## Places -/

theorem length_starts (offset : Nat) (entries : List Entry) :
    (starts offset entries).length = entries.length := by
  induction entries generalizing offset with
  | nil => rfl
  | cons first entries ih => simp [starts, ih]

theorem starts_concat (offset : Nat) (index : Index) (front : List Entry) (entry : Entry) :
    starts offset (front ++ [entry]) =
      starts offset front ++ [offset + (encodeAll index front).length] := by
  induction front generalizing offset index with
  | nil => rfl
  | cons first front ih =>
    rw [List.cons_append, starts, starts, ih (offset + size first) (index + 1), encodeAll,
      List.length_append, length_encode, Nat.add_assoc, List.cons_append]

theorem take_starts (offset count : Nat) (entries : List Entry) :
    (starts offset entries).take count = starts offset (entries.take count) := by
  induction entries generalizing offset count with
  | nil => simp [starts]
  | cons first entries ih =>
    cases count with
    | zero => rfl
    | succ count => rw [starts, List.take_succ_cons, List.take_succ_cons, starts, ih]

/-- A record starts where the ones in front of it end. -/
theorem getElem?_starts (offset : Nat) (index : Index) {place : Nat} {entries : List Entry}
    (hplace : place < entries.length) : (starts offset entries)[place]? =
      some (offset + (encodeAll index (entries.take place)).length) := by
  induction entries generalizing offset index place with
  | nil => exact absurd hplace (Nat.not_lt_zero _)
  | cons first entries ih =>
    cases place with
    | zero => rfl
    | succ place =>
      rw [starts, List.getElem?_cons_succ, ih (offset + size first) (index + 1)
        (Nat.lt_of_succ_lt_succ hplace), List.take_succ_cons, encodeAll, List.length_append,
        length_encode, Nat.add_assoc]

end Consensus.Record
