import Consensus.Proofs.Storage.Disk
import Consensus.Proofs.Wire.Exact

/-! # The format of a log file

Every file is a row of whole records, each with its own place, and what is left behind them. What
is left decides alone how the file is read: the start of one more record is dropped, and the
head of a record that belongs in another place is an error.
-/

namespace Consensus

namespace Record

/-! ## What is left behind whole records -/

/-- The place that the head of a record gives it. -/
def declaredIndex (bytes : Bytes) : Index := Word.field bytes 4 8

/-- The length of the command that the head of a record declares. -/
def declaredLength (bytes : Bytes) : Nat := Word.toNat ((bytes.drop 12).take 4)

/-- The start of the record at `count`: less than a head, or its head and less behind that than
the command it declares. -/
def Torn (count : Nat) (tail : Bytes) : Prop :=
  tail.length < headLength ∨ (headLength ≤ tail.length ∧ declaredIndex tail = count ∧
    tail.length - headLength < declaredLength tail)

/-- The head of a record that does not belong at `count`, whatever follows it. -/
def Misplaced (count : Nat) (tail : Bytes) : Prop :=
  headLength ≤ tail.length ∧ declaredIndex tail ≠ count

/-- Records can hold these entries and their places, the first one at `count`. -/
structure Recordable (count : Nat) (entries : List Entry) : Prop where
  entries_fit : ∀ entry ∈ entries, Fits entry
  places_fit : ∀ place : Nat, count ≤ place → place < count + entries.length →
    Word.InRange 8 place

variable {entry : Entry} {entries : List Entry} {count offset : Nat} {rest tail file : Bytes}

/-- The record at the start of some bytes, when there is a whole one. -/
def leading (bytes : Bytes) : Entry :=
  ⟨Word.field bytes 0 4, (bytes.drop headLength).take (declaredLength bytes)⟩

theorem declaredLength_lt (hlong : headLength ≤ rest.length) :
    declaredLength rest < lengthBound := by
  have hword : ((rest.drop 12).take 4).length = 4 := by
    rw [List.length_take, List.length_drop]
    unfold headLength at hlong
    omega
  have hlt := Word.toNat_lt ((rest.drop 12).take 4)
  rwa [hword] at hlt

theorem fits_leading (hlong : headLength ≤ rest.length) : Fits (leading rest) := by
  refine ⟨Word.field_inRange (Nat.le_trans (by decide) hlong), ?_⟩
  exact Nat.lt_of_le_of_lt (List.length_take_le _ _) (declaredLength_lt hlong)

/-- A whole record is the record of what is read from it. -/
theorem encode_leading_append (hlong : headLength ≤ rest.length)
    (hindex : declaredIndex rest = count)
    (hwhole : declaredLength rest ≤ rest.length - headLength) :
    encode count (leading rest) ++ rest.drop (headLength + declaredLength rest) = rest := by
  have hroom : 16 ≤ rest.length := hlong
  have hcommand : (leading rest).command.length = declaredLength rest := by
    rw [leading, List.length_take, List.length_drop]
    omega
  have hterm : Word.encode 4 (leading rest).term = rest.take 4 :=
    Word.take_append_encode rest 0 4 (by omega)
  have hplace : rest.take 4 ++ Word.encode 8 (count : Index) = rest.take 12 := by
    rw [← hindex]
    exact Word.take_append_encode rest 4 8 (by omega)
  have hlength : rest.take 12 ++ Word.ofNat 4 (declaredLength rest) = rest.take 16 := by
    have hfour : ((rest.drop 12).take 4).length = 4 := by
      rw [List.length_take, List.length_drop]
      omega
    have hword := Word.ofNat_toNat ((rest.drop 12).take 4)
    rw [hfour] at hword
    rw [declaredLength, hword, ← List.take_add]
  have hrecord : encode count (leading rest) =
      rest.take (headLength + declaredLength rest) := by
    rw [encode, hterm, hplace, hcommand, hlength, leading, List.take_add]
    rfl
  rw [hrecord, List.take_append_drop]

/-! ## Reading by what is left -/

/-- A scan stops in front of a torn record. -/
theorem scan_of_torn (htorn : Torn count tail) :
    scan count offset tail = .ok ⟨[], [], offset⟩ := by
  rcases htorn with hshort | ⟨hlong, hindex, hcut⟩
  · exact scan_of_short hshort
  · have hplace : Word.field tail 4 8 = count := hindex
    have hcommand : tail.length - headLength < Word.toNat ((tail.drop 12).take 4) := hcut
    rw [scan, if_neg (Nat.not_lt.mpr hlong)]
    simp [hplace, hcommand]

/-- A scan names the record that is out of place. -/
theorem scan_of_misplaced (hmisplaced : Misplaced count tail) :
    scan count offset tail = .error (.corruptRecord offset (declaredIndex tail) count) := by
  obtain ⟨hlong, hindex⟩ := hmisplaced
  rw [scan, if_neg (Nat.not_lt.mpr hlong)]
  exact if_pos hindex

theorem recordable_nil (count : Nat) : Recordable count [] :=
  ⟨nofun, fun _ hfrom hbefore => absurd hbefore (Nat.not_lt.mpr hfrom)⟩

theorem Recordable.cons (h : Recordable (count + 1) entries) (hentry : Fits entry)
    (hplace : Word.InRange 8 count) : Recordable count (entry :: entries) := by
  refine ⟨List.forall_mem_cons.mpr ⟨hentry, h.entries_fit⟩, fun place hfrom hbefore => ?_⟩
  rw [List.length_cons] at hbefore
  rcases Nat.eq_or_lt_of_le hfrom with rfl | hlater
  · exact hplace
  · exact h.places_fit place hlater (by omega)

/-- Whatever the bytes, whole records come first, and then the start of the next one or the head
of one that does not belong there. -/
theorem exists_row (count offset : Nat) (rest : Bytes) :
    ∃ entries tail, rest = encodeAll count entries ++ tail ∧ Recordable count entries ∧
      (Torn (count + entries.length) tail ∨ Misplaced (count + entries.length) tail) := by
  induction count, offset, rest using scan.induct with
  | case1 count offset rest hshort =>
    exact ⟨[], rest, rfl, recordable_nil count, .inl (.inl hshort)⟩
  | case2 count offset rest hlong index hindex =>
    exact ⟨[], rest, rfl, recordable_nil count, .inr ⟨Nat.not_lt.mp hlong, hindex⟩⟩
  | case3 count offset rest hlong index length hindex hcut =>
    refine ⟨[], rest, rfl, recordable_nil count, .inl (.inr ?_)⟩
    exact ⟨Nat.not_lt.mp hlong, Decidable.not_not.mp hindex, hcut⟩
  | case4 count offset rest hlong index length hindex hwhole next ih =>
    obtain ⟨entries, tail, hrest, hrow, htail⟩ := ih
    have hroom : headLength ≤ rest.length := Nat.not_lt.mp hlong
    have hplace : declaredIndex rest = count := Decidable.not_not.mp hindex
    have hrange : Word.InRange 8 count :=
      hplace ▸ Word.field_inRange (Nat.le_trans (by decide) hroom)
    refine ⟨leading rest :: entries, tail, ?_, hrow.cons (fits_leading hroom) hrange, ?_⟩
    · rw [encodeAll, List.append_assoc]
      exact (encode_leading_append hroom hplace (Nat.not_lt.mp hwhole)).symm.trans
        (congrArg _ hrest)
    · rw [List.length_cons, Nat.add_comm entries.length, ← Nat.add_assoc]
      exact htail

/-! ## Whole files -/

theorem parse_append (hrow : Recordable 0 entries) : parse (encodeAll 0 entries ++ tail) =
    (scan entries.length (encodeAll 0 entries).length tail).map fun later =>
      ⟨entries ++ later.entries, starts 0 entries ++ later.offsets, later.stop⟩ := by
  have hscan : parse (encodeAll 0 entries ++ tail) = _ :=
    scan_encodeAll_append hrow.entries_fit fun place hplace =>
      hrow.places_fit place (Nat.zero_le _) hplace
  rw [hscan, Nat.zero_add, Nat.zero_add]
  rfl

/-- Behind whole records, a torn one is dropped. -/
theorem parse_of_torn (hrow : Recordable 0 entries) (htorn : Torn entries.length tail) :
    parse (encodeAll 0 entries ++ tail) =
      .ok ⟨entries, starts 0 entries, (encodeAll 0 entries).length⟩ := by
  rw [parse_append hrow, scan_of_torn htorn, Except.map, List.append_nil, List.append_nil]

/-- Behind whole records, one that is out of place is refused. -/
theorem parse_of_misplaced (hrow : Recordable 0 entries)
    (hmisplaced : Misplaced entries.length tail) :
    parse (encodeAll 0 entries ++ tail) =
      .error (.corruptRecord (encodeAll 0 entries).length (declaredIndex tail)
        entries.length) := by
  rw [parse_append hrow, scan_of_misplaced hmisplaced]
  rfl

/-- What is read from a file are the records that it begins with, and the start of one more at
most is left. -/
theorem exists_tail_of_parse {image : Image} (hparse : parse file = .ok image) :
    ∃ tail, file = encodeAll 0 image.entries ++ tail ∧ Recordable 0 image.entries ∧
      Torn image.entries.length tail ∧ image.offsets = starts 0 image.entries ∧
      image.stop = (encodeAll 0 image.entries).length := by
  obtain ⟨entries, tail, rfl, hrow, htail⟩ := exists_row 0 0 file
  rw [Nat.zero_add] at htail
  rcases htail with htorn | hmisplaced
  · obtain rfl := Except.ok.inj ((parse_of_torn hrow htorn).symm.trans hparse)
    exact ⟨tail, rfl, hrow, htorn, rfl, rfl⟩
  · cases (parse_of_misplaced hrow hmisplaced).symm.trans hparse

/-- A file that is refused goes on with the head of a record that belongs in another place. -/
theorem exists_misplaced_of_parse {cause : StorageFailure} (hparse : parse file = .error cause) :
    ∃ entries tail, file = encodeAll 0 entries ++ tail ∧ Recordable 0 entries ∧
      Misplaced entries.length tail ∧ cause = .corruptRecord (encodeAll 0 entries).length
        (declaredIndex tail) entries.length := by
  obtain ⟨entries, tail, rfl, hrow, htail⟩ := exists_row 0 0 file
  rw [Nat.zero_add] at htail
  rcases htail with htorn | hmisplaced
  · cases (parse_of_torn hrow htorn).symm.trans hparse
  · have hcause := (parse_of_misplaced hrow hmisplaced).symm.trans hparse
    exact ⟨entries, tail, rfl, hrow, hmisplaced, (Except.error.inj hcause).symm⟩

theorem eq_starts_iff {offsets : List Nat} : offsets = starts 0 entries ↔
    offsets.length = entries.length ∧ ∀ place < entries.length,
      offsets[place]? = some (encodeAll 0 (entries.take place)).length := by
  constructor
  · rintro rfl
    refine ⟨length_starts 0 entries, fun place hplace => ?_⟩
    rw [getElem?_starts 0 0 hplace, Nat.zero_add]
  · rintro ⟨hlength, hplaces⟩
    refine List.ext_getElem? fun place => ?_
    rcases Nat.lt_or_ge place entries.length with hwithin | hbeyond
    · rw [hplaces place hwithin, getElem?_starts 0 0 hwithin, Nat.zero_add]
    · rw [List.getElem?_eq_none (hlength ▸ hbeyond),
        List.getElem?_eq_none ((length_starts 0 entries).symm ▸ hbeyond)]

/-- A file is read as entries exactly if it is the row of their records and the start of one more
at most. It is refused exactly if the row goes on with the head of a record that belongs in another
place, which the error names. -/
theorem parse_exact (file : Bytes) :
    (∀ entries offsets stop, parse file = .ok ⟨entries, offsets, stop⟩ ↔
      ∃ tail, file = encodeAll 0 entries ++ tail ∧ Recordable 0 entries ∧
        Torn entries.length tail ∧ stop = (encodeAll 0 entries).length ∧
        offsets.length = entries.length ∧ ∀ place < entries.length,
          offsets[place]? = some (encodeAll 0 (entries.take place)).length) ∧
    ∀ cause, parse file = .error cause ↔
      ∃ entries tail, file = encodeAll 0 entries ++ tail ∧ Recordable 0 entries ∧
        Misplaced entries.length tail ∧ cause = .corruptRecord (encodeAll 0 entries).length
          (declaredIndex tail) entries.length := by
  refine ⟨fun entries offsets stop => ⟨fun hparse => ?_, ?_⟩,
    fun cause => ⟨exists_misplaced_of_parse, ?_⟩⟩
  · obtain ⟨tail, hfile, hrow, htorn, hoffsets, hstop⟩ := exists_tail_of_parse hparse
    exact ⟨tail, hfile, hrow, htorn, hstop, eq_starts_iff.mp hoffsets⟩
  · rintro ⟨tail, rfl, hrow, htorn, rfl, hoffsets⟩
    rw [parse_of_torn hrow htorn, eq_starts_iff.mpr hoffsets]
  · rintro ⟨entries, tail, rfl, hrow, hmisplaced, rfl⟩
    exact parse_of_misplaced hrow hmisplaced

end Record

/-! ## Opening -/

/-- Whatever a directory holds, a store that was opened on it knows what its log file holds. -/
theorem DiskStore.faithful_of_openDirectory {directory : Directory} {store : DiskStore}
    (hopen : openDirectory directory = .ok store) : store.Faithful := by
  obtain ⟨image, hparse, hstore⟩ := bind_eq_ok.mp hopen
  obtain ⟨tail, hfile, hrow, -, hoffsets, hstop⟩ := Record.exists_tail_of_parse hparse
  obtain rfl := Except.ok.inj hstore
  have hwhole : (directory.log.getD []).take image.stop = Record.encodeAll 0 image.entries := by
    rw [hfile, hstop, List.take_left]
  refine ⟨⟨hoffsets, hstop, hrow.entries_fit, fun place hplace => ?_⟩, congrArg some hwhole, rfl⟩
  exact hrow.places_fit place (Nat.zero_le _) (by rwa [Nat.zero_add])

end Consensus
