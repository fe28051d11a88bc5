import Consensus.Proofs.Storage.Lawful
import Consensus.Proofs.Storage.Metadata
import Consensus.Proofs.Storage.Records
import Consensus.Storage.Disk

/-! # Stores on disk

What is kept in memory is what the files hold: opening the directory again gives the same
store. Each call keeps it so while the operating system carries out what it is asked, and calls
that succeed do what a server relies on.
-/

namespace Consensus

/-! ## Files -/

@[simp] theorem resized_length (file : Bytes) : resized file file.length = file := by
  simp [resized]

theorem resized_of_isPrefix {file front : Bytes} (hbegins : front <+: file) :
    resized file front.length = front := by
  obtain ⟨rest, rfl⟩ := hbegins
  simp [resized]

/-- A write at the end of a file makes it longer. -/
theorem overwritten_length (file written : Bytes) :
    overwritten file file.length written = file ++ written := by
  rw [overwritten, resized_length, List.drop_of_length_le (Nat.le_add_right _ _), List.append_nil]

namespace DiskStore

variable {store : DiskStore} {index : Index} {entry : Entry}

/-! ## What is kept in memory -/

/-- The places of the records are known, and records can hold the entries. -/
structure Indexed (store : DiskStore) : Prop where
  offsets_eq : store.offsets = Record.starts 0 store.entries
  logEnd_eq : store.logEnd = (Record.encodeAll 0 store.entries).length
  entries_fit : ∀ entry ∈ store.entries, Record.Fits entry
  indices_fit : ∀ index : Nat, index < store.entries.length → Word.InRange 8 index

/-- The log file is the records of the entries, each is known by its place, and no change is going
to fail. -/
structure Faithful (store : DiskStore) : Prop extends store.Indexed where
  log_eq : store.directory.log = some (Record.encodeAll 0 store.entries)
  fates_eq : store.fates = []

theorem Indexed.length_offsets (h : store.Indexed) :
    store.offsets.length = store.entries.length := by
  rw [h.offsets_eq, Record.length_starts]

/-- Opening the directory of a store again gives the store. -/
theorem Faithful.openDirectory (h : store.Faithful) :
    DiskStore.openDirectory store.directory = .ok store := by
  have hparse := Record.parse_encodeAll h.entries_fit h.indices_fit
  simp only [DiskStore.openDirectory, h.log_eq, Option.getD_some, hparse, bind, Except.bind, pure,
    Except.pure, List.take_length]
  rw [← h.log_eq, ← h.offsets_eq, ← h.logEnd_eq, ← h.fates_eq]

/-- A missing log file is created. -/
theorem openDirectory_of_no_log (metadata : Option Bytes) :
    DiskStore.openDirectory ⟨none, metadata⟩ = .ok ⟨⟨some [], metadata⟩, [], [], 0, []⟩ := by
  have hparse : Record.parse [] = .ok ⟨[], [], 0⟩ := Record.scan_of_short (by decide)
  simp [DiskStore.openDirectory, hparse, bind, Except.bind, pure, Except.pure]

theorem openDirectory_fresh :
    DiskStore.openDirectory {} = .ok ⟨⟨some [], none⟩, [], [], 0, []⟩ :=
  openDirectory_of_no_log none

theorem faithful_fresh : Faithful ⟨⟨some [], none⟩, [], [], 0, []⟩ :=
  ⟨⟨rfl, rfl, nofun, fun _ hindex => absurd hindex (Nat.not_lt_zero _)⟩, rfl, rfl⟩

theorem Faithful.save (h : store.Faithful) (term : Term) (votedFor : Option ServerId) :
    (store.save term votedFor).Faithful :=
  ⟨⟨h.offsets_eq, h.logEnd_eq, h.entries_fit, h.indices_fit⟩, h.log_eq, h.fates_eq⟩

/-! ## Changes -/

/-- A change that is carried out uses up what was going to become of it. -/
theorem commit_eq_ok {changed left : DiskStore} {partway : Nat → Bytes}
    (hcommit : store.commit changed partway = .ok left) :
    ∃ later, left = { changed with fates := later } := by
  unfold commit at hcommit
  split at hcommit
  next => exact ⟨changed.fates, (Except.ok.inj hcommit).symm⟩
  next later _ => exact ⟨later, (Except.ok.inj hcommit).symm⟩
  next => cases hcommit

/-- Where no failure is due, a change is made. -/
theorem commit_of_calm (hcalm : store.fates = []) (changed : DiskStore)
    (partway : Nat → Bytes) : store.commit changed partway = .ok changed := by
  rw [commit, hcalm]

/-! ## Appending -/

/-- An entry in its place is recorded, as far as the operating system goes along. -/
theorem append_length (hlength : entry.command.length < Record.lengthBound) :
    store.append store.entries.length entry =
      store.commit (store.extended entry) fun reached => overwritten store.file store.logEnd
        ((Record.encode store.entries.length entry).take reached) := by
  rw [append, if_neg (not_not_intro rfl), if_neg (Nat.not_le.mpr hlength)]

/-- An entry that is appended is indexed by where the file ended. -/
theorem append_eq_ok {appended : DiskStore} (happend : store.append index entry = .ok appended) :
    index = store.entries.length ∧ appended.entries = store.entries ++ [entry] ∧
      appended.offsets = store.offsets ++ [store.logEnd] ∧
      appended.directory.metadata = store.directory.metadata := by
  unfold append at happend
  split at happend
  next => cases happend
  next hindex =>
    split at happend
    next => cases happend
    next =>
      obtain ⟨later, rfl⟩ := commit_eq_ok happend
      exact ⟨Decidable.not_not.mp hindex, rfl, rfl, rfl⟩

/-- One more record keeps the offsets right. -/
theorem Indexed.extended (h : store.Indexed) (hentry : Record.Fits entry)
    (hindex : Word.InRange 8 (store.entries.length : Int)) : (store.extended entry).Indexed := by
  refine ⟨?_, ?_, ?_, ?_⟩
  · show store.offsets ++ [store.logEnd] = _
    rw [h.offsets_eq, h.logEnd_eq, DiskStore.extended, Record.starts_concat 0 0, Nat.zero_add]
  · show store.logEnd + _ = _
    rw [h.logEnd_eq, DiskStore.extended, Record.encodeAll_concat, List.length_append]
  · intro other hother
    rcases List.mem_append.mp hother with hheld | hnew
    · exact h.entries_fit other hheld
    · exact List.mem_singleton.mp hnew ▸ hentry
  · intro place hplace
    rw [DiskStore.extended, List.length_append, List.length_singleton] at hplace
    rcases Nat.lt_succ_iff_lt_or_eq.mp hplace with hheld | rfl
    · exact h.indices_fit place hheld
    · exact hindex

theorem Indexed.log_extended (h : store.Indexed)
    (hlog : store.directory.log = some (Record.encodeAll 0 store.entries)) (entry : Entry) :
    (store.extended entry).directory.log =
      some (Record.encodeAll 0 (store.extended entry).entries) := by
  simp only [DiskStore.extended, file, hlog, Option.getD_some, h.logEnd_eq, overwritten_length,
    Record.encodeAll_concat]

/-- An entry in its place is recorded behind the others. -/
theorem Faithful.append (h : store.Faithful) (hentry : Record.Fits entry)
    (hindex : Word.InRange 8 (store.entries.length : Int)) :
    ∃ appended, store.append store.entries.length entry = .ok appended ∧ appended.Faithful ∧
      appended.entries = store.entries ++ [entry] := by
  refine ⟨store.extended entry, ?_, ⟨h.extended hentry hindex, ?_, h.fates_eq⟩, rfl⟩
  · rw [append_length hentry.length_lt, commit_of_calm h.fates_eq]
  · exact h.log_extended h.log_eq entry

/-! ## Truncation -/

/-- A cut leaves the entries in front of the index, with their offsets. -/
theorem truncate_eq_ok {truncated : DiskStore}
    (hlength : store.offsets.length = store.entries.length)
    (htruncate : store.truncate index = .ok truncated) :
    truncated.entries = store.entries.take index.toNat ∧
      truncated.offsets = store.offsets.take index.toNat ∧
      truncated.directory.metadata = store.directory.metadata := by
  unfold truncate at htruncate
  split at htruncate
  next => cases htruncate
  next =>
    split at htruncate
    next hbeyond =>
      have hlong := List.getElem?_eq_none_iff.mp hbeyond
      cases htruncate
      rw [List.take_of_length_le hlong, List.take_of_length_le (hlength ▸ hlong)]
      exact ⟨rfl, rfl, rfl⟩
    next =>
      obtain ⟨later, rfl⟩ := commit_eq_ok htruncate
      exact ⟨rfl, rfl, rfl⟩

variable {count : Nat}

/-- Where the records of the first entries end. -/
def endOf (entries : List Entry) (count : Nat) : Nat :=
  (Record.encodeAll 0 (entries.take count)).length

/-- Entries are dropped, as far as the operating system goes along. -/
theorem Indexed.truncate_eq (h : store.Indexed) (hcount : count < store.entries.length) :
    store.truncate count =
      store.commit (store.shortened count (endOf store.entries count)) fun _ =>
        resized store.file (endOf store.entries count) := by
  have hoffset := Record.getElem?_starts 0 0 hcount
  rw [← h.offsets_eq, Nat.zero_add] at hoffset
  rw [truncate, if_neg (Int.not_lt.mpr (Int.natCast_nonneg count)), Int.toNat_natCast, hoffset]
  rfl

/-- A cut keeps the offsets right. -/
theorem Indexed.shortened (h : store.Indexed) (count : Nat) :
    (store.shortened count (endOf store.entries count)).Indexed := by
  refine ⟨?_, rfl, ?_, ?_⟩
  · show store.offsets.take count = _
    rw [h.offsets_eq, Record.take_starts]
    rfl
  · exact fun other hother => h.entries_fit other (List.mem_of_mem_take hother)
  · intro place hplace
    rw [DiskStore.shortened, List.length_take] at hplace
    exact h.indices_fit place (by omega)

/-- The file is cut where a record starts, so whole records are left. -/
theorem resized_endOf (entries : List Entry) (count : Nat) :
    resized (Record.encodeAll 0 entries) (endOf entries count) =
      Record.encodeAll 0 (entries.take count) :=
  resized_of_isPrefix (Record.encodeAll_isPrefix 0 (List.take_prefix _ _))

theorem log_shortened (hlog : store.directory.log = some (Record.encodeAll 0 store.entries))
    (count : Nat) : (store.shortened count (endOf store.entries count)).directory.log =
      some (Record.encodeAll 0 (store.entries.take count)) := by
  simp only [DiskStore.shortened, file, hlog, Option.getD_some, resized_endOf]

/-- The entries in front of an index are left, and their records. -/
theorem Faithful.truncate (h : store.Faithful) (hnonneg : 0 ≤ index) :
    ∃ truncated, store.truncate index = .ok truncated ∧ truncated.Faithful ∧
      truncated.entries = store.entries.take index.toNat := by
  obtain ⟨count, rfl⟩ := Int.eq_ofNat_of_zero_le hnonneg
  rw [Int.toNat_natCast]
  rcases Nat.lt_or_ge count store.entries.length with hwithin | hbeyond
  · exact ⟨_, (h.truncate_eq hwithin).trans (commit_of_calm h.fates_eq _ _),
      ⟨h.shortened count, log_shortened h.log_eq count, h.fates_eq⟩, rfl⟩
  · have hnone : store.offsets[count]? = none := by
      rw [List.getElem?_eq_none_iff, h.length_offsets]
      exact hbeyond
    refine ⟨store, ?_, h, (List.take_of_length_le hbeyond).symm⟩
    rw [DiskStore.truncate, if_neg (Int.not_lt.mpr hnonneg), Int.toNat_natCast, hnone]

/-! ## Laws -/

theorem load_of_metadata_eq {other : DiskStore}
    (hmetadata : other.directory.metadata = store.directory.metadata) :
    other.load = store.load := by
  rw [load, load, hmetadata]

end DiskStore

instance : LawfulStore DiskStore where
  Valid store := store.offsets.length = store.entries.length
  save_ok := by
    intro store saved term votedFor hvalid hsave
    cases hsave
    exact ⟨hvalid, rfl, fun loaded hload => Metadata.eq_of_read_render hload⟩
  append_ok := by
    intro store appended index entry hvalid happend
    obtain ⟨hindex, hentries, hoffsets, hmetadata⟩ := DiskStore.append_eq_ok happend
    refine ⟨?_, hindex, hentries, DiskStore.load_of_metadata_eq hmetadata⟩
    rw [hentries, hoffsets, List.length_append, List.length_append, hvalid]
    rfl
  truncate_ok := by
    intro store truncated index hvalid _ htruncate
    obtain ⟨hentries, hoffsets, hmetadata⟩ := DiskStore.truncate_eq_ok hvalid htruncate
    refine ⟨?_, hentries, DiskStore.load_of_metadata_eq hmetadata⟩
    rw [hentries, hoffsets, List.length_take, List.length_take, hvalid]

/-- The operating system refuses every change of the log file, or none. -/
instance : FallibleStore DiskStore where
  setFault store faulty :=
    { store with fates := if faulty then [.failed "No space left on device" 0] else [] }
  valid _ hvalid := hvalid
  entries_eq _ _ := rfl
  load_eq _ _ := rfl

end Consensus
