import Consensus.Proofs.Log.Entries
import Consensus.Proofs.Storage.Reliable
import Consensus.Proofs.Storage.Torn
import Consensus.Proofs.Storage.Format

/-! # Changes that may fail

A list of entries grows and shrinks at its end. A store carries out such a change or leaves its
entries as they were, but the log file of a store on disk may hold a change that failed, or the
start of one. When the directory is opened again before anything else is changed, a start counts
as nothing.
-/

namespace Consensus

/-! ## Changes -/

/-- A change at the end of a list of entries. -/
inductive Change where
  /-- The first `count` entries are kept. -/
  | cut (count : Nat)
  | add (entry : Entry)
  deriving DecidableEq, Repr

namespace Change

def apply (list : Entries) : Change → Entries
  | .cut count => list.take count
  | .add entry => list ++ [entry]

/-- How many bytes of a change have to reach a file for the change to be in it. -/
def extent : Change → Nat
  | .cut _ => 1
  | .add entry => Record.size entry

/-- There is something to cut off, or an entry that a record can hold at its place. -/
def Fits (list : Entries) : Change → Prop
  | .cut count => count < list.length
  | .add entry => Word.InRange 8 (list.length : Index) ∧ Record.Fits entry

/-- Asks a store for a change. -/
def ask {σ : Type} [Store σ] (store : σ) : Change → Except StorageFailure σ
  | .cut count => Store.truncate store count
  | .add entry => Store.append store (Store.size store) entry

end Change

/-! ## Lists in the place of stores -/

/-- What is known of the log file behind a list. -/
inductive Files where
  /-- It holds the list. -/
  | current
  /-- It holds these entries since a change of the list failed. -/
  | left (entries : Entries)
  /-- It was changed again since. -/
  | unknown
  deriving DecidableEq, Repr

namespace Files

def afterChange : Files → Files
  | .current => .current
  | _ => .unknown

/-- What is known after a change that failed when `reached` bytes of it were in the file. -/
def afterFailure (list : Entries) (change : Change) (reached : Nat) : Files → Files
  | .current =>
    if reached = 0 then .current
    else .left (if change.extent ≤ reached then change.apply list else list)
  | .left entries => if reached = 0 then .left entries else .unknown
  | .unknown => .unknown

/-- The entries that are found when the directory of a list is opened again. -/
def found? (list : Entries) : Files → Option Entries
  | .current => some list
  | .left entries => some entries
  | .unknown => none

end Files

/-- What a list is kept in, and what will become of its changes. -/
inductive Medium where
  | memory (faulty : Bool)
  | disk (fates : List Fate) (files : Files)
  deriving DecidableEq, Repr

/-- A list of entries in the place of a log. -/
structure PlainLog where
  entries : Entries
  medium : Medium
  deriving DecidableEq, Repr

namespace PlainLog

/-- The list that stands for a store. -/
def ofStore : Backend → PlainLog
  | .memory store => ⟨store.entries, .memory store.faulty⟩
  | .disk store => ⟨store.entries, .disk store.fates .current⟩

/-- The list after a change that is carried out, or else what is left of it. -/
def attempt (plain : PlainLog) (change : Change) : Except PlainLog PlainLog :=
  match plain.medium with
  | .memory false => .ok { plain with entries := change.apply plain.entries }
  | .memory true => .error plain
  | .disk [] files => .ok ⟨change.apply plain.entries, .disk [] files.afterChange⟩
  | .disk (.done :: later) files =>
    .ok ⟨change.apply plain.entries, .disk later files.afterChange⟩
  | .disk (.failed _ reached :: later) files =>
    .error { plain with
      medium := .disk later (files.afterFailure plain.entries change reached) }

theorem entries_of_attempt_ok {plain after : PlainLog} {change : Change}
    (h : plain.attempt change = .ok after) : after.entries = change.apply plain.entries := by
  unfold attempt at h
  split at h <;> cases h <;> rfl

/-- A change that fails leaves the list as it was. -/
theorem entries_of_attempt_error {plain left : PlainLog} {change : Change}
    (h : plain.attempt change = .error left) : left.entries = plain.entries := by
  unfold attempt at h
  split at h <;> cases h <;> rfl

/-- The list that is found when its store is opened again, if that is known. Memory has forgotten
everything. -/
def reopened (plain : PlainLog) : Option PlainLog :=
  match plain.medium with
  | .memory _ => some ⟨[], .memory false⟩
  | .disk _ files => (files.found? plain.entries).map fun found => ⟨found, .disk [] .current⟩

end PlainLog

/-! ## Log files -/

namespace DiskStore

variable {store : DiskStore} {change : Change}

/-- The store after a change. -/
def changed (store : DiskStore) : Change → DiskStore
  | .cut count => store.shortened count (endOf store.entries count)
  | .add entry => store.extended entry

/-- The log file when `reached` bytes of a change are in it. -/
def partway (store : DiskStore) (reached : Nat) : Change → Bytes
  | .cut count => resized store.file (endOf store.entries count)
  | .add entry => overwritten store.file store.logEnd
      ((Record.encode store.entries.length entry).take reached)

/-- To ask the disk for a change is to commit it in memory or to stop on the way there. -/
theorem Indexed.ask (h : store.Indexed) (hfits : change.Fits store.entries) :
    change.ask store =
      store.commit (store.changed change) fun reached => store.partway reached change := by
  cases change with
  | cut count => exact h.truncate_eq hfits
  | add entry => exact append_length hfits.2.length_lt

theorem Indexed.expecting (h : store.Indexed) (fates : List Fate) :
    Indexed { store with fates } :=
  ⟨h.offsets_eq, h.logEnd_eq, h.entries_fit, h.indices_fit⟩

/-- A write that failed leaves the offsets of the records right. -/
theorem Indexed.afterFailure (h : store.Indexed) (cause : StorageFailure) :
    (store.afterFailure cause).Indexed := by
  unfold DiskStore.afterFailure
  split
  next => exact ⟨h.offsets_eq, h.logEnd_eq, h.entries_fit, h.indices_fit⟩
  next => exact h

theorem entries_changed (store : DiskStore) (change : Change) :
    (store.changed change).entries = change.apply store.entries := by
  cases change <;> rfl

theorem Indexed.changed (h : store.Indexed) (hfits : change.Fits store.entries) :
    (store.changed change).Indexed := by
  cases change with
  | cut count => exact h.shortened count
  | add entry => exact h.extended hfits.2 hfits.1

/-- The log file holds the entries and nothing else. -/
def Current (store : DiskStore) : Prop :=
  store.directory.log = some (Record.encodeAll 0 store.entries)

theorem Current.file_eq (h : store.Current) : store.file = Record.encodeAll 0 store.entries :=
  congrArg (·.getD []) h

/-- A change keeps the file in step with the entries. -/
theorem Indexed.current_changed (h : store.Indexed) (hcurrent : store.Current)
    (change : Change) : (store.changed change).Current := by
  cases change with
  | cut count => exact log_shortened hcurrent count
  | add entry => exact h.log_extended hcurrent entry

theorem Indexed.parse (h : store.Indexed) :
    ∃ image, Record.parse (Record.encodeAll 0 store.entries) = .ok image ∧
      image.entries = store.entries :=
  ⟨_, Record.parse_encodeAll h.entries_fit h.indices_fit, rfl⟩

/-- A change that is whole is read from the file, and of one that is not nothing is. -/
theorem Indexed.parse_partway (h : store.Indexed) (hcurrent : store.Current)
    (hfits : change.Fits store.entries) {reached : Nat} (hreached : reached ≠ 0) :
    ∃ image, Record.parse (store.partway reached change) = .ok image ∧ image.entries =
      if change.extent ≤ reached then change.apply store.entries else store.entries := by
  cases change with
  | cut count =>
    have hwhole : (Change.cut count).extent ≤ reached := Nat.one_le_iff_ne_zero.mpr hreached
    rw [if_pos hwhole, partway, hcurrent.file_eq, resized_endOf]
    exact (h.shortened count).parse
  | add entry =>
    have hfile : store.partway reached (.add entry) = Record.encodeAll 0 store.entries ++
        (Record.encode store.entries.length entry).take reached := by
      rw [partway, hcurrent.file_eq, h.logEnd_eq, overwritten_length]
    rw [hfile, Change.extent]
    by_cases hwhole : Record.size entry ≤ reached
    -- A record all of whose bytes are in the file is read, synced or not.
    · rw [if_pos hwhole, List.take_of_length_le (Record.length_encode _ entry ▸ hwhole),
        ← Record.encodeAll_concat]
      exact (h.extended hfits.2 hfits.1).parse
    · have hrow : Record.Recordable 0 store.entries := ⟨h.entries_fit, fun place _ hplace =>
        h.indices_fit place (by rwa [Nat.zero_add] at hplace)⟩
      have hpart : Record.scan store.entries.length (Record.encodeAll 0 store.entries).length
          ((Record.encode store.entries.length entry).take reached) = _ :=
        Record.scan_take_encode hfits.2 hfits.1 (Nat.lt_of_not_le hwhole)
      rw [if_neg hwhole, Record.parse_append hrow, hpart]
      exact ⟨_, rfl, List.append_nil _⟩

end DiskStore

/-- The log file is as far known as is told. -/
def Files.Describes (store : DiskStore) : Files → Prop
  | .current => store.Current
  | .left entries =>
    ∃ image, Record.parse store.file = .ok image ∧ image.entries = entries
  | .unknown => True

namespace Files

variable {files : Files} {store : DiskStore} {change : Change}

theorem Describes.expecting (h : files.Describes store) (fates : List Fate) :
    files.Describes { store with fates } := by
  cases files <;> exact h

/-- The description of the files keeps up with a change. -/
theorem Describes.afterChange (h : files.Describes store) (hindexed : store.Indexed)
    (change : Change) : files.afterChange.Describes (store.changed change) := by
  cases files with
  | current => exact hindexed.current_changed h change
  | left entries => trivial
  | unknown => trivial

/-- The description of the files keeps up with a change that failed. -/
theorem Describes.afterFailure (h : files.Describes store) (hindexed : store.Indexed)
    (hfits : change.Fits store.entries) (cause : String) (reached : Nat) :
    (files.afterFailure store.entries change reached).Describes
      (store.afterFailure (.writeFailed cause
        (if reached = 0 then store.file else store.partway reached change))) := by
  by_cases hnothing : reached = 0
  · simp only [hnothing, if_true]
    cases files with
    | current => exact congrArg some (DiskStore.Current.file_eq h)
    | left entries => exact h
    | unknown => trivial
  · simp only [hnothing, if_false]
    cases files with
    | current =>
      rw [Files.afterFailure, if_neg hnothing]
      exact hindexed.parse_partway h hfits hnothing
    | left entries =>
      rw [Files.afterFailure, if_neg hnothing]
      trivial
    | unknown => trivial

/-- What the files are said to hold is found in them. -/
theorem Describes.parse (h : files.Describes store) (hindexed : store.Indexed)
    {found : Entries} (hfound : files.found? store.entries = some found) :
    ∃ image, Record.parse store.file = .ok image ∧ image.entries = found := by
  cases files with
  | current =>
    cases hfound
    rw [DiskStore.Current.file_eq h]
    exact hindexed.parse
  | left entries =>
    cases hfound
    exact h
  | unknown => cases hfound

end Files

/-! ## Stores -/

/-- A store of either kind that could have been opened: there is no other on disk. -/
def Backend.Opened : Backend → Prop
  | .memory _ => True
  | .disk store => ∃ directory, DiskStore.openDirectory directory = .ok store

/-- The store has the entries of a list, and meets with what the list does. -/
def Backend.Follows (plain : PlainLog) : Backend → Prop
  | .memory store => store.entries = plain.entries ∧ plain.medium = .memory store.faulty
  | .disk store => store.entries = plain.entries ∧ store.Indexed ∧
      ∃ files, plain.medium = .disk store.fates files ∧ files.Describes store

namespace Backend

variable {store : Backend} {plain : PlainLog}

theorem follows_ofStore (hopened : store.Opened) : store.Follows (.ofStore store) := by
  cases store with
  | memory store => exact ⟨rfl, rfl⟩
  | disk store =>
    obtain ⟨directory, hopen⟩ := hopened
    have hfaithful := DiskStore.faithful_of_openDirectory hopen
    exact ⟨rfl, hfaithful.toIndexed, .current, rfl, hfaithful.log_eq⟩

theorem Follows.entries_eq (h : store.Follows plain) : Store.entries store = plain.entries := by
  cases store with
  | memory store => exact h.1
  | disk store => exact h.1

/-- The change is carried out in both places, or it fails in both and leaves the entries alone. -/
def Agrees (plain : PlainLog) (change : Change) (store : Backend) : Prop :=
  (∃ changed after, change.ask store = .ok changed ∧ plain.attempt change = .ok after ∧
      changed.Follows after) ∨
    ∃ cause left, change.ask store = .error cause ∧ plain.attempt change = .error left ∧
      (store.afterFailure cause).Follows left

theorem ask_memory (store : MemoryStore) (change : Change) :
    change.ask (memory store) = (change.ask store).map .memory := by
  cases change <;> rfl

theorem ask_disk (store : DiskStore) (change : Change) :
    change.ask (disk store) = (change.ask store).map .disk := by
  cases change <;> rfl

/-- A store in memory takes a change or fails as the list does. -/
theorem agrees_memory {store : MemoryStore} (h : (memory store).Follows plain)
    (change : Change) : Agrees plain change (.memory store) := by
  obtain ⟨hentries, hmedium⟩ := h
  cases hfaulty : store.faulty with
  | false =>
    have hask : change.ask store = .ok { store with entries := change.apply store.entries } := by
      cases change with
      | cut count => exact MemoryStore.write_of_faultless hfaulty
      | add entry => exact (MemoryStore.append_of_faultless hfaulty _ _).trans (if_pos rfl)
    have hattempt : plain.attempt change =
        .ok { plain with entries := change.apply plain.entries } := by
      rw [PlainLog.attempt, hmedium, hfaulty]
    exact .inl ⟨_, _, (ask_memory store change).trans (map_eq_ok.mpr ⟨_, hask, rfl⟩), hattempt,
      congrArg change.apply hentries, hmedium⟩
  | true =>
    have hattempt : plain.attempt change = .error plain := by
      rw [PlainLog.attempt, hmedium, hfaulty]
    have hsealed := MemoryStore.sealed hfaulty
    cases hask : change.ask store with
    | error cause =>
      exact .inr ⟨cause, plain, (ask_memory store change).trans (map_eq_error.mpr hask), hattempt,
        hentries, hmedium⟩
    | ok changed =>
      cases change with
      | cut count => exact absurd hask (hsealed.truncate _ changed)
      | add entry => exact absurd hask (hsealed.append _ entry changed)

/-- A change that the disk carries out is one of the list, and the files keep up with it. -/
theorem agrees_of_done {store : DiskStore} {files : Files} {change : Change}
    {fates later : List Fate} (hindexed : store.Indexed) (hfiles : files.Describes store)
    (hfits : change.Fits store.entries)
    (hdone : change.ask store = .ok { store.changed change with fates := later })
    (hattempt : PlainLog.attempt ⟨store.entries, .disk fates files⟩ change =
      .ok ⟨change.apply store.entries, .disk later files.afterChange⟩) :
    Agrees ⟨store.entries, .disk fates files⟩ change (.disk store) :=
  .inl ⟨_, _, (ask_disk store change).trans (map_eq_ok.mpr ⟨_, hdone, rfl⟩), hattempt,
    store.entries_changed change, (hindexed.changed hfits).expecting later, files.afterChange,
    rfl, (hfiles.afterChange hindexed change).expecting later⟩

/-- A store on disk takes a change or fails as the list does, whatever its fates. -/
theorem agrees_disk {store : DiskStore} (h : (disk store).Follows plain) {change : Change}
    (hfits : change.Fits plain.entries) : Agrees plain change (.disk store) := by
  obtain ⟨list, medium⟩ := plain
  obtain ⟨rfl, hindexed, files, hmedium, hfiles⟩ := h
  have hask := hindexed.ask hfits
  -- A change that is asked for uses up the first of the fates, if there is one.
  cases hfates : store.fates with
  | nil =>
    obtain rfl : medium = .disk [] files := hfates ▸ hmedium
    have hsame : { store.changed change with fates := [] } = store.changed change := by
      rw [← hfates]
      cases change <;> rfl
    refine agrees_of_done hindexed hfiles hfits (hask.trans ?_) rfl
    rw [hsame, DiskStore.commit_of_calm hfates]
  | cons fate later =>
    obtain rfl : medium = .disk (fate :: later) files := hfates ▸ hmedium
    cases fate with
    | done =>
      refine agrees_of_done hindexed hfiles hfits (hask.trans ?_) rfl
      rw [DiskStore.commit, hfates]
    | failed cause reached =>
      have hfailed : change.ask store = .error (.writeFailed cause
          (if reached = 0 then store.file else store.partway reached change)) := by
        rw [hask, DiskStore.commit, hfates]
      have hlater : later = store.fates.tail := by rw [hfates, List.tail_cons]
      exact .inr ⟨_, _, (ask_disk store change).trans (map_eq_error.mpr hfailed), rfl, rfl,
        hindexed.afterFailure _, _, congrArg (Medium.disk · _) hlater,
        hfiles.afterFailure hindexed hfits cause reached⟩

theorem Follows.ask (h : store.Follows plain) {change : Change}
    (hfits : change.Fits plain.entries) : Agrees plain change store := by
  cases store with
  | memory store => exact agrees_memory h change
  | disk store => exact agrees_disk h hfits

/-- An entry in another place than the next one is refused, and nothing is asked for. -/
theorem Follows.append_refused (h : store.Follows plain) {index : Index} (entry : Entry)
    (hindex : index ≠ plain.entries.length) :
    ∃ cause, Store.append store index entry = .error cause ∧ store.afterFailure cause = store := by
  rw [← h.entries_eq] at hindex
  cases store with
  | memory store =>
    cases happend : Store.append store index entry with
    | error cause => exact ⟨cause, map_eq_error.mpr happend, rfl⟩
    | ok appended => exact absurd (MemoryStore.append_eq_ok happend).1 hindex
  | disk store => exact ⟨_, map_eq_error.mpr (if_pos hindex), rfl⟩

/-- Opening a store again gives what is known to be found. -/
theorem Follows.reopen (h : store.Follows plain) {found : PlainLog}
    (hfound : plain.reopened = some found) :
    ∃ opened, store.reopen = .ok opened ∧ opened.Follows found := by
  cases store with
  | memory store =>
    obtain rfl : ⟨[], .memory false⟩ = found := by simpa [PlainLog.reopened, h.2] using hfound
    exact ⟨.memory {}, rfl, rfl, rfl⟩
  | disk store =>
    obtain ⟨hentries, hindexed, files, hmedium, hfiles⟩ := h
    rw [PlainLog.reopened, hmedium, ← hentries] at hfound
    obtain ⟨list, hlist, rfl⟩ := Option.map_eq_some_iff.mp hfound
    obtain ⟨image, hparse, rfl⟩ := hfiles.parse hindexed hlist
    have hopen : DiskStore.openDirectory store.directory = _ :=
      bind_eq_ok.mpr ⟨image, hparse, rfl⟩
    have hfaithful := DiskStore.faithful_of_openDirectory hopen
    exact ⟨_, map_eq_ok.mpr ⟨_, hopen, rfl⟩, rfl, hfaithful.toIndexed, .current, rfl,
      hfaithful.log_eq⟩

end Backend

end Consensus
