import Consensus.Proofs.Storage.Reopening

/-! # Torn logs

A log file may lose bytes at its end, as when its last write was cut off. The next opening
finds the records that are still whole, and the store goes on as if no others had ever been
written.
-/

namespace Consensus

/-! ## Whole records -/

namespace Record

variable {entry : Entry} {front entries : List Entry} {count offset room : Nat}

/-- The first entries, for as long as their records go into `room` bytes. -/
def fitting (room : Nat) : List Entry → List Entry
  | [] => []
  | entry :: rest =>
    if size entry ≤ room then entry :: fitting (room - size entry) rest else []

/-- What fits is the longest start of the entries whose records go into the room. -/
theorem isPrefix_fitting_iff (index : Index) : front <+: fitting room entries ↔
    front <+: entries ∧ (encodeAll index front).length ≤ room := by
  induction entries generalizing room index front with
  | nil =>
    rw [fitting, List.prefix_nil]
    refine ⟨?_, fun hfront => hfront.1⟩
    rintro rfl
    exact ⟨rfl, Nat.zero_le room⟩
  | cons entry rest ih =>
    cases front with
    | nil => simp [encodeAll]
    | cons first front =>
      have hlength : (encodeAll index (first :: front)).length =
          size first + (encodeAll (index + 1) front).length := by
        rw [encodeAll, List.length_append, length_encode]
      rw [fitting, hlength, List.cons_prefix_cons]
      split
      next hroom =>
        rw [List.cons_prefix_cons, ih (index + 1)]
        constructor
        · rintro ⟨rfl, hfront, hwithin⟩
          exact ⟨⟨rfl, hfront⟩, by omega⟩
        · rintro ⟨⟨rfl, hfront⟩, hwithin⟩
          exact ⟨rfl, hfront, by omega⟩
      next hroom =>
        constructor
        · intro hfront
          cases List.prefix_nil.mp hfront
        · rintro ⟨⟨rfl, _⟩, hwithin⟩
          omega

theorem fitting_isPrefix (room : Nat) (entries : List Entry) : fitting room entries <+: entries :=
  ((isPrefix_fitting_iff 0).mp (List.prefix_refl _)).1

theorem length_encodeAll_fitting (index : Index) (room : Nat) (entries : List Entry) :
    (encodeAll index (fitting room entries)).length ≤ room :=
  ((isPrefix_fitting_iff index).mp (List.prefix_refl _)).2

/-- Nothing is read from a part of a record, wherever it ends. -/
theorem scan_take_encode (hfits : Fits entry) (hindex : Word.InRange 8 count)
    (hpart : room < size entry) :
    scan count offset ((encode count entry).take room) = .ok ⟨[], [], offset⟩ := by
  rcases Nat.lt_or_ge room headLength with hhead | hhead
  · refine scan_of_short ?_
    rw [List.length_take]
    omega
  · have hpart' : room - headLength < entry.command.length := by
      rw [size] at hpart
      omega
    have htake : (encode count entry).take room =
        head count entry ++ entry.command.take (room - headLength) := by
      rw [encode_eq_append, List.take_append, length_head,
        List.take_of_length_le (length_head count entry ▸ hhead)]
    rw [htake, scan_head_append hfits hindex, if_pos]
    rw [List.length_take]
    omega

/-- Of a row of records that was cut off, the whole ones are read. -/
theorem scan_take_encodeAll (hfits : ∀ entry ∈ entries, Fits entry)
    (hindices : ∀ index : Nat, index < count + entries.length → Word.InRange 8 index) :
    scan count offset ((encodeAll count entries).take room) =
      .ok ⟨fitting room entries, starts offset (fitting room entries),
        offset + (encodeAll count (fitting room entries)).length⟩ := by
  induction entries generalizing count offset room with
  | nil => exact scan_of_short (by simp [encodeAll, headLength])
  | cons first rest ih =>
    have hfirst := hfits first List.mem_cons_self
    have hindex : Word.InRange 8 count := hindices count (by simp)
    rw [encodeAll, fitting]
    split
    next hroom =>
      have htake : (encode count first ++ encodeAll ((count : Int) + 1) rest).take room =
          encode count first ++ (encodeAll ((count + 1 : Nat) : Int) rest).take
            (room - size first) := by
        rw [List.take_append, length_encode,
          List.take_of_length_le (length_encode count first ▸ hroom)]
        rfl
      rw [htake, scan_encode_append hfirst hindex,
        ih (fun entry hentry => hfits entry (List.mem_cons_of_mem _ hentry))
          (fun index hindex => hindices index (by rw [List.length_cons]; omega)),
        starts, encodeAll, List.length_append, length_encode, ← Nat.add_assoc]
      rfl
    next hroom =>
      have hpart := Nat.lt_of_not_le hroom
      rw [List.take_append_of_le_length (by rw [length_encode]; exact Nat.le_of_lt hpart),
        scan_take_encode hfirst hindex hpart]
      rfl

/-- A file that was cut off holds the entries whose records are whole. -/
theorem parse_take_encodeAll (room : Nat) (hfits : ∀ entry ∈ entries, Fits entry)
    (hindices : ∀ index : Nat, index < entries.length → Word.InRange 8 index) :
    parse ((encodeAll 0 entries).take room) =
      .ok ⟨fitting room entries, starts 0 (fitting room entries),
        (encodeAll 0 (fitting room entries)).length⟩ := by
  have hscan : parse ((encodeAll 0 entries).take room) = .ok ⟨_, _, 0 + _⟩ :=
    scan_take_encodeAll hfits fun index hindex => hindices index (by omega)
  rwa [Nat.zero_add] at hscan

end Record

/-! ## Opening what was cut off -/

namespace DiskStore

variable {store before recovered : DiskStore} {memory : MemoryStore} {front entries : List Entry}

/-- The store that holds just these entries. -/
def holding (metadata : Option Bytes) (entries : List Entry) : DiskStore where
  directory := ⟨some (Record.encodeAll 0 entries), metadata⟩
  entries := entries
  offsets := Record.starts 0 entries
  logEnd := (Record.encodeAll 0 entries).length

theorem Faithful.eq_holding (h : store.Faithful) :
    store = holding store.directory.metadata store.entries := by
  obtain ⟨⟨log, metadata⟩, entries, offsets, logEnd, fates⟩ := store
  obtain ⟨⟨hoffsets, hlogEnd, -, -⟩, hlog, hfates⟩ := h
  dsimp only at hlog hoffsets hlogEnd hfates
  rw [hlog, hoffsets, hlogEnd, hfates]
  rfl

/-- A store that holds the first entries of a faithful one is faithful. -/
theorem Faithful.holding (h : store.Faithful) (metadata : Option Bytes)
    (hfront : front <+: store.entries) : (DiskStore.holding metadata front).Faithful :=
  ⟨⟨rfl, rfl, fun entry hentry => h.entries_fit entry (hfront.subset hentry),
    fun index hindex => h.indices_fit index (Nat.lt_of_lt_of_le hindex hfront.length_le)⟩, rfl, rfl⟩

/-- Opening a log that was cut off keeps the entries whose records are whole, and the file
ends behind them. -/
theorem Faithful.openDirectory_chopLog (h : store.Faithful) (cut : Nat) :
    DiskStore.openDirectory (store.directory.chopLog cut) =
      .ok (DiskStore.holding store.directory.metadata (Record.fitting
        ((Record.encodeAll 0 store.entries).length - cut) store.entries)) := by
  generalize hroom : (Record.encodeAll 0 store.entries).length - cut = room
  have hparse := Record.parse_take_encodeAll room h.entries_fit h.indices_fit
  have hfile : ((Record.encodeAll 0 store.entries).take room).take
      (Record.encodeAll 0 (Record.fitting room store.entries)).length =
        Record.encodeAll 0 (Record.fitting room store.entries) := by
    have hwithin := Record.length_encodeAll_fitting 0 room store.entries
    rw [List.take_take, Nat.min_eq_left hwithin]
    exact (List.prefix_iff_eq_take.mp
      (Record.encodeAll_isPrefix 0 (Record.fitting_isPrefix room store.entries))).symm
  simp only [DiskStore.openDirectory, Directory.chopLog, h.log_eq, Option.map_some,
    Option.getD_some, hroom, hparse, hfile, bind, Except.bind, pure, Except.pure]
  rfl

/-! ## Appending again -/

/-- The calls that append entries behind each other, the first one at `index`. -/
def appends (index : Index) : List Entry → List Event
  | [] => []
  | entry :: rest => .call (.append index entry) :: appends (index + 1) rest

/-- Appended one by one, the entries of a faithful store give the store. -/
theorem Faithful.live_appends (h : store.Faithful) (metadata : Option Bytes)
    (front : List Entry) (later : List Event) (hentries : store.entries = front ++ entries) :
    (DiskStore.holding metadata front).live (appends front.length entries ++ later) =
      ((DiskStore.holding metadata store.entries).live later).map fun (final, answers) =>
        (final, List.replicate entries.length (.ok .done) ++ answers) := by
  induction entries generalizing front with
  | nil =>
    rw [hentries, List.append_nil, appends, List.nil_append]
    cases (DiskStore.holding metadata front).live later <;> rfl
  | cons entry rest ih =>
    have hfront : front <+: store.entries := hentries ▸ List.prefix_append _ _
    have hlength : front.length < store.entries.length := by
      rw [hentries, List.length_append, List.length_cons]
      omega
    have hfits : Record.Fits entry := h.entries_fit entry (by simp [hentries])
    obtain ⟨appended, happend, hfaithful, hheld⟩ :=
      (h.holding metadata hfront).append hfits (h.indices_fit front.length hlength)
    have hmetadata : appended.directory.metadata = metadata := (append_eq_ok happend).2.2.2
    have happended : appended = DiskStore.holding metadata (front ++ [entry]) := by
      rw [hfaithful.eq_holding, hmetadata, hheld]
      rfl
    -- What a faithful store holds says everything about it, so the two stores are the same.
    have hserve : StoreCall.serve (DiskStore.holding metadata front)
        (.append front.length entry) = (appended, .ok .done) := by
      have hstore : Store.append (DiskStore.holding metadata front) front.length entry =
          .ok appended := happend
      rw [StoreCall.serve, hstore]
      rfl
    have hnext := ih (front ++ [entry]) (by simp [hentries])
    rw [List.length_append, List.length_singleton, ← happended] at hnext
    have hcast : (front.length : Index) + 1 = ((front.length + 1 : Nat) : Index) := rfl
    rw [appends, List.cons_append, live, hserve, hcast, hnext]
    cases (DiskStore.holding metadata store.entries).live later <;> rfl

/-! ## Going on -/

/-- What opening makes of a store whose log file was cut down to `room` bytes, when a store in
memory mirrors it. -/
structure Salvaged (before recovered : DiskStore) (memory : MemoryStore) (room : Nat) :
    Prop where
  /-- The entries are the longest start of the former ones whose records are whole. -/
  isPrefix_iff (front : List Entry) : front <+: recovered.entries ↔
    front <+: before.entries ∧ (Record.encodeAll 0 front).length ≤ room
  /-- The log file ends behind their records. -/
  log_eq : recovered.directory.log = some (Record.encodeAll 0 recovered.entries)
  /-- Whatever happens next goes as in a new log to which only these entries were appended. -/
  unnoticed (later : List Event) :
    ∃ rebuilt, DiskStore.openDirectory { before.directory with log := none } = .ok rebuilt ∧
      rebuilt.live (appends 0 recovered.entries ++ later) =
        (recovered.live later).map fun (final, answers) =>
          (final, List.replicate recovered.entries.length (.ok .done) ++ answers)
  /-- The next calls and reopenings succeed, with the answers of a store in memory that holds
  only these entries. -/
  mirrored (later : List Event) (hfits : ∀ call ∈ calls later, call.Fits) :
    ∃ final, recovered.live later = .ok (final, (StoreCall.serveAll
        { memory with entries := recovered.entries } (calls later)).2) ∧
      final.Mirrors (StoreCall.serveAll
        { memory with entries := recovered.entries } (calls later)).1

theorem Mirrors.salvaged (h : before.Mirrors memory) (cut : Nat) :
    ∃ recovered, DiskStore.openDirectory (before.directory.chopLog cut) = .ok recovered ∧
      Salvaged before recovered memory ((Record.encodeAll 0 before.entries).length - cut) := by
  refine ⟨_, h.faithful.openDirectory_chopLog cut, ?_⟩
  generalize (Record.encodeAll 0 before.entries).length - cut = room
  have hfaithful := h.faithful.holding before.directory.metadata
    (Record.fitting_isPrefix room before.entries)
  refine ⟨fun front => Record.isPrefix_fitting_iff 0, rfl, fun later => ?_, fun later hfits => ?_⟩
  · exact ⟨_, openDirectory_of_no_log before.directory.metadata,
      hfaithful.live_appends before.directory.metadata [] later rfl⟩
  · have hmirrors : Mirrors (DiskStore.holding before.directory.metadata
        (Record.fitting room before.entries))
        { memory with entries := Record.fitting room before.entries } :=
      ⟨hfaithful, rfl, h.load_eq, h.faultless⟩
    exact hmirrors.live hfits

/-- A store that starts in a fresh directory may be reopened at any points. Whatever is then cut
from the end of its log file, the next opening succeeds, keeps every entry whose record is
whole and goes on as if there had been no others. -/
theorem torn_tail_dropped {events : List Event} (hfits : ∀ call ∈ calls events, call.Fits)
    (cut : Nat) :
    ∃ opened before recovered, openDirectory {} = .ok opened ∧
      opened.live events =
        .ok (before, (StoreCall.serveAll ({} : MemoryStore) (calls events)).2) ∧
      before.Mirrors (StoreCall.serveAll ({} : MemoryStore) (calls events)).1 ∧
      openDirectory (before.directory.chopLog cut) = .ok recovered ∧
      Salvaged before recovered (StoreCall.serveAll ({} : MemoryStore) (calls events)).1
        ((Record.encodeAll 0 before.entries).length - cut) := by
  obtain ⟨before, hlive, hmirrors⟩ := mirrors_fresh.live hfits
  obtain ⟨recovered, hopen, hsalvaged⟩ := hmirrors.salvaged cut
  exact ⟨_, before, recovered, openDirectory_fresh, hlive, hmirrors, hopen, hsalvaged⟩

/-- The second record of the regrown log is cut off in its head, and the first one is left. -/
theorem torn_tail_dropped_regrowth :
    (∀ call ∈ calls regrowth, call.Fits) ∧
      ∃ before recovered : DiskStore, before.entries = [⟨1, [7, 8]⟩, ⟨3, [9]⟩] ∧
        openDirectory (before.directory.chopLog 3) = .ok recovered ∧
        recovered.entries = [⟨1, [7, 8]⟩] := by
  have hfits : ∀ call ∈ calls regrowth, call.Fits := by decide
  refine ⟨hfits, ?_⟩
  obtain ⟨_, before, recovered, -, -, hmirrors, hopen, hsalvaged⟩ := torn_tail_dropped hfits 3
  have hbefore : before.entries = [⟨1, [7, 8]⟩, ⟨3, [9]⟩] := hmirrors.entries_eq
  refine ⟨before, recovered, hbefore, hopen, ?_⟩
  have hfirst : [⟨1, [7, 8]⟩] <+: recovered.entries := by
    rw [hsalvaged.isPrefix_iff, hbefore]
    decide
  obtain ⟨hkept, hlength⟩ := (hsalvaged.isPrefix_iff recovered.entries).mp (List.prefix_refl _)
  rw [hbefore] at hkept hlength
  have hshort : ¬ recovered.entries.length = 2 := by
    intro htwo
    rw [hkept.eq_of_length htwo] at hlength
    exact absurd hlength (by decide)
  have hone : recovered.entries.length = 1 := by
    have hle := hkept.length_le
    have hge := hfirst.length_le
    simp only [List.length_cons, List.length_nil] at hle hge
    omega
  exact (hfirst.eq_of_length hone.symm).symm

end DiskStore

end Consensus
