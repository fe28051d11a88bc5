import Consensus.Proofs.Protocol.View

/-! # Agreement of logs

How far two logs agree is the length of their longest common prefix. Logs that match
agree up to every entry that they hold with one term, so a key that a leader quotes from
its log is held by a matching log exactly as far as the two agree.
-/

namespace Consensus.Entries

variable {log other : Entries}

/-! ## Common prefixes -/

/-- The longest prefix that two logs have in common. -/
def common : Entries → Entries → Entries
  | one :: front, another :: rest => if one = another then one :: common front rest else []
  | _, _ => []

theorem common_isPrefix_left (log other : Entries) : log.common other <+: log := by
  induction log generalizing other with
  | nil => simp [common]
  | cons one front ih =>
    cases other with
    | nil => simp [common]
    | cons another rest =>
      unfold common
      split
      next => exact List.cons_prefix_cons.mpr ⟨rfl, ih rest⟩
      next => exact List.nil_prefix

theorem common_isPrefix_right (log other : Entries) : log.common other <+: other := by
  induction log generalizing other with
  | nil => simp [common]
  | cons one front ih =>
    cases other with
    | nil => simp [common]
    | cons another rest =>
      unfold common
      split
      next heq => exact List.cons_prefix_cons.mpr ⟨heq, ih rest⟩
      next => exact List.nil_prefix

/-- No common prefix is longer. -/
theorem isPrefix_common {front : Entries} (hlog : front <+: log) (hother : front <+: other) :
    front <+: log.common other := by
  induction front generalizing log other with
  | nil => exact List.nil_prefix
  | cons first front ih =>
    obtain ⟨rest, rfl⟩ := hlog
    obtain ⟨also, rfl⟩ := hother
    have hrest := ih (List.prefix_append front rest) (List.prefix_append front also)
    simpa [common] using hrest

theorem common_eq_self (h : log <+: other) : log.common other = log :=
  (common_isPrefix_left log other).eq_of_length_le (isPrefix_common List.prefix_rfl h).length_le

/-- Two logs read alike as far as they agree. -/
theorem read?_eq_of_lt_common {index : Index} (h : index < (log.common other).length) :
    log.read? index = other.read? index :=
  (read?_eq_of_isPrefix (common_isPrefix_left log other) h).trans
    (read?_eq_of_isPrefix (common_isPrefix_right log other) h).symm

/-- Both logs hold the same entry at every index up to one. -/
def AgreeThrough (log other : Entries) (last : Index) : Prop :=
  ∀ index, 0 ≤ index → index ≤ last →
    ∃ entry, log.read? index = some entry ∧ other.read? index = some entry

theorem agreeThrough_iff {last : Index} :
    log.AgreeThrough other last ↔ last < (log.common other).length := by
  constructor
  · intro h
    -- The entries up to the index are a common prefix.
    have hsame : ∀ place < (last + 1).toNat, ∃ entry, log[place]? = some entry ∧
        other[place]? = some entry := by
      intro place hplace
      obtain ⟨entry, hlog, hother⟩ := h place (by lia) (by lia)
      rw [read?_natCast] at hlog hother
      exact ⟨entry, hlog, hother⟩
    have hlength : (last + 1).toNat ≤ log.length := by
      by_contra hshort
      obtain ⟨_, hget, _⟩ := hsame log.length (Nat.not_le.mp hshort)
      simp at hget
    have hbegins : log.take (last + 1).toNat <+: other := by
      rw [List.prefix_iff_getElem?]
      intro place hplace
      rw [List.length_take] at hplace
      obtain ⟨entry, hlog, hother⟩ := hsame place (by lia)
      rw [hother, List.getElem_take]
      exact congrArg some (List.getElem?_eq_some_iff.mp hlog).2.symm
    have hcommon := (isPrefix_common (List.take_prefix _ log) hbegins).length_le
    rw [List.length_take] at hcommon
    lia
  · intro h index hnonneg hle
    have hlt : index.toNat < (log.common other).length := by lia
    have hread : (log.common other).read? index = some (log.common other)[index.toNat] :=
      read?_eq_some_iff.mpr ⟨hnonneg, List.getElem?_eq_getElem hlt⟩
    exact ⟨_, read?_of_isPrefix (common_isPrefix_left log other) hread,
      read?_of_isPrefix (common_isPrefix_right log other) hread⟩

/-! ## Matching -/

/-- The logs are equal up to every entry that both hold with one term. -/
def Matches (log other : Entries) : Prop :=
  ∀ index entry also, log.read? index = some entry → other.read? index = some also →
    entry.term = also.term → ∀ place ≤ index, log.read? place = other.read? place

/-- Matching logs agree up to any index at which their entries have one term. -/
theorem Matches.lt_common (h : log.Matches other) {index : Index} {entry also : Entry}
    (hlog : log.read? index = some entry) (hother : other.read? index = some also)
    (hterm : entry.term = also.term) : index < (log.common other).length := by
  refine agreeThrough_iff.mp fun place hnonneg hle => ?_
  have hlt := (bounds_of_read? hlog).2
  have hplace : place.toNat < log.length := by lia
  have hget : log.read? place = some log[place.toNat] :=
    read?_eq_some_iff.mpr ⟨hnonneg, List.getElem?_eq_getElem hplace⟩
  exact ⟨_, hget, (h index entry also hlog hother hterm place hle).symm.trans hget⟩

theorem matches_of_isPrefix (h : log <+: other) : log.Matches other := by
  intro index entry _ hread _ _ place hle
  exact (read?_eq_of_isPrefix h (Int.lt_of_le_of_lt hle (bounds_of_read? hread).2)).symm

theorem Matches.take (h : log.Matches other) (count : Nat) :
    Matches (log.take count) other := by
  intro index entry also hread hother hterm place hle
  have hfront : log.take count <+: log := List.take_prefix _ _
  have hplace := Int.lt_of_le_of_lt hle (bounds_of_read? hread).2
  rw [← read?_eq_of_isPrefix hfront hplace]
  exact h index entry also (read?_of_isPrefix hfront hread) hother hterm place hle

/-- Matching can be tested entry by entry. -/
theorem matches_iff : log.Matches other ↔
    ∀ place < log.length, ∀ entry ∈ log[place]?, ∀ also ∈ other[place]?,
      entry.term = also.term → log.take (place + 1) = other.take (place + 1) := by
  constructor
  · intro h place _ entry hentry also halso hterm
    rw [Option.mem_def, ← read?_natCast] at hentry halso
    have hlt : place < (log.common other).length := by
      exact_mod_cast h.lt_common hentry halso hterm
    have hfront (longer : Entries) (hbegins : log.common other <+: longer) :
        longer.take (place + 1) = (log.common other).take (place + 1) := by
      obtain ⟨rest, rfl⟩ := hbegins
      exact List.take_append_of_le_length hlt
    rw [hfront log (common_isPrefix_left _ _), hfront other (common_isPrefix_right _ _)]
  · intro h index entry also hlog hother hterm place hle
    obtain ⟨hnonneg, hentry⟩ := read?_eq_some_iff.mp hlog
    obtain ⟨_, halso⟩ := read?_eq_some_iff.mp hother
    have hbound := (List.getElem?_eq_some_iff.mp hentry).1
    have htake := h index.toNat hbound entry hentry also halso hterm
    have hread (whole : Entries) : whole.read? place =
        read? (whole.take (index.toNat + 1)) place := by
      unfold read?
      split
      next => rfl
      next => rw [List.getElem?_take_of_lt (by lia)]
    rw [hread log, hread other, htake]

instance (log other : Entries) : Decidable (log.Matches other) :=
  decidable_of_iff _ matches_iff.symm

/-- What is dropped behind a common prefix does not shorten it. -/
theorem common_isPrefix_take {count : Nat} (h : (log.common other).length ≤ count) :
    log.common other <+: common (log.take count) other := by
  refine isPrefix_common ?_ (common_isPrefix_right log other)
  refine List.prefix_of_prefix_length_le (common_isPrefix_left log other)
    (List.take_prefix _ _) ?_
  rw [List.length_take]
  exact Nat.le_min.mpr ⟨h, (common_isPrefix_left log other).length_le⟩

/-- The next entry of a longer log goes behind a shorter one. -/
theorem concat_isPrefix_of_read? {front : Entries} (hbegins : front <+: log) {entry : Entry}
    (hread : log.read? front.length = some entry) : front ++ [entry] <+: log := by
  obtain ⟨same, hsame, hlength⟩ := exists_front_of_read? hread
  have hfront : front <+: same :=
    isPrefix_of_isPrefix hbegins ((List.prefix_append same [entry]).trans hsame) (by lia)
  rwa [hfront.eq_of_length (by lia)]

/-! ## Quotations -/

/-- The key is the log's own at its index, the null key in front of the first entry. -/
def Names (log : Entries) (key : LogKey) : Prop := log.termAt? key.index = some key.term

instance (log : Entries) (key : LogKey) : Decidable (log.Names key) :=
  inferInstanceAs (Decidable (log.termAt? key.index = some key.term))

/-- The request names a key of the log and carries the entry behind it, or none. -/
structure Quotes (log : Entries) (request : AppendRequest) : Prop where
  names_prev : log.Names request.prevLogEntry
  entry_eq : ∀ entry, request.entry = some entry →
    log.entryAt? (request.prevLogEntry.index + 1) = some entry

/-- What shows a log quotes it. -/
theorem Shows.quotes {request : AppendRequest} (h : log.Shows request) : log.Quotes request :=
  ⟨h.prev_termAt, fun _ hentry => h.entry_eq.symm.trans hentry⟩

theorem Quotes.read?_entry {request : AppendRequest} (h : log.Quotes request)
    {entry : PlacedEntry} (hentry : request.entry = some entry) :
    entry.index = request.prevLogEntry.index + 1 ∧
      log.read? entry.index = some ⟨entry.term, entry.command⟩ := by
  obtain ⟨stored, hread, rfl⟩ := Option.map_eq_some_iff.mp (h.entry_eq entry hentry)
  exact ⟨rfl, hread⟩

theorem Quotes.names_entry {request : AppendRequest} (h : log.Quotes request)
    {entry : PlacedEntry} (hentry : request.entry = some entry) : log.Names entry.key :=
  termAt?_of_read? (h.read?_entry hentry).2

/-- Two matching logs agree up to a key that both have. -/
theorem Holds.lt_common {key : LogKey} (h : log.Holds key) (hmatches : log.Matches other)
    (hnames : other.Names key) : key.index < (log.common other).length := by
  rcases h with hnull | ⟨entry, hread, hterm⟩
  · have hfirst : key.index = -1 := hnull
    lia
  · have hnonneg := (bounds_of_read? hread).1
    rcases termAt?_eq_some hnames with hnull | ⟨also, hother, halso⟩
    · have hfirst : key.index = -1 := hnull
      lia
    · exact hmatches.lt_common hread hother (hterm.trans halso.symm)

theorem holds_of_lt_common {key : LogKey} (hnames : other.Names key)
    (h : key.index < (log.common other).length) : log.Holds key := by
  rcases termAt?_eq_some hnames with hnull | ⟨also, hother, halso⟩
  · exact .inl hnull
  · exact .inr ⟨also, (read?_eq_of_lt_common h).trans hother, halso⟩

theorem Conflicts.not_holds {key : LogKey} (h : log.Conflicts key) : ¬ log.Holds key := by
  obtain ⟨entry, hread, hterm⟩ := h
  rintro (hnull | ⟨also, hother, halso⟩)
  · have hnonneg := (bounds_of_read? hread).1
    have hfirst : key.index = -1 := hnull
    lia
  · obtain rfl : entry = also := Option.some.inj (hread.symm.trans hother)
    exact hterm halso

/-- A log that does not hold a key agrees with no log that names it, from there on. -/
theorem common_le_of_not_holds {key : LogKey} (hnames : other.Names key)
    (h : ¬ log.Holds key) : ((log.common other).length : Int) ≤ key.index :=
  Int.not_lt.mp fun hlt => h (holds_of_lt_common hnames hlt)

end Consensus.Entries
