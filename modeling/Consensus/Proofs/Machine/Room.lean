import Consensus.Machine.Arithmetic
import Consensus.Proofs.Log.Coherent
import Consensus.Proofs.Protocol.Range
import Consensus.Proofs.Replication.Cursors
import Consensus.Server.Leading

/-! # Room for sums

A sum of words is right while it fits. The indices that a server forms are those next to ones in
its log and in its books, so they fit as long as its log is shorter than the highest index. Sums
of integers need no room at all.
-/

namespace Consensus

/-! ## Words -/

namespace Arithmetic

/-- Sums of words are right where they fit, and no term is given where it does not. -/
structure OnWords (arithmetic : Arithmetic) : Prop where
  next_eq : ∀ {index : Index}, Word.InRange 8 index → Word.InRange 8 (index + 1) →
    arithmetic.next index = some (index + 1)
  prev_eq : ∀ {index : Index}, Word.InRange 8 index → Word.InRange 8 (index - 1) →
    arithmetic.prev index = some (index - 1)
  nextTerm_eq : ∀ {term : Term}, Word.InRange 4 term →
    arithmetic.nextTerm term = checked? 4 (term + 1)

theorem onWords_checked : checked.OnWords :=
  ⟨fun _ hsum => if_pos hsum, fun _ hsum => if_pos hsum, fun _ => rfl⟩

theorem onWords_wrapping : wrapping.OnWords :=
  ⟨fun _ hsum => congrArg some (Word.decode_encode hsum),
    fun _ hsum => congrArg some (Word.decode_encode hsum), fun _ => rfl⟩

/-- Among terms of four bytes only the last one has no next one. -/
theorem exact_nextTerm {term : Term} (hterm : Word.InRange 4 term) :
    exact.nextTerm term = checked? 4 (term + 1) := by
  have hlast : maxTerm ≤ term ↔ ¬ Word.InRange 4 (term + 1) := by
    simp only [maxTerm, Word.InRange, Word.bound] at hterm ⊢
    lia
  by_cases hfits : Word.InRange 4 (term + 1)
  · exact (if_neg fun hle => hlast.mp hle hfits).trans (if_pos hfits).symm
  · exact (if_pos (hlast.mpr hfits)).trans (if_neg hfits).symm

theorem OnWords.next_index {arithmetic : Arithmetic} (h : arithmetic.OnWords) {index : Index}
    (hlow : nullIndex ≤ index) (hhigh : index < Cursor.maxIndex) :
    arithmetic.next index = some (index + 1) :=
  h.next_eq (Word.inRange_index hlow (Int.le_of_lt hhigh))
    (Word.inRange_index (Int.le_trans hlow (Int.le_add_one (Int.le_refl _)))
      (Int.add_one_le_of_lt hhigh))

theorem OnWords.prev_index {arithmetic : Arithmetic} (h : arithmetic.OnWords) {index : Index}
    (hlow : 0 ≤ index) (hhigh : index ≤ Cursor.maxIndex) :
    arithmetic.prev index = some (index - 1) := by
  have hnull : nullIndex ≤ index - 1 := by
    simp only [nullIndex]
    lia
  exact h.prev_eq (Word.inRange_index (Int.le_trans hnull (by lia)) hhigh)
    (Word.inRange_index hnull (by lia))

end Arithmetic

/-- The indices on either side of those of the cursor fit into a word. -/
structure Cursor.Fits (cursor : Cursor) : Prop where
  next_nonneg : 0 ≤ cursor.nextIndex
  next_le : cursor.nextIndex ≤ Cursor.maxIndex
  matched_ge : nullIndex ≤ cursor.matchIndex
  matched_lt : cursor.matchIndex < Cursor.maxIndex

variable {σ : Type} [Store σ]

/-- So many entries can be added before an index next to one of the server's does not fit. -/
structure Server.Spares [LawfulStore σ] (spare : Nat) (server : Server σ) : Prop where
  coherent : server.log.Coherent
  size_le : server.log.size + spare ≤ Cursor.maxIndex
  commit_lt : server.commitIndex < Cursor.maxIndex
  applied_ge : nullIndex ≤ server.progress.lastApplied
  applied_lt : server.progress.lastApplied < Cursor.maxIndex
  cursors : ∀ cursor ∈ server.progress.cursors, cursor.Fits

/-- The server can form the sums it needs until so many entries are added to its log: sums of
integers in any case, and sums of words while there is room for them. -/
inductive Room (arithmetic : Arithmetic) (spare : Nat) (server : Server σ) : Prop
  | exact (h : arithmetic = .exact)
  | words [LawfulStore σ] (hwords : arithmetic.OnWords) (h : server.Spares spare)

/-- The server can go up to this index and form the next one. -/
def Arithmetic.Reaches (arithmetic : Arithmetic) (index : Index) : Prop :=
  arithmetic = .exact ∨ index < Cursor.maxIndex

theorem Arithmetic.Reaches.mono {arithmetic : Arithmetic} {high low : Index}
    (h : arithmetic.Reaches high) (hle : low ≤ high) : arithmetic.Reaches low :=
  h.imp_right (Int.lt_of_le_of_lt hle)

namespace Room

variable {arithmetic : Arithmetic} {spare : Nat} {server later : Server σ}

/-! ## Sums -/

theorem prev_size (h : Room arithmetic spare server) :
    arithmetic.prev server.log.size = some server.log.lastIndex := by
  cases h with
  | exact h => rw [h]; rfl
  | words hwords h =>
    have hsize := h.size_le
    exact hwords.prev_index (Int.natCast_nonneg _) (by lia)

theorem next_applied (h : Room arithmetic spare server) :
    arithmetic.next server.progress.lastApplied = some (server.progress.lastApplied + 1) := by
  cases h with
  | exact h => rw [h]; rfl
  | words hwords h => exact hwords.next_index h.applied_ge h.applied_lt

theorem bounds_of_termAt? {log : Log σ} {index : Index} {term : Term}
    (hterm : log.termAt? index = some term) : nullIndex ≤ index ∧ index < log.size := by
  change nullIndex ≤ index ∧ index < log.entries.length
  rw [Log.termAt?_eq] at hterm
  rcases Entries.termAt?_eq_some hterm with hnull | ⟨entry, hread, _⟩
  · simp only [nullIndex] at hnull ⊢
    lia
  · have hbounds := Entries.bounds_of_read? hread
    simp only [nullIndex]
    lia

/-- The index behind one at which the log has a term can be formed. -/
theorem next_of_termAt? (h : Room arithmetic spare server) {index : Index} {term : Term}
    (hterm : server.log.termAt? index = some term) :
    arithmetic.next index = some (index + 1) := by
  cases h with
  | exact h => rw [h]; rfl
  | words hwords h =>
    obtain ⟨hlow, hhigh⟩ := bounds_of_termAt? hterm
    have hsize := h.size_le
    exact hwords.next_index hlow (by lia)

theorem reaches_of_termAt? (h : Room arithmetic spare server) {index : Index} {term : Term}
    (hterm : server.log.termAt? index = some term) : arithmetic.Reaches index := by
  cases h with
  | exact h => exact .inl h
  | words hwords h =>
    obtain ⟨_, hhigh⟩ := bounds_of_termAt? hterm
    have hsize := h.size_le
    exact .inr (by lia)

/-- As long as an entry can be added, the index of one can be reached. -/
theorem reaches_next (h : Room arithmetic (spare + 1) server) {index : Index} {term : Term}
    (hterm : server.log.termAt? index = some term) : arithmetic.Reaches (index + 1) := by
  cases h with
  | exact h => exact .inl h
  | words hwords h =>
    obtain ⟨_, hhigh⟩ := bounds_of_termAt? hterm
    have hsize := h.size_le
    exact .inr (by lia)

theorem prev_clamped (h : Room arithmetic spare server) {peer : ServerId} {cursor : Cursor}
    (hcursor : server.progress.cursor? peer = some cursor) :
    arithmetic.prev (min cursor.nextIndex server.log.size) =
      some (min cursor.nextIndex server.log.size - 1) := by
  cases h with
  | exact h => rw [h]; rfl
  | words hwords h =>
    have hfits := h.cursors cursor (Cursors.mem_of_find? hcursor).1
    have hnonneg : 0 ≤ server.log.size := Int.natCast_nonneg _
    exact hwords.prev_index (Int.le_min.mpr ⟨hfits.next_nonneg, hnonneg⟩)
      (Int.le_trans (Int.min_le_left _ _) hfits.next_le)

theorem advanceBy (h : Room arithmetic spare server) {peer : ServerId} {cursor : Cursor}
    (hcursor : server.progress.cursor? peer = some cursor) (matched : Index) :
    cursor.advanceBy arithmetic (min matched server.log.lastIndex) =
      some (cursor.advance (min matched server.log.lastIndex)) := by
  unfold Cursor.advanceBy Cursor.advance
  split
  next hhigher =>
    have hnext : arithmetic.next (min matched server.log.lastIndex) =
        some (min matched server.log.lastIndex + 1) := by
      cases h with
      | exact h => rw [h]; rfl
      | words hwords h =>
        have hfits := h.cursors cursor (Cursors.mem_of_find? hcursor).1
        have hsize : server.log.lastIndex + 1 + spare ≤ Cursor.maxIndex := by
          have := h.size_le
          unfold Log.lastIndex
          lia
        exact hwords.next_index (Int.le_trans hfits.matched_ge (Int.le_of_lt hhigher))
          (Int.lt_of_le_of_lt (Int.min_le_right _ _) (by lia))
    rw [hnext]
    rfl
  next => rfl

theorem backOffBy (h : Room arithmetic spare server) {cursor : Cursor}
    (hcursor : cursor ∈ server.progress.cursors) (hint : Index) :
    cursor.backOffBy arithmetic hint = some (cursor.backOff hint) := by
  unfold Cursor.backOffBy Cursor.backOff
  cases h with
  | exact h => rw [h]; rfl
  | words hwords h =>
    have hfits := h.cursors cursor hcursor
    rw [hwords.next_index hfits.matched_ge hfits.matched_lt,
      hwords.prev_index hfits.next_nonneg hfits.next_le]
    rfl

/-- Every cursor of a follower that refused can step back. -/
theorem updateBy (h : Room arithmetic spare server) (peer : ServerId) (hint : Index) :
    server.progress.cursors.updateBy peer (·.backOffBy arithmetic hint) =
      some (server.progress.cursors.update peer (·.backOff hint)) := by
  unfold Cursors.updateBy Cursors.update
  have hall : ∀ cursors : Cursors, cursors ⊆ server.progress.cursors →
      (cursors.mapM fun cursor =>
        if cursor.serverId = peer then cursor.backOffBy arithmetic hint else some cursor) =
      some (cursors.map fun cursor =>
        if cursor.serverId = peer then cursor.backOff hint else cursor) := by
    intro cursors hsubset
    induction cursors with
    | nil => rfl
    | cons cursor rest ih =>
      obtain ⟨hcursor, hrest⟩ := List.cons_subset.mp hsubset
      rw [List.mapM_cons, ih hrest, h.backOffBy hcursor]
      by_cases hsame : cursor.serverId = peer <;> simp [hsame]
  exact hall _ (List.Subset.refl _)

/-! ## Changes that keep it -/

theorem of_same (h : Room arithmetic spare server) (hlog : later.log = server.log)
    (hcommit : later.commitIndex = server.commitIndex)
    (happlied : later.progress.lastApplied = server.progress.lastApplied)
    (hcursors : later.progress.cursors = server.progress.cursors) :
    Room arithmetic spare later := by
  cases h with
  | exact h => exact .exact h
  | words hwords h =>
    exact .words hwords ⟨hlog ▸ h.coherent, hlog ▸ h.size_le, hcommit ▸ h.commit_lt,
      happlied ▸ h.applied_ge, happlied ▸ h.applied_lt, hcursors ▸ h.cursors⟩

theorem fewer (h : Room arithmetic (spare + 1) server) : Room arithmetic spare server := by
  cases h with
  | exact h => exact .exact h
  | words hwords h =>
    have hsize := h.size_le
    exact .words hwords ⟨h.coherent, by lia, h.commit_lt, h.applied_ge, h.applied_lt, h.cursors⟩

/-- Another log that is no longer can take the place of the server's own. -/
theorem with_log (h : Room arithmetic spare server) {log : Log σ} {left : Nat}
    (hlog : ∀ [LawfulStore σ], server.log.Coherent →
      log.Coherent ∧ log.size + left ≤ server.log.size + spare) :
    Room arithmetic left { server with durable := { server.durable with log } } := by
  cases h with
  | exact h => exact .exact h
  | words hwords h =>
    obtain ⟨hcoherent, hsize⟩ := hlog h.coherent
    exact .words hwords ⟨hcoherent, Int.le_trans hsize h.size_le, h.commit_lt, h.applied_ge,
      h.applied_lt, h.cursors⟩

/-- A term and vote are stored beside the same entries. -/
theorem record (h : Room arithmetic spare server) {term : Term} {votedFor : Option ServerId}
    {durable : Durable σ} (hok : server.durable.record term votedFor = .ok durable) :
    Room arithmetic spare { server with durable } := by
  cases h with
  | exact h => exact .exact h
  | words hwords h =>
    obtain ⟨store, hsave, rfl⟩ := map_eq_ok.mp hok
    obtain ⟨hvalid, hentries, _⟩ := LawfulStore.save_ok h.coherent.valid hsave
    have hsize : Store.size store = server.log.size := by
      rw [Store.size, hentries]
      rfl
    refine .words hwords ⟨⟨hvalid, ?_⟩, ?_, h.commit_lt, h.applied_ge, h.applied_lt, h.cursors⟩
    · exact h.coherent.lastTerm_eq.trans (congrArg Entries.lastTerm hentries.symm)
    · change Store.size store + spare ≤ Cursor.maxIndex
      rw [hsize]
      exact h.size_le

theorem truncate (h : Room arithmetic spare server) {index : Index} (hnonneg : 0 ≤ index)
    {log : Log σ} (hok : server.log.truncate index = .ok log) :
    Room arithmetic spare { server with durable := { server.durable with log } } := by
  refine h.with_log fun hcoherent => ?_
  obtain ⟨hshorter, hentries, _⟩ := hcoherent.truncate_ok hnonneg hok
  have hlength : log.entries.length ≤ server.log.entries.length := by
    rw [hentries]
    exact List.length_take_le' _ _
  exact ⟨hshorter, Int.add_le_add_right (Int.ofNat_le.mpr hlength) _⟩

/-- An entry that is added takes up the room of one. -/
theorem extend (h : Room arithmetic (spare + 1) server) {index : Index} {entry : Entry}
    {log : Log σ} (hok : server.log.extend index entry = .ok log) :
    Room arithmetic spare { server with durable := { server.durable with log } } := by
  refine h.with_log fun hcoherent => ?_
  obtain ⟨hextended, _, hentries, _⟩ := hcoherent.extend_ok hok
  have hlength : log.entries.length = server.log.entries.length + 1 := by simp [hentries]
  have hsize : log.size = server.log.size + 1 := congrArg Int.ofNat hlength
  exact ⟨hextended, by rw [hsize]; lia⟩

theorem raiseCommit (h : Room arithmetic spare server) {index : Index}
    (hreaches : arithmetic.Reaches index) :
    Room arithmetic spare { server with progress := server.progress.raiseCommit index } := by
  unfold Progress.raiseCommit
  split
  next =>
    cases h with
    | exact h => exact .exact h
    | words hwords h =>
      rcases hreaches with hexact | hlt
      · exact .exact hexact
      · exact .words hwords
          ⟨h.coherent, h.size_le, hlt, h.applied_ge, h.applied_lt, h.cursors⟩
  next => exact h

/-- What is applied next is committed. -/
theorem markApplied (h : Room arithmetic spare server)
    (hdue : server.progress.lastApplied < server.commitIndex) (delivered : Deliveries) :
    Room arithmetic spare { server with
      delivered, progress := server.progress.markApplied (server.progress.lastApplied + 1) } := by
  cases h with
  | exact h => exact .exact h
  | words hwords h =>
    refine .words hwords ⟨h.coherent, h.size_le, h.commit_lt, ?_, ?_, h.cursors⟩
    · exact Int.le_trans h.applied_ge (Int.le_add_one (Int.le_refl _))
    · exact Int.lt_of_le_of_lt (Int.add_one_le_of_lt hdue) h.commit_lt

/-! ## Cursors -/

/-- Other cursors can take the place of the server's own if they fit. -/
theorem with_cursors (h : Room arithmetic spare server) {cursors : Cursors}
    (hcursors : ∀ [LawfulStore σ], server.Spares spare → ∀ cursor ∈ cursors, cursor.Fits) :
    Room arithmetic spare { server with progress := { server.progress with cursors } } := by
  cases h with
  | exact h => exact .exact h
  | words hwords h =>
    exact .words hwords
      ⟨h.coherent, h.size_le, h.commit_lt, h.applied_ge, h.applied_lt, hcursors h⟩

theorem updateCursor (h : Room arithmetic spare server) {peer : ServerId}
    {change : Cursor → Cursor}
    (hchange : ∀ [LawfulStore σ], server.Spares spare → ∀ cursor ∈ server.progress.cursors,
      (change cursor).Fits) :
    Room arithmetic spare
      { server with progress := server.progress.updateCursor peer change } := by
  refine h.with_cursors fun hspares cursor hcursor => ?_
  rcases Cursors.mem_update hcursor with hold | ⟨old, hold, _, rfl⟩
  · exact hspares.cursors cursor hold
  · exact hchange hspares old hold

theorem clear (h : Room arithmetic spare server) (role : Role) (timer : Countdown)
    (tally : Tally) : Room arithmetic spare
      { server with role, timer, progress := { server.progress.clearCursors with tally } } :=
  (h.with_cursors fun _ _ hcursor => absurd hcursor List.not_mem_nil).of_same rfl rfl rfl rfl

/-- Fresh cursors point behind the last entry. -/
theorem reset (h : Room arithmetic spare server) (servers : List ServerId) :
    Room arithmetic spare
      { server with progress := server.progress.resetCursors servers server.log.size } := by
  refine h.with_cursors fun hspares cursor hcursor => ?_
  have hsize := hspares.size_le
  have hnonneg : 0 ≤ server.log.size := Int.natCast_nonneg _
  obtain ⟨peer, _, rfl⟩ := Cursors.exists_fresh_of_mem_reset cursor hcursor
  have hnull : nullIndex < Cursor.maxIndex := by decide
  exact ⟨hnonneg, by simp only [Cursor.fresh]; lia, Int.le_refl _, hnull⟩

theorem clamp (h : Room arithmetic spare server) {peer : ServerId} {cursor : Cursor}
    (hcursor : server.progress.cursor? peer = some cursor) :
    Room arithmetic spare { server with
      progress := server.progress.updateCursor peer
        ({ · with nextIndex := min cursor.nextIndex server.log.size }) } := by
  refine h.updateCursor fun hspares old hold => ?_
  have hfits := hspares.cursors cursor (Cursors.mem_of_find? hcursor).1
  have hkept := hspares.cursors old hold
  have hnonneg : 0 ≤ server.log.size := Int.natCast_nonneg _
  exact ⟨Int.le_min.mpr ⟨hfits.next_nonneg, hnonneg⟩,
    Int.le_trans (Int.min_le_left _ _) hfits.next_le, hkept.matched_ge, hkept.matched_lt⟩

theorem advance (h : Room arithmetic spare server) {peer : ServerId} {cursor : Cursor}
    (hcursor : server.progress.cursor? peer = some cursor) (matched : Index) :
    Room arithmetic spare { server with
      progress := server.progress.updateCursor peer
        fun _ => cursor.advance (min matched server.log.lastIndex) } := by
  refine h.updateCursor fun hspares _ _ => ?_
  have hfits := hspares.cursors cursor (Cursors.mem_of_find? hcursor).1
  have hsize := hspares.size_le
  have hlast : server.log.lastIndex = server.log.size - 1 := rfl
  obtain ⟨hnonneg, hle, hge, hlt⟩ := hfits
  simp only [nullIndex] at hge
  unfold Cursor.advance
  split
  next =>
    refine ⟨?_, ?_, ?_, ?_⟩ <;> simp only [nullIndex] <;> lia
  next => exact ⟨hnonneg, hle, hge, hlt⟩

theorem backOff (h : Room arithmetic spare server) (peer : ServerId) (hint : Index) :
    Room arithmetic spare { server with
      progress := server.progress.updateCursor peer (·.backOff hint) } := by
  refine h.updateCursor fun hspares cursor hcursor => ?_
  obtain ⟨hnonneg, hle, hge, hlt⟩ := hspares.cursors cursor hcursor
  refine ⟨?_, ?_, hge, hlt⟩ <;> simp only [Cursor.backOff] <;> lia

end Room

end Consensus
