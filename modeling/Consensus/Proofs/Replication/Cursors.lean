import Consensus.Replication.Cursor
import Mathlib.Data.List.Count
import Mathlib.Data.List.Induction
import Mathlib.Data.List.Perm.Basic

/-! # The cursors of a leader

A leader has one cursor for each peer, and its cursors keep their order. What a
majority holds is what that many servers are known to hold.
-/

namespace Consensus

/-! ## One cursor -/

theorem Cursor.serverId_advance (cursor : Cursor) (index : Index) :
    (cursor.advance index).serverId = cursor.serverId := by
  unfold advance
  split <;> rfl

/-- A cursor that advances knows what it knew before, or what it was told. -/
theorem Cursor.matchIndex_advance (cursor : Cursor) (index : Index) :
    (cursor.advance index).matchIndex = cursor.matchIndex ∨
      (cursor.advance index).matchIndex = index := by
  unfold advance
  split
  next => exact .inr rfl
  next => exact .inl rfl

namespace Cursors

/-- What is known to be replicated on each follower. -/
def matched (cursors : Cursors) : List (ServerId × Index) :=
  cursors.map fun cursor => (cursor.serverId, cursor.matchIndex)

/-! ## Looking up -/

/-- A cursor that is found is one of the cursors, and of the right server. -/
theorem mem_of_find? {cursors : Cursors} {server : ServerId} {cursor : Cursor}
    (h : cursors.find? server = some cursor) : cursor ∈ cursors ∧ cursor.serverId = server := by
  unfold find? at h
  exact ⟨List.mem_of_find?_eq_some h, by simpa using List.find?_some h⟩

/-! ## Changing -/

/-- A changed cursor is found in the place of the one it was. -/
theorem find?_update {cursors : Cursors} {server : ServerId} {cursor : Cursor}
    (h : cursors.find? server = some cursor) {change : Cursor → Cursor}
    (hserver : (change cursor).serverId = cursor.serverId) :
    (cursors.update server change).find? server = some (change cursor) := by
  have hcursor : cursor.serverId = server := (mem_of_find? h).2
  induction cursors with
  | nil => cases h
  | cons first rest ih =>
    unfold find? at h ih ⊢
    unfold update at ih ⊢
    rw [List.find?_cons] at h
    rw [List.map_cons, List.find?_cons]
    by_cases hfirst : first.serverId = server
    · have hfound : (first.serverId == server) = true := beq_iff_eq.mpr hfirst
      rw [hfound] at h
      obtain rfl := Option.some.inj h
      have hchanged : ((change first).serverId == server) = true :=
        beq_iff_eq.mpr (hserver.trans hfirst)
      rw [if_pos hfirst, hchanged]
    · have hother : (first.serverId == server) = false := beq_eq_false_iff_ne.mpr hfirst
      rw [hother] at h
      rw [if_neg hfirst, hother]
      exact ih h

/-- A change of what is to be sent next is no change of what is known. -/
theorem matched_update (cursors : Cursors) (server : ServerId) {change : Cursor → Cursor}
    (hserver : ∀ cursor, (change cursor).serverId = cursor.serverId)
    (hmatch : ∀ cursor, (change cursor).matchIndex = cursor.matchIndex) :
    (cursors.update server change).matched = cursors.matched := by
  unfold update matched
  rw [List.map_map]
  refine List.map_congr_left fun cursor _ => ?_
  simp only [Function.comp_apply]
  split
  next => rw [hserver, hmatch]
  next => rfl

/-- Moving a cursor leaves the servers of all cursors as they are. -/
theorem servers_update (cursors : Cursors) {server : ServerId} {moved : Cursor}
    (hserver : moved.serverId = server) :
    (cursors.update server fun _ => moved).matched.map Prod.fst =
      cursors.matched.map Prod.fst := by
  unfold update matched
  simp only [List.map_map]
  refine List.map_congr_left fun cursor _ => ?_
  simp only [Function.comp_apply]
  split
  next h => rw [hserver, h]
  next => rfl

/-- What is known after a cursor moved was known before, or is what it moved to. -/
theorem mem_matched_update {cursors : Cursors} {server : ServerId} {moved : Cursor}
    {follower : ServerId × Index}
    (h : follower ∈ (cursors.update server fun _ => moved).matched) :
    follower ∈ cursors.matched ∨ follower = (moved.serverId, moved.matchIndex) := by
  obtain ⟨cursor, hcursor, rfl⟩ := List.mem_map.mp h
  obtain ⟨old, hold, rfl⟩ := List.mem_map.mp hcursor
  split
  next => exact .inr rfl
  next => exact .inl (List.mem_map.mpr ⟨old, hold, rfl⟩)

/-- A cursor among changed ones was there before, or is what a change made of one that was. -/
theorem mem_update {cursors : Cursors} {server : ServerId} {change : Cursor → Cursor}
    {cursor : Cursor} (h : cursor ∈ cursors.update server change) :
    cursor ∈ cursors ∨ ∃ old ∈ cursors, old.serverId = server ∧ cursor = change old := by
  obtain ⟨old, hold, rfl⟩ := List.mem_map.mp h
  by_cases hserver : old.serverId = server
  · exact .inr ⟨old, hold, hserver, if_pos hserver⟩
  · rw [if_neg hserver]
    exact .inl hold

/-- Changed cursors are of the same servers. -/
theorem serverIds_update (cursors : Cursors) {server : ServerId} {change : Cursor → Cursor}
    (hserver : ∀ cursor ∈ cursors, cursor.serverId = server → (change cursor).serverId = server) :
    (cursors.update server change).map Cursor.serverId = cursors.map Cursor.serverId := by
  unfold update
  rw [List.map_map]
  refine List.map_congr_left fun cursor hcursor => ?_
  by_cases hsame : cursor.serverId = server
  · simp [hsame, hserver cursor hcursor hsame]
  · simp [hsame]

/-! ## Fresh cursors -/

/-- The cursors are in the order of their servers. -/
def Ordered (cursors : Cursors) : Prop :=
  cursors.Pairwise fun first second => first.serverId < second.serverId

theorem mem_insert {cursor other : Cursor} {cursors : Cursors}
    (h : other ∈ insert cursor cursors) : other = cursor ∨ other ∈ cursors := by
  induction cursors with
  | nil => exact .inl (List.mem_singleton.mp h)
  | cons first rest ih =>
    unfold insert at h
    split at h
    · exact List.mem_cons.mp h
    · split at h
      · exact (List.mem_cons.mp h).imp_right (List.mem_cons_of_mem _)
      · rcases List.mem_cons.mp h with rfl | hrest
        · exact .inr (List.mem_cons_self ..)
        · exact (ih hrest).imp_right (List.mem_cons_of_mem _)

/-- Cursors stay ordered when one is inserted. -/
theorem Ordered.insert {cursors : Cursors} (h : cursors.Ordered) (cursor : Cursor) :
    (Cursors.insert cursor cursors).Ordered := by
  induction cursors with
  | nil => exact List.pairwise_singleton _ _
  | cons first rest ih =>
    obtain ⟨hfirst, hrest⟩ := List.pairwise_cons.mp h
    unfold Cursors.insert
    split
    next hlt =>
      refine List.pairwise_cons.mpr ⟨fun other hother => ?_, h⟩
      rcases List.mem_cons.mp hother with rfl | hother
      · exact hlt
      · exact Int.lt_trans hlt (hfirst other hother)
    next hge =>
      split
      next heq =>
        exact List.pairwise_cons.mpr ⟨fun other hother => heq ▸ hfirst other hother, hrest⟩
      next hne =>
        refine List.pairwise_cons.mpr ⟨fun other hother => ?_, ih hrest⟩
        rcases mem_insert hother with rfl | hother
        · lia
        · exact hfirst other hother

/-- New cursors are ordered. -/
theorem ordered_reset (servers : List ServerId) (logSize : Index) :
    Ordered (reset servers logSize) :=
  List.foldlRecOn servers _ List.Pairwise.nil fun _ hordered _ _ => hordered.insert _

/-- New cursors are fresh ones of the servers. -/
theorem exists_fresh_of_mem_reset {servers : List ServerId} {logSize : Index} :
    ∀ cursor ∈ reset servers logSize, ∃ server ∈ servers, cursor = .fresh server logSize := by
  refine List.foldlRecOn (motive := fun cursors : Cursors => ∀ cursor ∈ cursors,
    ∃ server ∈ servers, cursor = .fresh server logSize) servers _ (by simp) ?_
  intro cursors hcursors server hserver cursor hcursor
  rcases mem_insert hcursor with rfl | hold
  · exact ⟨server, hserver, rfl⟩
  · exact hcursors cursor hold

/-- Fresh cursors are of the servers they are made for, and nothing is known of those. -/
theorem mem_reset {servers : List ServerId} {logSize : Index} :
    ∀ cursor ∈ reset servers logSize,
      cursor.serverId ∈ servers ∧ cursor.matchIndex = nullIndex := by
  intro cursor hcursor
  obtain ⟨server, hserver, rfl⟩ := exists_fresh_of_mem_reset cursor hcursor
  exact ⟨hserver, rfl⟩

/-- No server has two new cursors. -/
theorem nodup_reset (servers : List ServerId) (logSize : Index) :
    ((matched (reset servers logSize)).map Prod.fst).Nodup := by
  unfold matched
  rw [List.map_map, List.Nodup, List.pairwise_map]
  exact (ordered_reset servers logSize).imp fun hlt => Int.ne_of_lt hlt

/-- Inserting a cursor of a new server loses none of the others. -/
theorem insert_perm {cursor : Cursor} {cursors : Cursors}
    (hnew : ∀ other ∈ cursors, other.serverId ≠ cursor.serverId) :
    (insert cursor cursors).Perm (cursor :: cursors) := by
  induction cursors with
  | nil => exact .refl _
  | cons first rest ih =>
    have hfirst : ¬ cursor.serverId = first.serverId :=
      fun heq => hnew first List.mem_cons_self heq.symm
    unfold insert
    rw [if_neg hfirst]
    split
    next => exact .refl _
    next =>
      have hrest := ih fun other hother => hnew other (List.mem_cons_of_mem _ hother)
      exact (hrest.cons first).trans (.swap cursor first rest)

/-- Distinct servers get one fresh cursor each. -/
theorem reset_perm {servers : List ServerId} (logSize : Index) (hdistinct : servers.Nodup) :
    (reset servers logSize).Perm (servers.map (Cursor.fresh · logSize)) := by
  induction servers using List.reverseRecOn with
  | nil => exact .refl _
  | append_singleton front last ih =>
    obtain ⟨hfront, -, hapart⟩ := List.nodup_append.mp hdistinct
    have hperm := ih hfront
    have hnew : ∀ other ∈ reset front logSize, other.serverId ≠ last := fun other hother =>
      hapart other.serverId (mem_reset other hother).1 last (List.mem_singleton_self last)
    have hreset : reset (front ++ [last]) logSize =
        insert (.fresh last logSize) (reset front logSize) := by
      simp [reset]
    rw [hreset, List.map_append, List.map_singleton]
    exact (insert_perm hnew).trans ((hperm.cons _).trans (List.perm_append_singleton _ _).symm)

/-! ## Majorities -/

/-- Ranking an index loses none of the others. -/
theorem rank_perm (index : Index) (indices : List Index) :
    (rank index indices).Perm (index :: indices) := by
  induction indices with
  | nil => exact .refl _
  | cons other rest ih =>
    unfold rank
    split
    next => exact .refl _
    next => exact (ih.cons other).trans (.swap index other rest)

/-- Ranking an index among descending ones leaves them descending. -/
theorem rank_pairwise {index : Index} {indices : List Index}
    (h : indices.Pairwise fun first second => second ≤ first) :
    (rank index indices).Pairwise fun first second => second ≤ first := by
  induction indices with
  | nil => exact List.pairwise_singleton _ _
  | cons other rest ih =>
    obtain ⟨hother, hrest⟩ := List.pairwise_cons.mp h
    unfold rank
    split
    next hle =>
      refine List.pairwise_cons.mpr ⟨fun lower hlower => ?_, h⟩
      rcases List.mem_cons.mp hlower with rfl | hlower
      · exact hle
      · exact Int.le_trans (hother lower hlower) hle
    next hlt =>
      refine List.pairwise_cons.mpr ⟨fun lower hlower => ?_, ih hrest⟩
      rcases List.mem_cons.mp ((rank_perm index rest).mem_iff.mp hlower) with rfl | hlower
      · exact Int.le_of_lt (Int.not_le.mp hlt)
      · exact hother lower hlower

/-- The holdings are what the cursors match and what the leader holds itself. -/
theorem holdings_perm (cursors : Cursors) (lastIndex : Index) :
    (cursors.holdings lastIndex).Perm (cursors.map Cursor.matchIndex ++ [lastIndex]) := by
  unfold holdings
  generalize cursors.map Cursor.matchIndex ++ [lastIndex] = indices
  induction indices with
  | nil => exact .refl _
  | cons index rest ih => exact (rank_perm index _).trans (ih.cons index)

/-- The holdings descend. -/
theorem holdings_pairwise (cursors : Cursors) (lastIndex : Index) :
    (cursors.holdings lastIndex).Pairwise fun first second => second ≤ first :=
  List.foldrRecOn _ _ .nil fun _ hranked _ _ => rank_pairwise hranked

theorem length_holdings (cursors : Cursors) (lastIndex : Index) :
    (cursors.holdings lastIndex).length = cursors.length + 1 := by
  simpa using (cursors.holdings_perm lastIndex).length_eq

/-- In a falling list, those that are no less than an index are in front. -/
theorem le_iff_lt_countP {values : List Index}
    (hfalling : values.Pairwise fun first second => second ≤ first) {place : Nat}
    {value index : Index} (hget : values[place]? = some value) :
    index ≤ value ↔ place < values.countP fun other => decide (index ≤ other) := by
  induction values generalizing place with
  | nil => cases hget
  | cons first rest ih =>
    obtain ⟨hfirst, hrest⟩ := List.pairwise_cons.mp hfalling
    by_cases hle : index ≤ first
    · rw [List.countP_cons, if_pos (decide_eq_true hle)]
      cases place with
      | zero =>
        obtain rfl := Option.some.inj hget
        exact iff_of_true hle (Nat.zero_lt_succ _)
      | succ place => exact (ih hrest hget).trans Nat.succ_lt_succ_iff.symm
    · -- What comes behind the first is no more than it.
      have hnone : ∀ other ∈ first :: rest, ¬ index ≤ other := by
        intro other hother hlower
        rcases List.mem_cons.mp hother with rfl | hlater
        · exact hle hlower
        · exact hle (Int.le_trans hlower (hfirst other hlater))
      rw [List.countP_eq_zero.mpr fun other hother => by simpa using hnone other hother]
      exact iff_of_false (hnone value (List.mem_of_getElem? hget)) (Nat.not_lt_zero place)

/-- An index is no more than what a majority holds if and only if more servers hold it than
have a place in front of the majority's. -/
theorem le_majorityMatch_iff (cursors : Cursors) (lastIndex : Index) {majority : Nat}
    {index : Index} (hwithin : majority ≤ cursors.length + 1) :
    index ≤ cursors.majorityMatch lastIndex majority ↔
      majority - 1 < (cursors.map Cursor.matchIndex ++ [lastIndex]).countP
        fun held => decide (index ≤ held) := by
  have hlength : majority - 1 < (cursors.holdings lastIndex).length := by
    rw [length_holdings]
    omega
  unfold majorityMatch
  rw [List.getD_eq_getElem?_getD, List.getElem?_eq_getElem hlength,
    ← (cursors.holdings_perm lastIndex).countP_eq]
  exact le_iff_lt_countP (cursors.holdings_pairwise lastIndex)
    (List.getElem?_eq_getElem hlength)

/-- More servers than there are hold nothing. -/
theorem majorityMatch_eq_nullIndex {cursors : Cursors} {majority : Nat}
    (hbeyond : cursors.length + 1 < majority) (lastIndex : Index) :
    cursors.majorityMatch lastIndex majority = nullIndex := by
  have hlength : (cursors.holdings lastIndex).length ≤ majority - 1 := by
    rw [length_holdings]
    omega
  unfold majorityMatch
  rw [List.getD_eq_getElem?_getD, List.getElem?_eq_none hlength, Option.getD_none]

/-- What that many servers hold is no more than what a majority holds. -/
theorem le_majorityMatch (cursors : Cursors) (lastIndex : Index) {majority : Nat} {index : Index}
    (hpositive : 0 < majority)
    (hcount : majority ≤ (cursors.map Cursor.matchIndex ++ [lastIndex]).countP
      fun held => decide (index ≤ held)) :
    index ≤ cursors.majorityMatch lastIndex majority := by
  have hwithin : majority ≤ cursors.length + 1 := by
    simpa using Nat.le_trans hcount List.countP_le_length
  exact (cursors.le_majorityMatch_iff lastIndex hwithin).mpr (by omega)

/-- What a majority holds, that many servers hold. -/
theorem majority_le_countP (cursors : Cursors) (lastIndex : Index) {majority : Nat}
    (hpositive : 0 < majority) (hheld : nullIndex < cursors.majorityMatch lastIndex majority) :
    majority ≤ (cursors.map Cursor.matchIndex ++ [lastIndex]).countP
      fun held => decide (cursors.majorityMatch lastIndex majority ≤ held) := by
  have hwithin : majority ≤ cursors.length + 1 := by
    by_contra hbeyond
    rw [majorityMatch_eq_nullIndex (Nat.not_le.mp hbeyond)] at hheld
    exact Int.lt_irrefl _ hheld
  have hcount := (cursors.le_majorityMatch_iff lastIndex hwithin).mp (Int.le_refl _)
  omega

/-- What a majority holds, that many servers are known to hold, the leader included. -/
theorem le_countP_of_majorityMatch (cursors : Cursors) (lastIndex : Index) {majority : Nat}
    (hpositive : 0 < majority) (hheld : nullIndex < cursors.majorityMatch lastIndex majority) :
    majority ≤ cursors.matched.countP (fun follower =>
      decide (cursors.majorityMatch lastIndex majority ≤ follower.2)) + 1 := by
  have hcount := majority_le_countP cursors lastIndex hpositive hheld
  generalize cursors.majorityMatch lastIndex majority = index at hcount ⊢
  rw [List.countP_append, List.countP_map] at hcount
  have hleader : [lastIndex].countP (fun other => decide (index ≤ other)) ≤ 1 :=
    List.countP_le_length
  unfold matched
  rw [List.countP_map]
  have hsame : ((fun follower : ServerId × Index => decide (index ≤ follower.2)) ∘
      fun cursor : Cursor => (cursor.serverId, cursor.matchIndex)) =
      (fun other => decide (index ≤ other)) ∘ Cursor.matchIndex := rfl
  rw [hsame]
  omega

end Cursors

end Consensus
