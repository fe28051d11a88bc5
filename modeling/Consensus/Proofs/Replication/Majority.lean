import Consensus.Proofs.Replication.Bookkeeping
import Mathlib.Data.List.Forall2
import Mathlib.Order.Bounds.Defs

/-! # What a majority holds

The highest index that a number of servers hold depends on what each of them holds, and on
nothing else of the cursors. It rises with what any of them holds and falls with the number
asked for, as far as there are that many servers. A leader never asks for more.
-/

namespace Consensus

namespace Cursors

/-- Cursor by cursor, no more is known to be replicated than later. -/
def Behind (earlier later : Cursors) : Prop :=
  List.Forall₂ (fun cursor moved => cursor.matchIndex ≤ moved.matchIndex) earlier later

variable {cursors earlier later : Cursors} {lastIndex laterIndex : Index} {fewer majority : Nat}

/-- What a majority holds is the highest index that so many servers hold. -/
theorem isGreatest_majorityMatch (hpositive : 1 ≤ majority)
    (hwithin : majority ≤ cursors.length + 1) :
    IsGreatest { index | majority ≤ (cursors.map Cursor.matchIndex ++ [lastIndex]).countP
        fun held => decide (index ≤ held) }
      (cursors.majorityMatch lastIndex majority) := by
  refine ⟨?_, fun index hindex => cursors.le_majorityMatch lastIndex hpositive hindex⟩
  exact Nat.le_of_pred_lt ((cursors.le_majorityMatch_iff lastIndex hwithin).mp (Int.le_refl _))

/-! ## What the servers hold -/

/-- Where no value is lower, no fewer values reach an index. -/
theorem countP_le_of_forall₂ {values others : List Index}
    (h : List.Forall₂ (· ≤ ·) values others) (index : Index) :
    values.countP (fun held => decide (index ≤ held)) ≤
      others.countP fun held => decide (index ≤ held) := by
  induction h with
  | nil => exact Nat.le_refl _
  | @cons value other values others hle _ ih =>
    rw [List.countP_cons, List.countP_cons]
    apply Nat.add_le_add ih
    by_cases hheld : index ≤ value
    · simp only [hheld, Int.le_trans hheld hle, decide_true, if_true, Nat.le_refl]
    · simp only [hheld, decide_false, Bool.false_eq_true, if_false, Nat.zero_le]

/-- What is behind holds no more, place by place. -/
theorem Behind.forall₂_values (h : earlier.Behind later) (hlast : lastIndex ≤ laterIndex) :
    List.Forall₂ (· ≤ ·) (earlier.map Cursor.matchIndex ++ [lastIndex])
      (later.map Cursor.matchIndex ++ [laterIndex]) := by
  refine List.rel_append ?_ (.cons hlast .nil)
  exact List.forall₂_map_left_iff.mpr (List.forall₂_map_right_iff.mpr h)

/-- Of as many servers, where no index is held by fewer, a majority holds no less. -/
theorem majorityMatch_le_of_countP_le (hlength : earlier.length = later.length)
    (hcount : ∀ index : Index,
      (earlier.map Cursor.matchIndex ++ [lastIndex]).countP (fun held => decide (index ≤ held)) ≤
        (later.map Cursor.matchIndex ++ [laterIndex]).countP fun held => decide (index ≤ held)) :
    earlier.majorityMatch lastIndex majority ≤ later.majorityMatch laterIndex majority := by
  rcases Nat.lt_or_ge (earlier.length + 1) majority with hbeyond | hwithin
  · have hnothing := majorityMatch_eq_nullIndex (hlength ▸ hbeyond) laterIndex
    exact Int.le_of_eq ((majorityMatch_eq_nullIndex hbeyond lastIndex).trans hnothing.symm)
  · have hplace := (earlier.le_majorityMatch_iff lastIndex hwithin).mp (Int.le_refl _)
    exact (later.le_majorityMatch_iff laterIndex (hlength ▸ hwithin)).mpr
      (Nat.lt_of_lt_of_le hplace (hcount _))

/-- The order of the cursors does not matter. -/
theorem majorityMatch_perm (h : earlier.Perm later) :
    earlier.majorityMatch lastIndex majority = later.majorityMatch lastIndex majority := by
  have hcount (index : Index) := ((h.map Cursor.matchIndex).append_right [lastIndex]).countP_eq
    fun held => decide (index ≤ held)
  exact Int.le_antisymm
    (majorityMatch_le_of_countP_le h.length_eq fun index => Nat.le_of_eq (hcount index))
    (majorityMatch_le_of_countP_le h.length_eq.symm fun index => Nat.le_of_eq (hcount index).symm)

/-- A majority holds no less for what servers have added to what they hold. -/
theorem Behind.majorityMatch_le (h : earlier.Behind later) (hlast : lastIndex ≤ laterIndex) :
    earlier.majorityMatch lastIndex majority ≤ later.majorityMatch laterIndex majority :=
  majorityMatch_le_of_countP_le (List.Forall₂.length_eq h)
    (countP_le_of_forall₂ (h.forall₂_values hlast))

/-! ## How many servers are asked for -/

/-- More servers hold no more, as long as there are that many. -/
theorem majorityMatch_le_of_le (hfewer : fewer ≤ majority)
    (hwithin : majority ≤ cursors.length + 1) :
    cursors.majorityMatch lastIndex majority ≤ cursors.majorityMatch lastIndex fewer := by
  have hplace := (cursors.le_majorityMatch_iff lastIndex hwithin).mp (Int.le_refl _)
  refine (cursors.le_majorityMatch_iff lastIndex (Nat.le_trans hfewer hwithin)).mpr ?_
  omega

/-- Where no server holds less than nothing, no majority does. -/
theorem nullIndex_le_majorityMatch
    (hvalues : ∀ held ∈ cursors.map Cursor.matchIndex ++ [lastIndex], nullIndex ≤ held) :
    nullIndex ≤ cursors.majorityMatch lastIndex majority := by
  rcases Nat.lt_or_ge (cursors.length + 1) majority with hbeyond | hwithin
  · exact Int.le_of_eq (majorityMatch_eq_nullIndex hbeyond lastIndex).symm
  · have hall : (cursors.map Cursor.matchIndex ++ [lastIndex]).countP
        (fun held => decide (nullIndex ≤ held)) = cursors.length + 1 := by
      rw [List.countP_eq_length.mpr fun held hheld => decide_eq_true (hvalues held hheld)]
      simp
    refine (cursors.le_majorityMatch_iff lastIndex hwithin).mpr ?_
    rw [hall]
    omega

/-- Where no server holds less than nothing, more servers hold no more, however many. -/
theorem majorityMatch_le_of_held
    (hvalues : ∀ held ∈ cursors.map Cursor.matchIndex ++ [lastIndex], nullIndex ≤ held)
    (hfewer : fewer ≤ majority) :
    cursors.majorityMatch lastIndex majority ≤ cursors.majorityMatch lastIndex fewer := by
  rcases Nat.lt_or_ge (cursors.length + 1) majority with hbeyond | hwithin
  · rw [majorityMatch_eq_nullIndex hbeyond]
    exact nullIndex_le_majorityMatch hvalues
  · exact majorityMatch_le_of_le hfewer hwithin

/-- What a majority holds is the highest index that so many servers hold, the leader with its
last index among them. The order of the cursors does not matter to it. It rises with what any
server holds and falls with the majority, as far as there are that many servers: a majority of
none counts as one, and one of more servers than there are holds nothing. -/
theorem majorityMatch_orderStatistic (cursors : Cursors) (lastIndex : Index) :
    (∀ majority, 1 ≤ majority → majority ≤ cursors.length + 1 →
      IsGreatest { index | majority ≤ (cursors.map Cursor.matchIndex ++ [lastIndex]).countP
          fun held => decide (index ≤ held) }
        (cursors.majorityMatch lastIndex majority)) ∧
    (∀ shuffled : Cursors, cursors.Perm shuffled → ∀ majority,
      shuffled.majorityMatch lastIndex majority = cursors.majorityMatch lastIndex majority) ∧
    (∀ (later : Cursors) (laterIndex : Index), cursors.Behind later → lastIndex ≤ laterIndex →
      ∀ majority,
        cursors.majorityMatch lastIndex majority ≤ later.majorityMatch laterIndex majority) ∧
    (∀ fewer majority, fewer ≤ majority → majority ≤ cursors.length + 1 →
      cursors.majorityMatch lastIndex majority ≤ cursors.majorityMatch lastIndex fewer) ∧
    ((∀ held ∈ cursors.map Cursor.matchIndex ++ [lastIndex], nullIndex ≤ held) →
      ∀ fewer majority, fewer ≤ majority →
        cursors.majorityMatch lastIndex majority ≤ cursors.majorityMatch lastIndex fewer) ∧
    cursors.majorityMatch lastIndex 0 = cursors.majorityMatch lastIndex 1 ∧
    ∀ majority, cursors.length + 1 < majority →
      cursors.majorityMatch lastIndex majority = -1 := by
  refine ⟨?_, ?_, ?_, ?_, ?_, rfl, ?_⟩
  · intro majority hpositive hwithin
    exact isGreatest_majorityMatch hpositive hwithin
  · intro shuffled hperm majority
    exact (majorityMatch_perm hperm).symm
  · intro later laterIndex hbehind hlast majority
    exact hbehind.majorityMatch_le hlast
  · intro fewer majority hfewer hwithin
    exact majorityMatch_le_of_le hfewer hwithin
  · intro hvalues fewer majority hfewer
    exact majorityMatch_le_of_held hvalues hfewer
  · intro majority hbeyond
    exact majorityMatch_eq_nullIndex hbeyond lastIndex

namespace Ties

/-- Of four followers two hold the same, one holds as much as a leader at index 7, and one is
said to hold less than nothing. -/
def before : Cursors := [⟨2, 6, 5⟩, ⟨3, 6, 5⟩, ⟨4, 8, 7⟩, ⟨5, 0, -3⟩]

def shuffled : Cursors := [⟨5, 0, -3⟩, ⟨3, 6, 5⟩, ⟨4, 8, 7⟩, ⟨2, 6, 5⟩]

/-- The same followers when the leader is at index 9. -/
def after : Cursors := [⟨2, 6, 5⟩, ⟨3, 9, 8⟩, ⟨4, 8, 7⟩, ⟨5, 1, 0⟩]

theorem before_behind : before.Behind after := by
  simp [Behind, before, after]

end Ties

/-- Four of the five servers hold 5, all of them hold no more than the last one does, and six
servers there are not. -/
theorem majorityMatch_orderStatistic_ties :
    IsGreatest { index | 4 ≤ (Ties.before.map Cursor.matchIndex ++ [7]).countP
        fun held => decide (index ≤ held) } 5 ∧
      Ties.before.Perm Ties.shuffled ∧ Ties.shuffled.majorityMatch 7 4 = 5 ∧
      Ties.before.Behind Ties.after ∧ -3 ≤ Ties.after.majorityMatch 9 5 ∧
      Ties.before.majorityMatch 7 5 ≤ Ties.before.majorityMatch 7 4 ∧
      Ties.after.majorityMatch 9 6 ≤ Ties.after.majorityMatch 9 5 ∧
      Ties.before.majorityMatch 7 0 = 7 ∧ Ties.before.majorityMatch 7 6 = -1 := by
  obtain ⟨hgreatest, hshuffled, hlater, hfewer, -, hnone, hbeyond⟩ :=
    majorityMatch_orderStatistic Ties.before 7
  obtain ⟨-, -, -, -, hbounded, -⟩ := majorityMatch_orderStatistic Ties.after 9
  have hperm : Ties.before.Perm Ties.shuffled := by decide
  exact ⟨hgreatest 4 (by decide) (by decide), hperm, hshuffled _ hperm 4, Ties.before_behind,
    hlater _ 9 Ties.before_behind (by decide) 5, hfewer 4 5 (by decide) (by decide),
    hbounded (by decide) 5 6 (by decide), hnone, hbeyond 6 (by decide)⟩

end Cursors

/-! ## The majority of a leader -/

variable {σ : Type} [Store σ] {server : Server σ}

/-- A leader has a cursor for each other server of its cluster, so there are as many servers as
its majority asks for. -/
theorem Server.Tracks.majority_le (h : server.Tracks) :
    server.config.majority ≤ server.progress.cursors.length + 1 := by
  have hpeers : server.progress.cursors.length = server.config.peers.length := by
    simpa [Config.peerIds] using h.peers.length_eq
  unfold Config.majority Config.clusterSize
  omega

/-- A leader looks at the highest index that a majority of its cluster holds, by what it knows. -/
theorem Server.Tracks.isGreatest_majorityMatch (h : server.Tracks) :
    IsGreatest { index | server.config.majority ≤
        (server.progress.cursors.map Cursor.matchIndex ++ [server.log.lastIndex]).countP
          fun held => decide (index ≤ held) }
      server.majorityMatch :=
  Cursors.isGreatest_majorityMatch (Nat.succ_pos _) h.majority_le

end Consensus
