import Consensus.Proofs.Cycle.Polling
import Consensus.Proofs.Config.Quorum
import Consensus.Proofs.Life.Requests
import Mathlib.Data.List.Nodup

/-! # Taking turns

Over the whole life of a server's loop its peers are polled in turn, whatever becomes of the passes
and whatever is done to the server and its network between them. So no peer is polled more than
once oftener than another from any point on.
-/

namespace Consensus

/-! ## Rotations -/

/-- The peers are polled in turn, beginning with the one at `start` in laps. -/
def Rotates (peers : List ServerId) (start : Nat) (polls : List Poll) : Prop :=
  ∀ place poll, polls[place]? = some poll →
    peers[(start + place) % peers.length]? = some poll.peer

variable {peers : List ServerId} {start : Nat} {polls more : List Poll}

theorem rotates_nil : Rotates peers start [] :=
  fun _ _ hpoll => nomatch hpoll

/-- Peers are polled in turn over two stretches in a row if they are over each. -/
theorem Rotates.append (h : Rotates peers start polls)
    (hmore : Rotates peers (start + polls.length) more) : Rotates peers start (polls ++ more) := by
  intro place poll hpoll
  rcases Nat.lt_or_ge place polls.length with hbefore | hafter
  · rw [List.getElem?_append_left hbefore] at hpoll
    exact h place poll hpoll
  · rw [List.getElem?_append_right hafter] at hpoll
    have hlast := hmore (place - polls.length) poll hpoll
    rwa [Nat.add_assoc, Nat.add_sub_cancel' hafter] at hlast

/-- Peers that are polled in turn were so from the beginning. -/
theorem Rotates.of_append (h : Rotates peers start (polls ++ more)) : Rotates peers start polls :=
  fun place poll hpoll =>
    h place poll (List.getElem?_append_left (List.getElem?_eq_some_iff.mp hpoll).1 ▸ hpoll)

/-- A single poll is in turn if it is of the peer at its place. -/
theorem rotates_singleton {poll : Poll} :
    Rotates peers start [poll] ↔ peers[start % peers.length]? = some poll.peer := by
  refine ⟨fun h => h 0 poll rfl, fun h place other hother => ?_⟩
  obtain ⟨hplace, rfl⟩ := List.getElem?_eq_some_iff.mp hother
  obtain rfl : place = 0 := by simpa using hplace
  exact h

/-- How often a peer was polled. -/
def timesPolled (peer : ServerId) (polls : List Poll) : Nat := polls.countP (·.peer == peer)

theorem timesPolled_append (peer : ServerId) (polls more : List Poll) :
    timesPolled peer (polls ++ more) = timesPolled peer polls + timesPolled peer more :=
  List.countP_append

theorem timesPolled_singleton (peer : ServerId) (poll : Poll) :
    timesPolled peer [poll] = if poll.peer = peer then 1 else 0 := by
  simp [timesPolled, List.countP_cons]

/-- The place behind the last one is the first. -/
theorem succ_mod_eq (count laps : Nat) :
    (count + 1) % laps = if count % laps + 1 = laps then 0 else count % laps + 1 := by
  split
  next hlast => rw [← Nat.mod_add_mod, hlast, Nat.mod_self]
  next hlast =>
    rcases Nat.eq_zero_or_pos laps with rfl | hlaps
    · rw [Nat.mod_zero, Nat.mod_zero]
    · have hlt := Nat.mod_lt count hlaps
      rw [← Nat.mod_add_mod, Nat.mod_eq_of_lt (by omega)]

/-- Of two peers the one in front has been polled once oftener just while the turn is between
them. -/
theorem Rotates.timesPolled_eq (h : Rotates peers 0 polls) (hnodup : peers.Nodup) {front back : Nat}
    (horder : front < back) (hback : back < peers.length) :
    timesPolled peers[front] polls = timesPolled peers[back] polls +
      if front < polls.length % peers.length ∧ polls.length % peers.length ≤ back then 1
      else 0 := by
  induction polls using List.reverseRecOn with
  | nil =>
    rw [List.length_nil, Nat.zero_mod, if_neg (by omega)]
    rfl
  | append_singleton polls poll ih =>
    have hplace : polls.length % peers.length < peers.length := Nat.mod_lt _ (by omega)
    have hpeer : peers[polls.length % peers.length] = poll.peer := by
      have hturn := h polls.length poll List.getElem?_concat_length
      rw [Nat.zero_add, List.getElem?_eq_getElem hplace] at hturn
      exact Option.some.inj hturn
    rw [timesPolled_append, timesPolled_append, timesPolled_singleton, timesPolled_singleton,
      ih h.of_append, ← hpeer, List.length_append, List.length_singleton, succ_mod_eq]
    simp only [hnodup.getElem_inj_iff]
    generalize polls.length % peers.length = place at hplace
    split_ifs <;> omega

/-- From any point on no peer is polled more than once oftener than another. -/
theorem Rotates.timesPolled_le (h : Rotates peers 0 (polls ++ more)) (hnodup : peers.Nodup)
    {one other : ServerId} (hone : one ∈ peers) (hother : other ∈ peers) :
    timesPolled one more ≤ timesPolled other more + 1 := by
  have hgap : ∀ {front back : Nat} (hback : back < peers.length) (horder : front < back),
      timesPolled peers[front] more ≤ timesPolled peers[back] more + 1 ∧
        timesPolled peers[back] more ≤ timesPolled peers[front] more + 1 := by
    intro front back hback horder
    have hbefore := h.of_append.timesPolled_eq hnodup horder hback
    have hafter := h.timesPolled_eq hnodup horder hback
    rw [timesPolled_append, timesPolled_append] at hafter
    split_ifs at hbefore hafter <;> omega
  obtain ⟨place, hplace, rfl⟩ := List.getElem_of_mem hone
  obtain ⟨spot, hspot, rfl⟩ := List.getElem_of_mem hother
  rcases Nat.lt_trichotomy place spot with hfront | rfl | hback
  · exact (hgap hspot hfront).1
  · exact Nat.le_succ _
  · exact (hgap hplace hback).2

/-- If a peer's inbox was never found empty, each poll of the peer has found a frame. -/
theorem length_heard {peer : ServerId} (hfound : ⟨peer, none⟩ ∉ polls) :
    (heard peer polls).length = timesPolled peer polls := by
  induction polls with
  | nil => rfl
  | cons poll rest ih =>
    obtain ⟨hfirst, hrest⟩ := not_or.mp (mt List.mem_cons.mpr hfound)
    obtain ⟨server, found⟩ := poll
    have hcount : timesPolled peer (⟨server, found⟩ :: rest) =
        (if server = peer then 1 else 0) + timesPolled peer rest :=
      (timesPolled_append peer [⟨server, found⟩] rest).trans
        (congrArg (· + _) (timesPolled_singleton peer _))
    rw [hcount, ← ih hrest]
    by_cases hserver : server = peer
    · subst hserver
      cases found with
      | none => exact absurd rfl hfirst
      | some frame => simp [heard, Nat.add_comm]
    · simp [heard, hserver]

end Consensus
