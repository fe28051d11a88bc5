import Consensus.Proofs.Turn.Action
import Mathlib.Order.Defs.Unbundled

/-! # Relations through a turn

A call shows a server at several moments: as it is called, as it posts each message, and as it
is left. A relation that can be chained holds from each moment to every later one when each
change on the way keeps to it.
-/

namespace Consensus

variable {σ : Type} {related weaker : Server σ → Server σ → Prop}
variable {first middle last next : Turn σ}

namespace Turn

/-- The turn has come from `first` to `last`. The server at each moment of it is related to the
server at every later one. -/
def Through (related : Server σ → Server σ → Prop) (first last : Turn σ) : Prop :=
  ∃ posted, last.postings = first.postings ++ posted ∧
    (first.server :: posted.map Posting.sender ++ [last.server]).Pairwise related

/-- A relation that holds through a turn holds from its beginning to its end. -/
theorem Through.ends (h : first.Through related last) : related first.server last.server := by
  obtain ⟨posted, -, hmoments⟩ := h
  exact (List.pairwise_cons.mp hmoments).1 _ (List.mem_append_right _ (List.mem_singleton_self _))

variable [IsPreorder (Server σ) related]

theorem through_refl (turn : Turn σ) : turn.Through related turn :=
  ⟨[], (List.append_nil _).symm, by simpa using refl_of related turn.server⟩

theorem related_of_mem {server : Server σ} {later : List (Server σ)}
    (h : (server :: later).Pairwise related) :
    ∀ moment ∈ server :: later, related server moment := by
  intro moment hmoment
  rcases List.mem_cons.mp hmoment with rfl | hlater
  · exact refl_of related _
  · exact (List.pairwise_cons.mp h).1 moment hlater

/-- What follows from a relation holds through a turn with it. -/
theorem Through.imp (h : first.Through related last)
    (himp : ∀ earlier later, related first.server earlier → related earlier later →
      weaker earlier later) : first.Through weaker last := by
  obtain ⟨posted, hposted, hmoments⟩ := h
  exact ⟨posted, hposted, hmoments.imp_of_mem fun {earlier later} hmem _ =>
    himp earlier later (related_of_mem hmoments earlier hmem)⟩

/-- Two parts of a turn, with a change of the server between them, are related through both when
what comes in front of the change is related to what comes behind it. -/
theorem Through.join {server : Server σ} (h : first.Through related middle)
    (hrest : ({ middle with server } : Turn σ).Through related last)
    (hbefore : ∀ earlier later, related first.server earlier → related earlier later →
      weaker earlier later)
    (hafter : ∀ earlier later, related server earlier → related earlier later →
      weaker earlier later)
    (hacross : ∀ earlier later, related first.server earlier → related earlier middle.server →
      related server later → weaker earlier later) : first.Through weaker last := by
  obtain ⟨front, hfront, hearlier⟩ := h
  obtain ⟨back, hback, hlater⟩ := hrest
  have hpostings : last.postings = first.postings ++ (front ++ back) := by
    rw [← List.append_assoc, ← hfront]
    exact hback
  have hmoments : first.server :: (front ++ back).map Posting.sender ++ [last.server] =
      (first.server :: front.map Posting.sender) ++ (back.map Posting.sender ++ [last.server]) := by
    simp
  refine ⟨front ++ back, hpostings, ?_⟩
  rw [hmoments]
  obtain ⟨hpairs, -, hchange⟩ := List.pairwise_append.mp hearlier
  have hbegun := related_of_mem hpairs
  have hresumed := (List.pairwise_cons.mp hlater).1
  refine List.pairwise_append.mpr ⟨?_, ?_, fun earlier hmem later hmem' => ?_⟩
  · exact hpairs.imp_of_mem fun {earlier later} hmem _ =>
      hbefore earlier later (hbegun earlier hmem)
  · exact (List.pairwise_cons.mp hlater).2.imp_of_mem fun {earlier later} hmem _ =>
      hafter earlier later (hresumed earlier hmem)
  · exact hacross earlier later (hbegun earlier hmem)
      (hchange earlier hmem _ (List.mem_singleton_self _)) (hresumed later hmem')

/-- A relation that holds through two turns in a row holds through both. -/
theorem Through.trans (h : first.Through related middle) (hrest : middle.Through related last) :
    first.Through related last :=
  h.join hrest (fun _ _ _ hrelated => hrelated) (fun _ _ _ hrelated => hrelated)
    fun _ _ _ hfront hback => trans_of related hfront hback

/-- A change that posts nothing leads on. -/
theorem Through.step (h : first.Through related last) (hpostings : next.postings = last.postings)
    (hstep : related last.server next.server) : first.Through related next :=
  h.trans ⟨[], by simp [hpostings], by simpa using hstep⟩

/-- A message may be posted at the end of a turn. -/
theorem Through.post (h : first.Through related last) (receiver : ServerId) (message : Message) :
    first.Through related { last with
      postings := last.postings ++ [⟨receiver, message, last.server⟩] } :=
  h.trans ⟨[_], rfl, by simpa using refl_of related last.server⟩

end Turn

namespace Action

variable {α β : Type}

/-- Whatever turn it is part of, the action keeps to the relation, also when it fails. -/
def KeepsTo (related : Server σ → Server σ → Prop) (action : Action σ α) : Prop :=
  ∀ ⦃first turn : Turn σ⦄, first.Through related turn →
    action.Ends (fun _ last => first.Through related last) (first.Through related) turn

/-- What an action keeps to for each item it keeps to for all of them. -/
theorem keepsTo_forM {items : List β} {body : β → Action σ Unit}
    (hbody : ∀ item, KeepsTo related (body item)) : KeepsTo related (items.forM body) := by
  intro first turn h
  exact ends_forM (first.Through related) (fun item _ _ hlast => hbody item hlast) h

end Action

end Consensus
