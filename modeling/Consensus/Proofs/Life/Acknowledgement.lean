import Consensus.Proofs.Life.Requests
import Consensus.Proofs.Replication.Incumbency

/-! # Who acknowledges what a leader commits

A leader commits what a majority has acknowledged in its term. It takes an acknowledgement to be
one of the server that the response names, whichever channel the response has come on. So the
acknowledgements that it counts are of as many peers only if each response names its sender.
-/

namespace Consensus

variable {σ : Type} [Store σ]

/-! ## What a leader has heard -/

/-- What a server has been sent, oldest first, each message with the channel it came on. -/
abbrev Heard := List (ServerId × Message)

/-- The message of a peer that a call brings. -/
def Server.brought (server : Server σ) : Call → Heard
  | .receive sender frame =>
    if server.config.isPeer sender then
      match Message.decode frame with
      | .error _ => []
      | .ok message => [(sender, message)]
    else
      []
  | _ => []

omit [Store σ] in
/-- A call is heard by a server just as it brings something from a peer. -/
theorem Server.hears_iff_mem_brought {server : Server σ} {call : Call} {sender : ServerId}
    {message : Message} :
    server.hears call sender message ↔ (sender, message) ∈ server.brought call := by
  constructor
  · rintro ⟨hpeer, frame, rfl, hdecode⟩
    simp [brought, hpeer, hdecode]
  · intro hbrought
    unfold brought at hbrought
    split at hbrought
    next other frame =>
      split_ifs at hbrought with hpeer
      · split at hbrought
        next => cases hbrought
        next also hdecode =>
          obtain ⟨rfl, rfl⟩ := Prod.mk.inj (List.mem_singleton.mp hbrought)
          exact ⟨hpeer, frame, rfl, hdecode⟩
      · cases hbrought
    next => cases hbrought

/-- A leadership, with what the leader has heard since it began: it begins with a call that makes
the server a leader, and goes on by calls that leave it one. -/
inductive Server.Tenure [LawfulStore σ] : Heard → Server σ → Prop
  | begin {server : Server σ} (h : server.Reachable) (hfollows : server.role.isLeader = false)
      (now : Duration) (call : Call)
      (hleads : (server.call now call).server.role.isLeader = true) :
      Tenure [] (server.call now call).server
  | call {heard : Heard} {server : Server σ} (h : Tenure heard server) (now : Duration)
      (call : Call) (hleads : (server.call now call).server.role.isLeader = true) :
      Tenure (heard ++ server.brought call) (server.call now call).server
  | disturb {heard : Heard} {server : Server σ} (h : Tenure heard server) {change : σ → σ}
      (hvalid : LawfulStore.Valid (change server.log.store))
      (hentries : Store.entries (change server.log.store) = server.log.entries)
      (hload : Store.load (change server.log.store) = Store.load server.log.store) :
      Tenure heard (server.mapStore change)

/-! ## Acknowledgements -/

/-- The server that a response is taken to be of, by its channel and by what it says. -/
abbrev Attribution := ServerId → AppendResponse → ServerId

namespace Attribution

/-- A response is of the one it names. -/
def name : Attribution := fun _ response => response.serverId

/-- A response is of the one whose channel it came on. -/
def channel : Attribution := fun sender _ => sender

end Attribution

namespace Heard

/-- The server has acknowledged the index in the term. -/
def Acknowledges (heard : Heard) (attribution : Attribution) (term : Term) (index : Index)
    (server : ServerId) : Prop :=
  ∃ sender response, (sender, .appendResponse response) ∈ heard ∧
    attribution sender response = server ∧ response.term = term ∧ response.successful = true ∧
    index ≤ response.matchLogIndex

/-- Each acknowledgement of the term names the one that has sent it. -/
def Truthful (heard : Heard) (term : Term) : Prop :=
  ∀ sender response, (sender, .appendResponse response) ∈ heard → response.term = term →
    response.successful = true → response.serverId = sender

variable {heard more : Heard} {attribution : Attribution} {term : Term} {index lower : Index}
  {server : ServerId}

/-- An acknowledgement holds for lower indices too, and stays heard. -/
theorem Acknowledges.mono (h : heard.Acknowledges attribution term index server)
    (hmore : heard ⊆ more) (hlower : lower ≤ index) :
    more.Acknowledges attribution term lower server := by
  obtain ⟨sender, response, hheard, hserver, hterm, hsuccessful, hindex⟩ := h
  exact ⟨sender, response, hmore hheard, hserver, hterm, hsuccessful, Int.le_trans hlower hindex⟩

/-- If acknowledgements name their senders, the one named has sent it on its own channel. -/
theorem Acknowledges.of_truthful (h : heard.Acknowledges .name term index server)
    (htruthful : heard.Truthful term) : heard.Acknowledges .channel term index server := by
  obtain ⟨sender, response, hheard, rfl, hterm, hsuccessful, hindex⟩ := h
  have hsender := htruthful sender response hheard hterm hsuccessful
  exact ⟨sender, response, hheard, hsender.symm, hterm, hsuccessful, hindex⟩

end Heard

namespace Server

/-- Together with the server itself, the distinct peers that have acknowledged the index are a
majority. -/
def Certified (server : Server σ) (heard : Heard) (attribution : Attribution)
    (index : Index) : Prop :=
  ∃ peers : List ServerId, peers.Nodup ∧ server.config.majority ≤ peers.length + 1 ∧
    ∀ peer ∈ peers, server.config.isPeer peer = true ∧
      heard.Acknowledges attribution server.term index peer

/-- Whatever the server knows of its followers, those have told it. -/
def Informed (server : Server σ) (heard : Heard) : Prop :=
  ∀ follower ∈ server.progress.cursors.matched, follower.2 = nullIndex ∨
    heard.Acknowledges .name server.term follower.2 follower.1

variable {server later : Server σ} {heard : Heard}

/-- A leader that goes on by a call stays informed by what the call brought. -/
theorem Informed.goesOn (h : server.Informed heard) {call : Call}
    (hgoes : server.GoesOn (server.hears call) later) :
    later.Informed (heard ++ server.brought call) := by
  intro follower hfollower
  rw [hgoes.term_eq]
  rcases hgoes.reports follower hfollower with hold | hnew
  · exact (h follower hold).imp_right fun hacknowledged =>
      hacknowledged.mono (List.subset_append_left _ _) (Int.le_refl _)
  · obtain ⟨sender, response, hhears, hterm, hsuccessful, hserver, hindex⟩ := hnew
    refine .inr ⟨sender, response, ?_, hserver, hterm, hsuccessful, hindex⟩
    exact List.mem_append_right _ (hears_iff_mem_brought.mp hhears)

/-- What a majority is known to hold is certified by those that are known to hold it. -/
theorem Informed.certified_majorityMatch (h : server.Informed heard) (horder : server.InOrder)
    (hleads : server.role.isLeader = true) (hheld : nullIndex < server.majorityMatch) :
    server.Certified heard .name server.majorityMatch := by
  have htracks := horder.tracks hleads
  have hservers : server.progress.cursors.matched.map Prod.fst =
      server.progress.cursors.map Cursor.serverId := by
    simp [Cursors.matched, Function.comp_def]
  let holders := server.progress.cursors.matched.filter fun follower =>
    decide (server.majorityMatch ≤ follower.2)
  have hholders : (holders.map Prod.fst).Sublist
      (server.progress.cursors.map Cursor.serverId) :=
    hservers ▸ List.filter_sublist.map Prod.fst
  refine ⟨holders.map Prod.fst, ?_, ?_, fun peer hpeer => ⟨?_, ?_⟩⟩
  · exact (htracks.peers.nodup_iff.mpr horder.distinct).sublist hholders
  · rw [List.length_map, ← List.countP_eq_length_filter]
    exact Cursors.le_countP_of_majorityMatch _ _ (Nat.succ_pos _) hheld
  · exact Config.isPeer_iff.mpr (htracks.peers.subset (hholders.subset hpeer))
  · obtain ⟨follower, hfollower, rfl⟩ := List.mem_map.mp hpeer
    obtain ⟨hknown, hholds⟩ := List.mem_filter.mp hfollower
    have hindex : server.majorityMatch ≤ follower.2 := of_decide_eq_true hholds
    rcases h follower hknown with hnull | hacknowledged
    · exact absurd (hnull ▸ hindex) (Int.not_le.mpr hheld)
    · exact hacknowledged.mono (List.Subset.refl _) hindex

variable [LawfulStore σ]

namespace Tenure

/-- Through its tenure a server leads. -/
theorem leads (h : Server.Tenure heard server) : server.role.isLeader = true := by
  induction h with
  | begin _ _ _ _ hleads => exact hleads
  | call _ _ _ hleads => exact hleads
  | disturb _ _ _ _ ih => exact ih

/-- Whoever is in office has come to it from a store. -/
theorem reachable (h : Server.Tenure heard server) : server.Reachable := by
  induction h with
  | begin h _ now call => exact h.call now call
  | call _ now call _ ih => exact ih.call now call
  | disturb _ hvalid hentries hload ih => exact ih.disturb hvalid hentries hload

/-- Whatever has made a server a leader, it is in a leadership. -/
theorem exists_of_reachable (h : server.Reachable) (hleads : server.role.isLeader = true) :
    ∃ heard, Server.Tenure heard server := by
  induction h with
  | start hvalid hstart =>
    rw [follows_of_start hvalid hstart] at hleads
    cases hleads
  | @call server h now call ih =>
    by_cases hled : server.role.isLeader = true
    · obtain ⟨heard, htenure⟩ := ih hled
      exact ⟨_, htenure.call now call hleads⟩
    · exact ⟨_, .begin h (Bool.eq_false_iff.mpr hled) now call hleads⟩
  | disturb _ hvalid hentries hload ih =>
    obtain ⟨heard, htenure⟩ := ih hleads
    exact ⟨heard, htenure.disturb hvalid hentries hload⟩

/-- Through its tenure a leader goes by what it has heard. -/
theorem informed (h : Server.Tenure heard server) : server.Informed heard := by
  induction h with
  | begin h hfollows now call hleads =>
    intro follower hfollower
    exact .inl ((call_begins h.coherent h.inOrder hfollows now call hleads).unknown _ hfollower)
  | call h now call hleads ih => exact ih.goesOn (goesOn_of_leads h.leads hleads)
  | disturb _ _ _ _ ih => exact ih

/-- Whenever the commit index of a leader rises, as many distinct peers as are a majority with
the leader have acknowledged what is committed, in its term and since it began to lead, by what
the responses name. If the responses name their senders, each has done so on its own channel. -/
theorem commit_certified (h : Server.Tenure heard server) {now : Duration} {call : Call}
    (hleads : (server.call now call).server.role.isLeader = true)
    (hrises : server.commitIndex < (server.call now call).server.commitIndex) :
    (server.call now call).server.Certified (heard ++ server.brought call) .name
        (server.call now call).server.commitIndex ∧
      ((heard ++ server.brought call).Truthful (server.call now call).server.term →
        (server.call now call).server.Certified (heard ++ server.brought call) .channel
          (server.call now call).server.commitIndex) := by
  have hnext : Server.Tenure (heard ++ server.brought call) (server.call now call).server :=
    h.call now call hleads
  have hnamed : (server.call now call).server.Certified (heard ++ server.brought call) .name
      (server.call now call).server.commitIndex := by
    rcases (goesOn_of_leads h.leads hleads).reckoned with hretains | hreckons
    · exact absurd hretains.commitIndex_eq (Int.ne_of_gt hrises)
    · rcases hreckons with ⟨⟨hhigher, _⟩, hcommit⟩ | ⟨_, hcommit⟩
      · rw [hcommit]
        have hheld := Int.lt_of_le_of_lt h.reachable.coherent.commit_ge hhigher
        exact hnext.informed.certified_majorityMatch hnext.reachable.inOrder hleads hheld
      · exact absurd hcommit (Int.ne_of_gt hrises)
  refine ⟨hnamed, fun htruthful => ?_⟩
  obtain ⟨peers, hdistinct, hmajority, hpeers⟩ := hnamed
  refine ⟨peers, hdistinct, hmajority, fun peer hpeer => ?_⟩
  obtain ⟨hmember, hacknowledged⟩ := hpeers peer hpeer
  exact ⟨hmember, hacknowledged.of_truthful htruthful⟩

end Tenure

end Server

/-! ## One of five -/

namespace Quintet

def config : Config where
  serverId := 1
  peers := [⟨2, "raft-2"⟩, ⟨3, "raft-3"⟩, ⟨4, "raft-4"⟩, ⟨5, "raft-5"⟩]

def server : Server MemoryStore where
  config := config
  role := .follower none
  durable := ⟨0, none, .ofStore {}⟩
  progress := {}
  timer := Countdown.restart
    ⟨config.electionMin, config.electionMax, .zero, config.electionMax, Handover.draws⟩ .zero
  delivered := {}

/-- One vote more wins the election of term 1. -/
def campaign : List Incident :=
  [.call (.ofSeconds 1 0) .pollTimer, .call (.ofSeconds 1 0) .perform,
    .call (.ofSeconds 1 0) (.receive 2 (Message.voteResponse ⟨1, true⟩).encode)]

/-- The vote that makes a leader. -/
def vote : Call := .receive 3 (Message.voteResponse ⟨1, true⟩).encode

/-- A client submits a command. -/
def submission : Call := .submit Handover.command

/-- A response of term 1, on the channel of `sender`, says that `named` holds the command. -/
def response (sender named : ServerId) : Call :=
  .receive sender (Message.appendResponse ⟨1, true, named, 0⟩).encode

/-- Makes a call to a server. -/
def next (server : Server MemoryStore) (call : Call) : Server MemoryStore :=
  (server.call (.ofSeconds 1 0) call).server

/-- The leader with the command in its log, which server 2 has acknowledged. -/
def leader : Server MemoryStore :=
  next (next (next (server.after campaign) vote) submission) (response 2 2)

/-- What the leader has heard. -/
def heard : Heard := [(2, .appendResponse ⟨1, true, 2, 0⟩)]

theorem tenure : Server.Tenure heard leader := by
  have hstart : Server.start config {} Handover.draws .zero = .ok server := rfl
  have hreachable : (server.after campaign).Reachable :=
    (Server.Reachable.start trivial hstart).after _
  have hbegun : Server.Tenure [] (next (server.after campaign) vote) :=
    .begin hreachable (by decide +kernel) _ _ (by decide +kernel)
  have hsubmitted := hbegun.call (.ofSeconds 1 0) submission (by decide +kernel)
  have hlast := hsubmitted.call (.ofSeconds 1 0) (response 2 2) (by decide +kernel)
  have hheard : heard = [] ++ (next (server.after campaign) vote).brought submission ++
      (next (next (server.after campaign) vote) submission).brought (response 2 2) := by
    decide +kernel
  rw [hheard]
  exact hlast

end Quintet

namespace Server

/-- Two peers that acknowledge a command have it committed. -/
theorem Tenure.commit_certified_quintet :
    (Quintet.next Quintet.leader (Quintet.response 3 3)).commitIndex = 0 ∧
      (Quintet.next Quintet.leader (Quintet.response 3 3)).Certified
        [(2, .appendResponse ⟨1, true, 2, 0⟩), (3, .appendResponse ⟨1, true, 3, 0⟩)]
        .channel 0 := by
  have hcommit : (Quintet.next Quintet.leader (Quintet.response 3 3)).commitIndex = 0 := by
    decide +kernel
  have hheard : Quintet.heard ++ Quintet.leader.brought (Quintet.response 3 3) =
      [(2, .appendResponse ⟨1, true, 2, 0⟩), (3, .appendResponse ⟨1, true, 3, 0⟩)] := by
    decide +kernel
  have htruthful : Heard.Truthful
      [(2, .appendResponse ⟨1, true, 2, 0⟩), (3, .appendResponse ⟨1, true, 3, 0⟩)]
      (Quintet.next Quintet.leader (Quintet.response 3 3)).term := by
    intro sender response hmember _ _
    simp only [List.mem_cons, List.not_mem_nil, or_false, Prod.mk.injEq,
      Message.appendResponse.injEq] at hmember
    rcases hmember with ⟨rfl, rfl⟩ | ⟨rfl, rfl⟩ <;> rfl
  have hcertified := (Quintet.tenure.commit_certified (by decide +kernel)
    (by decide +kernel)).2 (hheard ▸ htruthful)
  unfold Quintet.next at hcommit ⊢
  rw [hheard, hcommit] at hcertified
  exact ⟨hcommit, hcertified⟩

/-- One peer that acknowledges a command in the names of two has it committed. -/
theorem commit_certified_by_one_peer :
    Server.Tenure Quintet.heard Quintet.leader ∧ Quintet.leader.commitIndex = nullIndex ∧
      (Quintet.next Quintet.leader (Quintet.response 2 3)).role.isLeader = true ∧
      (Quintet.next Quintet.leader (Quintet.response 2 3)).commitIndex = 0 ∧
      ¬ (Quintet.next Quintet.leader (Quintet.response 2 3)).Certified
        (Quintet.heard ++ Quintet.leader.brought (Quintet.response 2 3)) .channel 0 := by
  refine ⟨Quintet.tenure, by decide +kernel, by decide +kernel, by decide +kernel, ?_⟩
  rintro ⟨peers, hdistinct, hmajority, hpeers⟩
  have hheard : Quintet.heard ++ Quintet.leader.brought (Quintet.response 2 3) =
      [(2, .appendResponse ⟨1, true, 2, 0⟩), (2, .appendResponse ⟨1, true, 3, 0⟩)] := by
    decide +kernel
  have honly : ∀ peer ∈ peers, peer ∈ [(2 : ServerId)] := by
    intro peer hpeer
    obtain ⟨_, sender, response, hmember, rfl, _⟩ := hpeers peer hpeer
    rw [hheard] at hmember
    simp only [List.mem_cons, List.not_mem_nil, or_false, Prod.mk.injEq] at hmember
    rcases hmember with ⟨rfl, _⟩ | ⟨rfl, _⟩ <;> exact List.mem_singleton_self _
  have hfew : peers.length ≤ 1 := (hdistinct.subperm honly).length_le
  have hneeded : (Quintet.next Quintet.leader (Quintet.response 2 3)).config.majority = 3 := by
    decide +kernel
  omega

end Server

end Consensus
