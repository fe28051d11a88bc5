import Consensus.Proofs.Config.Validation
import Mathlib.Data.Finset.Card

/-! # Quorums

Servers whose configurations list one set of members agree on what a majority of
it is, and any two majorities share a member. Nothing else is asked of a quorum.
A configuration that passes validation lists the servers it names.
-/

namespace Consensus

/-- More than half of the members. -/
structure IsQuorum (members voters : Finset ServerId) : Prop where
  subset : voters ⊆ members
  majority : members.card < 2 * voters.card

/-- Any two quorums share a member. -/
theorem IsQuorum.exists_mem_both {members first second : Finset ServerId}
    (hfirst : IsQuorum members first) (hsecond : IsQuorum members second) :
    ∃ server, server ∈ first ∧ server ∈ second := by
  have hunion : (first ∪ second).card ≤ members.card :=
    Finset.card_le_card (Finset.union_subset hfirst.subset hsecond.subset)
  have hsum := Finset.card_union_add_card_inter first second
  have hpositive : 0 < (first ∩ second).card := by
    have := hfirst.majority
    have := hsecond.majority
    omega
  obtain ⟨server, hserver⟩ := Finset.card_pos.mp hpositive
  exact ⟨server, Finset.mem_inter.mp hserver⟩

namespace Config

/-- The configuration lists exactly the other members of a cluster, each once. -/
structure Lists (config : Config) (members : Finset ServerId) : Prop where
  self_mem : config.serverId ∈ members
  distinct : config.peerIds.Nodup
  mem_peerIds_iff : ∀ server, server ∈ config.peerIds ↔ server ∈ members ∧ server ≠ config.serverId

/-- The peers of a server are those that its configuration lists. -/
theorem isPeer_iff {config : Config} {server : ServerId} :
    config.isPeer server = true ↔ server ∈ config.peerIds := by
  simp [isPeer, peerIds, List.any_eq_true]

/-- A server that lists the others of a cluster knows its size. -/
theorem Lists.clusterSize_eq {config : Config} {members : Finset ServerId}
    (hlists : config.Lists members) : config.clusterSize = members.card := by
  have hothers : config.peerIds.toFinset = members.erase config.serverId := by
    ext server
    rw [List.mem_toFinset, Finset.mem_erase, hlists.mem_peerIds_iff, and_comm]
  have hcard := congrArg Finset.card hothers
  rw [List.toFinset_card_of_nodup hlists.distinct,
    Finset.card_erase_of_mem hlists.self_mem] at hcard
  have hpositive : 0 < members.card := Finset.card_pos.mpr ⟨_, hlists.self_mem⟩
  have hlength : config.peers.length = config.peerIds.length := by simp [peerIds]
  unfold clusterSize
  omega

/-- As many distinct members as a configuration's majority are a quorum. -/
theorem Lists.isQuorum {config : Config} {members voters : Finset ServerId}
    (hlists : config.Lists members) (hsubset : voters ⊆ members)
    (hcard : config.majority ≤ voters.card) : IsQuorum members voters := by
  refine ⟨hsubset, ?_⟩
  unfold majority at hcard
  rw [hlists.clusterSize_eq] at hcard
  omega

/-! ## Validated configurations -/

/-- The servers that a configuration names, its own among them. -/
def members (config : Config) : Finset ServerId :=
  insert config.serverId config.peerIds.toFinset

theorem mem_members {config : Config} {server : ServerId} :
    server ∈ config.members ↔ server = config.serverId ∨ server ∈ config.peerIds := by
  simp [members]

/-- Validation refuses what would make the list of peers longer than the set of the others. -/
theorem lists_members {config : Config} (h : config.validate = .ok ()) :
    config.Lists config.members := by
  refine ⟨mem_members.mpr (.inl rfl), nodup_of_validate h, fun server => ?_⟩
  rw [mem_members]
  constructor
  · intro hpeer
    exact ⟨.inr hpeer, fun heq => self_notMem_of_validate h (heq ▸ hpeer)⟩
  · rintro ⟨rfl | hpeer, hother⟩
    · exact absurd rfl hother
    · exact hpeer

/-- A server that lists the others of a cluster asks for more than half of it. -/
theorem Lists.majority_eq {config : Config} {members : Finset ServerId}
    (hlists : config.Lists members) : config.majority = members.card / 2 + 1 := by
  rw [majority, hlists.clusterSize_eq]

/-- Validation accepts exactly the sound configurations. Where it accepts those of
servers that name one set of members, all of them ask for the same majority, which is
that of the set, and sets of members that reach it share a member. -/
theorem validated_majorities_meet :
    (∀ config : Config, config.validate = .ok () ↔ config.Sound) ∧
    ∀ {ι : Type} (configs : ι → Config) (members : Finset ServerId),
      (∀ i, (configs i).validate = .ok ()) → (∀ i, (configs i).members = members) →
        (∀ i, (configs i).majority = members.card / 2 + 1) ∧
        ∀ i j, ∀ first ⊆ members, ∀ second ⊆ members,
          (configs i).majority ≤ first.card → (configs j).majority ≤ second.card →
            ∃ server, server ∈ first ∧ server ∈ second := by
  refine ⟨fun _ => validate_eq_ok, fun {ι} configs members hvalid hmembers => ?_⟩
  have hlists (i : ι) : (configs i).Lists members := hmembers i ▸ lists_members (hvalid i)
  refine ⟨fun i => (hlists i).majority_eq, ?_⟩
  intro i j first hfirst second hsecond hfirstCard hsecondCard
  exact ((hlists i).isQuorum hfirst hfirstCard).exists_mem_both
    ((hlists j).isQuorum hsecond hsecondCard)

namespace Quartet

/-- Four servers of which one has a channel; each lists the others in an order of its own. -/
def config : Fin 4 → Config
  | 0 => { serverId := 1, peers := [⟨2, ""⟩, ⟨3, "a"⟩, ⟨4, ""⟩] }
  | 1 => { serverId := 2, peers := [⟨4, ""⟩, ⟨3, "a"⟩, ⟨1, ""⟩] }
  | 2 => { serverId := 3, peers := [⟨1, ""⟩, ⟨2, ""⟩, ⟨4, ""⟩] }
  | 3 => { serverId := 4, peers := [⟨3, "a"⟩, ⟨2, ""⟩, ⟨1, ""⟩] }

end Quartet

/-- Two of the four are no majority, so three and three have two in common. -/
theorem validated_majorities_meet_quartet :
    (∀ i, (Quartet.config i).validate = .ok ()) ∧
    (∀ i, (Quartet.config i).members = {1, 2, 3, 4}) ∧
    (∀ i, (Quartet.config i).majority = 3) ∧
    ∃ server, server ∈ ({1, 2, 4} : Finset ServerId) ∧ server ∈ ({2, 3, 4} : Finset ServerId) := by
  have hvalid : ∀ i, (Quartet.config i).validate = .ok () := by decide
  have hmembers : ∀ i, (Quartet.config i).members = {1, 2, 3, 4} := by decide
  obtain ⟨hmajority, hmeet⟩ := validated_majorities_meet.2 Quartet.config _ hvalid hmembers
  exact ⟨hvalid, hmembers, hmajority,
    hmeet 0 2 _ (by decide) _ (by decide) (by decide) (by decide)⟩

end Config

end Consensus
