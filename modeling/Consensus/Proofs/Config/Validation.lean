import Consensus.Config.Membership
import Consensus.Proofs.Results
import Mathlib.Data.List.Nodup

/-! # Accepted configurations

The scan over the peers stops at its first fault and remembers what it has met. It
reaches the end exactly when the peers are other servers, each listed once and on a
channel of its own, and none of them was met before.
-/

namespace Consensus.Config

/-! ## Values met once -/

section Fresh

variable {α : Type} {met values : List α} {value : α}

/-- No value is repeated, and none was met before. -/
structure Fresh (met values : List α) : Prop where
  distinct : values.Nodup
  unmet : ∀ value ∈ values, value ∉ met

theorem fresh_nil : Fresh met [] := ⟨List.nodup_nil, fun _ h => absurd h List.not_mem_nil⟩

/-- The first of the values counts as met for those behind it. -/
theorem fresh_cons : Fresh met (value :: values) ↔ value ∉ met ∧ Fresh (value :: met) values := by
  constructor
  · rintro ⟨hdistinct, hunmet⟩
    obtain ⟨hnew, hdistinct⟩ := List.nodup_cons.mp hdistinct
    obtain ⟨hvalue, hunmet⟩ := List.forall_mem_cons.mp hunmet
    refine ⟨hvalue, hdistinct, fun other hother hmet => ?_⟩
    rcases List.mem_cons.mp hmet with rfl | hmet
    · exact hnew hother
    · exact hunmet other hother hmet
  · rintro ⟨hvalue, hdistinct, hunmet⟩
    refine ⟨List.nodup_cons.mpr ⟨fun hagain => ?_, hdistinct⟩,
      List.forall_mem_cons.mpr ⟨hvalue, fun other hother hmet => ?_⟩⟩
    · exact hunmet value hagain List.mem_cons_self
    · exact hunmet other hother (List.mem_cons_of_mem _ hmet)

/-- It does not matter whether a value that does not occur was met. -/
theorem fresh_of_notMem (h : value ∉ values) : Fresh (value :: met) values ↔ Fresh met values := by
  refine ⟨fun hfresh => ?_, fun hfresh => ?_⟩
  · exact ⟨hfresh.distinct, fun other hother hmet =>
      hfresh.unmet other hother (List.mem_cons_of_mem _ hmet)⟩
  · refine ⟨hfresh.distinct, fun other hother hmet => ?_⟩
    rcases List.mem_cons.mp hmet with rfl | hmet
    · exact h hother
    · exact hfresh.unmet other hother hmet

end Fresh

/-! ## The scan over the peers -/

/-- The channels of the peers that have one, in order. -/
def namedChannels (peers : List Peer) : List String :=
  (peers.map Peer.channel).filter (· ≠ "")

/-- The peers can follow on those whose identifiers and channels were met. -/
structure Admits (serverId : ServerId) (ids : List ServerId) (channels : List String)
    (peers : List Peer) : Prop where
  others : ∀ peer ∈ peers, peer.id ≠ serverId
  ids : Fresh ids (peers.map Peer.id)
  channels : Fresh channels (namedChannels peers)

section Scan

variable {serverId : ServerId} {ids : List ServerId} {channels : List String}
variable {peer : Peer} {rest : List Peer}

/-- A peer's channel has to be a new one only if the peer has one. -/
theorem fresh_namedChannels_cons :
    Fresh channels (namedChannels (peer :: rest)) ↔
      ¬(peer.channel ≠ "" ∧ peer.channel ∈ channels) ∧
        Fresh (peer.channel :: channels) (namedChannels rest) := by
  by_cases hnamed : peer.channel = ""
  · have hsame : namedChannels (peer :: rest) = namedChannels rest := by
      simp [namedChannels, hnamed]
    have hnot : peer.channel ∉ namedChannels rest := by simp [namedChannels, hnamed]
    rw [hsame, fresh_of_notMem hnot]
    simp [hnamed]
  · have hmore : namedChannels (peer :: rest) = peer.channel :: namedChannels rest := by
      simp [namedChannels, hnamed]
    simp [hmore, fresh_cons, hnamed]

/-- A peer is admitted if neither it nor its channel was met before, and the rest then is. -/
theorem admits_cons :
    Admits serverId ids channels (peer :: rest) ↔
      peer.id ≠ serverId ∧ peer.id ∉ ids ∧ ¬(peer.channel ≠ "" ∧ peer.channel ∈ channels) ∧
        Admits serverId (peer.id :: ids) (peer.channel :: channels) rest := by
  constructor
  · intro h
    obtain ⟨hself, hothers⟩ := List.forall_mem_cons.mp h.others
    obtain ⟨hunmet, hids⟩ := fresh_cons.mp h.ids
    obtain ⟨hclear, hchannels⟩ := fresh_namedChannels_cons.mp h.channels
    exact ⟨hself, hunmet, hclear, hothers, hids, hchannels⟩
  · rintro ⟨hself, hunmet, hclear, hothers, hids, hchannels⟩
    exact ⟨List.forall_mem_cons.mpr ⟨hself, hothers⟩, fresh_cons.mpr ⟨hunmet, hids⟩,
      fresh_namedChannels_cons.mpr ⟨hclear, hchannels⟩⟩

/-- The check of the peers passes just when it admits them. -/
theorem checkPeers_eq_ok {peers : List Peer} :
    checkPeers serverId ids channels peers = .ok () ↔ Admits serverId ids channels peers := by
  induction peers generalizing ids channels with
  | nil => exact ⟨fun _ => ⟨by simp, fresh_nil, fresh_nil⟩, fun _ => rfl⟩
  | cons peer rest ih =>
    rw [admits_cons, ← ih, checkPeers]
    split
    next hself => simp [hself]
    next hself =>
      split
      next hmet => simp [hmet]
      next hunmet =>
        split
        next htaken => simp [htaken]
        next hclear => simp [hself, hunmet, hclear]

end Scan

/-! ## The whole check -/

variable {config : Config}

/-- The check of the timings passes just when none of them is out of order. -/
theorem checkTimings_eq_ok :
    config.checkTimings = .ok () ↔
      0 < config.heartbeatInterval ∧ config.heartbeatInterval < config.electionTimeoutMin ∧
        config.electionTimeoutMin ≤ config.electionTimeoutMax ∧
        0 < config.maxMessagesPerTick ∧ 0 < config.sendAttempts := by
  unfold checkTimings
  split_ifs <;> simp <;> omega

/-- Validation accepts exactly the sound configurations. -/
theorem validate_eq_ok : config.validate = .ok () ↔ config.Sound := by
  have hnothing {α : Type} {values : List α} : Fresh [] values ↔ values.Nodup :=
    ⟨Fresh.distinct, fun h => ⟨h, fun _ _ => List.not_mem_nil⟩⟩
  have hself : (∀ peer ∈ config.peers, peer.id ≠ config.serverId) ↔
      config.serverId ∉ config.peerIds := by simp [peerIds]
  rw [validate, bind_eq_ok]
  constructor
  · rintro ⟨_, htimings, hpeers⟩
    obtain ⟨hpositive, hbelow, hordered, hmessages, hattempts⟩ := checkTimings_eq_ok.mp htimings
    obtain ⟨hothers, hids, hchannels⟩ := checkPeers_eq_ok.mp hpeers
    exact ⟨hpositive, hbelow, hordered, hmessages, hattempts, hself.mp hothers,
      hnothing.mp hids, hnothing.mp hchannels⟩
  · rintro ⟨hpositive, hbelow, hordered, hmessages, hattempts, hothers, hids, hchannels⟩
    exact ⟨(), checkTimings_eq_ok.mpr ⟨hpositive, hbelow, hordered, hmessages, hattempts⟩,
      checkPeers_eq_ok.mpr ⟨hself.mpr hothers, hnothing.mpr hids, hnothing.mpr hchannels⟩⟩

/-- A valid configuration does not list its own server. -/
theorem self_notMem_of_validate (h : config.validate = .ok ()) :
    config.serverId ∉ config.peerIds :=
  (validate_eq_ok.mp h).self_not_peer

/-- A valid configuration lists no peer twice. -/
theorem nodup_of_validate (h : config.validate = .ok ()) : config.peerIds.Nodup :=
  (validate_eq_ok.mp h).ids_distinct

end Consensus.Config
