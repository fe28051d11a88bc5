import Consensus.Proofs.Turn.Trace
import Consensus.Server.Following

/-! # Followers trace the protocol

A follower changes its log only where a leader's request asks for it, and not below its
commit index. What it acknowledges is what its log reflects at that moment.
-/

namespace Consensus

variable {σ : Type} [Store σ] [LawfulStore σ] {intake : View.Intake} {first turn : Turn σ}
variable {request : AppendRequest}

/-! ## Changes of the log -/

namespace Turn

/-- A suffix that contradicts the leader is dropped along the protocol. -/
theorem Trace.truncate (h : Trace intake first turn)
    (hheeds : turn.server.view.Heeds intake request) {index : Index}
    (hcontra : turn.server.view.log.Contradicts request index)
    (hopen : turn.server.commitIndex < index) {shorter : Log σ}
    (hok : turn.server.log.truncate index = .ok shorter) :
    Trace intake first { turn with
      server := { turn.server with durable := { turn.server.durable with log := shorter } } } ∧
      shorter.Coherent ∧ shorter.entries = turn.server.log.entries.take index.toNat := by
  have hcoherent := h.coherent
  have hnonneg : 0 ≤ index := by
    have := hcoherent.commit_ge
    simp only [nullIndex] at this
    lia
  obtain ⟨hshorter, hentries, hload⟩ := hcoherent.durable.log.truncate_ok hnonneg hok
  have hmove : turn.server.view.Move intake { turn.server.view with log := shorter.entries } := by
    rw [hentries]
    exact .truncate hheeds hcontra hopen
  refine ⟨h.move hmove ?_, hshorter, hentries⟩
  exact { hcoherent with durable := hcoherent.durable.with_log hshorter hload }

/-- An entry that is put at the end of the log is there afterwards. -/
theorem Trace.place (h : Trace intake first turn)
    (hheeds : turn.server.view.Heeds intake request) {entry : PlacedEntry}
    (hentry : request.entry = some entry)
    (hprev : turn.server.view.log.Holds request.prevLogEntry)
    (hindex : entry.index = request.prevLogEntry.index + 1) (placement : Placement) :
    Trace intake first { turn with
      server := { turn.server with durable := { turn.server.durable with
        log := (turn.server.log.place entry placement).1 } } } ∧
      ∀ placed, (turn.server.log.place entry placement).2 = .ok placed →
        Entries.Reflects (turn.server.log.place entry placement).1.entries request := by
  unfold Log.place
  cases hextend : turn.server.log.extend entry.index ⟨entry.term, entry.command⟩ with
  | error cause => exact ⟨h, fun _ herror => nomatch herror⟩
  | ok longer =>
    have hcoherent := h.coherent
    obtain ⟨hlonger, hend, hentries, hload⟩ := hcoherent.durable.log.extend_ok hextend
    have hmove : turn.server.view.Move intake { turn.server.view with log := longer.entries } := by
      rw [hentries]
      exact .place hheeds hentry hprev hindex hend.symm
    refine ⟨h.move hmove ?_, fun _ _ => ⟨?_, ?_⟩⟩
    · exact { hcoherent with durable := hcoherent.durable.with_log hlonger hload }
    · rw [hentries]
      exact hprev.of_isPrefix (List.prefix_append _ _)
    · intro other hother
      obtain rfl : entry = other := Option.some.inj (hentry.symm.trans hother)
      refine ⟨hindex, ?_⟩
      rw [hentries, PlacedEntry.key, hend]
      exact Entries.holds_concat _ _

/-- Whatever becomes of an entry that is taken over, the log goes from move to move. -/
theorem Trace.accept (h : Trace intake first turn)
    (hheeds : turn.server.view.Heeds intake request) {entry : PlacedEntry}
    (hentry : request.entry = some entry)
    (hprev : turn.server.view.log.Holds request.prevLogEntry)
    (hindex : entry.index = request.prevLogEntry.index + 1)
    (hopen : turn.server.log.standing entry.key = .conflicting →
      turn.server.commitIndex < entry.index) :
    Trace intake first { turn with
      server := { turn.server with durable := { turn.server.durable with
        log := (turn.server.log.accept entry).1 } } } ∧
      ∀ placed, (turn.server.log.accept entry).2 = .ok placed →
        Entries.Reflects (turn.server.log.accept entry).1.entries request := by
  unfold Log.accept
  cases hstanding : turn.server.log.standing entry.key with
  | held =>
    refine ⟨h, fun _ _ => ⟨hprev, fun other hother => ?_⟩⟩
    obtain rfl : entry = other := Option.some.inj (hentry.symm.trans hother)
    exact ⟨hindex, Log.standing_eq_held.mp hstanding⟩
  | beyond => exact h.place hheeds hentry hprev hindex .added
  | conflicting =>
    cases htruncate : turn.server.log.truncate entry.index with
    | error cause => exact ⟨h, fun _ herror => nomatch herror⟩
    | ok shorter =>
      have hcontra : turn.server.view.log.Contradicts request entry.index :=
        .entry hentry hindex (Log.conflicts_of_standing hstanding)
      obtain ⟨hcut, _, hentries⟩ := h.truncate hheeds hcontra (hopen hstanding) htruncate
      -- The previous entry stands in front of the cut.
      have hprev_cut : Entries.Holds shorter.entries request.prevLogEntry := by
        rw [hentries]
        exact hprev.take (by lia)
      exact hcut.place ⟨hheeds.arrived, hheeds.term_eq, hheeds.follows⟩ hentry hprev_cut hindex
        (.replaced entry.index)

end Turn

namespace Action

theorem refuseAppend_faithful (receiver : ServerId) :
    Faithful intake (refuseAppend receiver : Action σ Unit) := by
  intro first turn h
  unfold refuseAppend answerAppend
  simp only [ends_bind, ends_server, ends_post]
  exact h.post .decline

/-- An entry that fits behind what the log holds is taken over along the protocol. -/
theorem takeEntry_ends (h : Turn.Trace intake first turn)
    (hheeds : turn.server.view.Heeds intake request) {entry : PlacedEntry}
    (hentry : request.entry = some entry)
    (hprev : turn.server.view.log.Holds request.prevLogEntry)
    (hindex : entry.index = request.prevLogEntry.index + 1)
    (hopen : turn.server.log.standing entry.key = .conflicting →
      turn.server.commitIndex < entry.index) :
    (takeEntry entry).Ends
      (fun _ last => Turn.Trace intake first last ∧ last.server.view.Heeds intake request ∧
        last.server.view.log.Reflects request)
      (Turn.Trace intake first) turn := by
  unfold takeEntry
  simp only [ends_bind, ends_server, ends_modifyServer]
  obtain ⟨haccept, hreflects⟩ := h.accept hheeds hentry hprev hindex hopen
  split
  next placed hresult =>
    exact ⟨haccept, ⟨hheeds.arrived, hheeds.term_eq, hheeds.follows⟩, hreflects placed hresult⟩
  next => exact haccept

/-- A commit index that a request vouches for is followed. -/
theorem followCommit_ends (h : Turn.Trace intake first turn)
    (hheeds : turn.server.view.Heeds intake request)
    (hreflects : turn.server.view.log.Reflects request) :
    (followCommit request).Ends
      (fun _ last => Turn.Trace intake first last ∧ last.server.view.Heeds intake request ∧
        last.server.view.log.Reflects request)
      (Turn.Trace intake first) turn := by
  unfold followCommit
  rw [ends_modifyProgress]
  unfold Progress.raiseCommit
  split
  next hraise =>
    have hmove : turn.server.view.Move intake { turn.server.view with
        commitIndex := min request.leaderCommit request.lastNewIndex } :=
      .followCommit hheeds hreflects hraise
    have hcoherent := h.coherent
    refine ⟨h.move hmove ?_, ⟨hheeds.arrived, hheeds.term_eq, hheeds.follows⟩, hreflects⟩
    exact ⟨hcoherent.durable, Int.le_of_lt (Int.lt_of_le_of_lt hcoherent.commit_ge hraise),
      hcoherent.cursors_eq⟩
  next => exact ⟨h, hheeds, hreflects⟩

/-- What is accepted is reflected. -/
theorem acceptAppend_ends (h : Turn.Trace intake first turn)
    (hheeds : turn.server.view.Heeds intake request)
    (hprev : turn.server.view.log.Holds request.prevLogEntry) :
    (acceptAppend request).Ends
      (fun accepted last => Turn.Trace intake first last ∧
        last.server.view.Heeds intake request ∧
        (accepted = true → last.server.view.log.Reflects request))
      (Turn.Trace intake first) turn := by
  unfold acceptAppend
  split
  next hentry =>
    have hreflects : turn.server.view.log.Reflects request :=
      ⟨hprev, fun entry hsome => by simp [hentry] at hsome⟩
    rw [ends_bind]
    apply (followCommit_ends h hheeds hreflects).mono
    rintro _ last ⟨hlast, hstill, hkept⟩
    exact ⟨hlast, hstill, fun _ => hkept⟩
  next entry hentry =>
    simp only [ends_bind, ends_server]
    apply ends_ite
    · intro _
      exact ⟨h, hheeds, by simp⟩
    · intro htakes
      obtain ⟨hindex, hopen⟩ := not_or.mp htakes
      -- A committed entry is not replaced: the request was refused for it.
      have huncommitted : turn.server.log.standing entry.key = .conflicting →
          turn.server.commitIndex < entry.index :=
        fun hstanding => Int.not_le.mp fun hle => hopen ⟨hstanding, hle⟩
      rw [ends_bind]
      apply (takeEntry_ends h hheeds hentry hprev (Decidable.not_not.mp hindex) huncommitted).mono
      rintro _ middle ⟨hmiddle, hheeds, hreflects⟩
      rw [ends_bind]
      apply (followCommit_ends hmiddle hheeds hreflects).mono
      rintro _ last ⟨hlast, hstill, hkept⟩
      exact ⟨hlast, hstill, fun _ => hkept⟩

/-- What conflicts with the key in front of a request is dropped along the protocol. -/
theorem dropConflict_ends (h : Turn.Trace intake first turn)
    (hheeds : turn.server.view.Heeds intake request)
    (hconflicts : turn.server.view.log.Conflicts request.prevLogEntry) :
    (dropConflict request.prevLogEntry).Ends (fun _ last => Turn.Trace intake first last)
      (Turn.Trace intake first) turn := by
  unfold dropConflict
  simp only [ends_bind, ends_server]
  refine ends_ite (fun hopen => ?_) (fun _ => h)
  refine ends_changeDurable (fun durable hchange => ?_) h
  obtain ⟨shorter, htruncate, rfl⟩ := map_eq_ok.mp (mapError_eq_ok.mp hchange)
  exact (h.truncate hheeds (.prev hconflicts) hopen htruncate).1

/-- A server that does not lead answers append requests along the protocol. -/
theorem answerAppendRequest_ends {sender : ServerId} (h : Turn.Trace intake first turn)
    (harrived : intake.received sender (.appendRequest request))
    (hfollows : turn.server.role.isLeader = false) (hterm : request.term ≤ turn.server.term) :
    (answerAppendRequest sender request).Ends (fun _ last => Turn.Trace intake first last)
      (Turn.Trace intake first) turn := by
  unfold answerAppendRequest
  simp only [ends_bind, ends_server]
  refine ends_ite (fun _ => refuseAppend_faithful sender h) (fun hcurrent => ?_)
  have hheeds : turn.server.view.Heeds intake request :=
    ⟨⟨sender, harrived⟩, Int.le_antisymm hterm (Int.not_lt.mp hcurrent), hfollows⟩
  split
  next => exact refuseAppend_faithful sender h
  next hstanding =>
    rw [ends_bind]
    apply (dropConflict_ends h hheeds (Log.conflicts_of_standing hstanding)).mono
    intro _ last hlast
    exact refuseAppend_faithful sender hlast
  next hstanding =>
    rw [ends_bind]
    apply (acceptAppend_ends h hheeds (Log.standing_eq_held.mp hstanding)).mono
    rintro accepted last ⟨hlast, hheeds, hreflects⟩
    refine ends_ite (fun haccepted => ?_) (fun _ => refuseAppend_faithful sender hlast)
    exact hlast.post (.acknowledge harrived hheeds.term_eq (hreflects haccepted))

end Action

end Consensus
