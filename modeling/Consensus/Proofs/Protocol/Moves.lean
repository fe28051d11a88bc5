import Consensus.Proofs.Protocol.View
import Consensus.Proofs.Wire.Exact
import Mathlib.Logic.Relation

/-! # What moves keep

What one move keeps, any number of them keep: the vote of a term, what is committed and
what was handed out. None of it rests on what other servers do or say.
-/

namespace Consensus

namespace Entries

theorem Holds.index_ge {log : Entries} {key : LogKey} (h : log.Holds key) :
    nullIndex ≤ key.index := by
  rcases h with hnull | ⟨entry, hread, _⟩
  · exact Int.le_of_eq hnull.symm
  · exact Int.le_trans (by decide) (bounds_of_read? hread).1

theorem Holds.index_lt {log : Entries} {key : LogKey} (h : log.Holds key) :
    key.index < log.length := by
  rcases h with hnull | ⟨entry, hread, _⟩
  · have hfirst : key.index = -1 := hnull
    lia
  · exact (bounds_of_read? hread).2

/-- What a request vouches for lies within a log that reflects it. -/
theorem Reflects.lastNewIndex_lt {log : Entries} {request : AppendRequest}
    (h : log.Reflects request) : request.lastNewIndex < log.length := by
  unfold AppendRequest.lastNewIndex
  split
  next entry hentry => exact (h.holds_entry entry hentry).2.index_lt
  next => exact h.holds_prev.index_lt

/-- A log that reflects a request has an entry of the request's term in the place of the one
that the request carries. -/
theorem Reflects.read?_entry {log : Entries} {request : AppendRequest} (h : log.Reflects request)
    {entry : PlacedEntry} (hentry : request.entry = some entry) :
    ∃ stored, log.read? entry.index = some stored ∧ stored.term = entry.term := by
  obtain ⟨hindex, hnull | hread⟩ := h.holds_entry entry hentry
  -- Nothing stands in front of the position in front of the first entry.
  · have hfirst : entry.index = -1 := hnull
    rcases h.holds_prev with hprev | ⟨_, hread, _⟩
    · have hprev_first : request.prevLogEntry.index = -1 := hprev
      lia
    · have := (bounds_of_read? hread).1
      lia
  · exact hread

end Entries

theorem Delivery.eq_of_index_eq {one other : Delivery} (hindex : one.index = other.index)
    (hcommand : one.command = other.command) : one = other := by
  cases one
  cases other
  simp_all

namespace View

variable {intake : Intake} {view next earlier later : View}

/-- Any number of moves of a server that is given `intake`. -/
abbrev Moves (intake : Intake) : View → View → Prop := Relation.ReflTransGen (Move intake)

theorem Moves.config_eq (h : earlier.Moves intake later) : later.config = earlier.config := by
  induction h with
  | refl => rfl
  | tail _ hmove ih => exact hmove.config_eq.trans ih

theorem Moves.id_eq (h : earlier.Moves intake later) : later.id = earlier.id :=
  congrArg Config.serverId h.config_eq

/-! ## Votes -/

/-- The later view is of no older term, and within one term it has the vote that was given. -/
structure Remembers (later earlier : View) : Prop where
  term_le : earlier.term ≤ later.term
  votedFor_eq : later.term = earlier.term → ∀ candidate, earlier.votedFor = some candidate →
    later.votedFor = some candidate

theorem Remembers.refl (view : View) : view.Remembers view :=
  ⟨Int.le_refl _, fun _ _ hvote => hvote⟩

theorem Remembers.trans {middle : View} (h : middle.Remembers earlier)
    (hnext : later.Remembers middle) : later.Remembers earlier := by
  refine ⟨Int.le_trans h.term_le hnext.term_le, fun hterm candidate hvote => ?_⟩
  have hmiddle : middle.term = earlier.term :=
    Int.le_antisymm (hterm ▸ hnext.term_le) h.term_le
  exact hnext.votedFor_eq (hterm.trans hmiddle.symm) candidate
    (h.votedFor_eq hmiddle candidate hvote)

/-- A move forgets no term and no vote given in it. -/
theorem Move.remembers (hmove : view.Move intake next) : next.Remembers view :=
  ⟨hmove.term_le, fun hterm _ => hmove.votedFor_eq hterm⟩

theorem Moves.remembers (h : earlier.Moves intake later) : later.Remembers earlier := by
  induction h with
  | refl => exact .refl _
  | tail _ hmove ih => exact ih.trans hmove.remembers

/-- Two views of one server, whichever is the later one, do not differ in the vote of a term. -/
def Agrees (one other : View) : Prop :=
  one.term = other.term → ∀ candidate also, one.votedFor = some candidate →
    other.votedFor = some also → candidate = also

instance : Std.Symm Agrees :=
  ⟨fun _ _ h hterm _ _ hvote hother => (h hterm.symm _ _ hother hvote).symm⟩

theorem Agrees.refl (view : View) : view.Agrees view :=
  fun _ _ _ hvote hother => Option.some.inj (hvote.symm.trans hother)

theorem Remembers.agrees (h : later.Remembers earlier) : earlier.Agrees later := by
  intro hterm candidate also hvote hother
  have hkept := h.votedFor_eq hterm.symm candidate hvote
  exact Option.some.inj (hkept.symm.trans hother)

/-- Only an election of its own takes a server to a newer term while it receives nothing. -/
theorem Moves.votedFor_self (hquiet : ∀ sender message, ¬ intake.received sender message)
    (h : earlier.Moves intake later) (hnewer : earlier.term < later.term) :
    later.votedFor = some later.id := by
  induction h with
  | refl => exact absurd hnewer (Int.lt_irrefl _)
  | @tail middle last hmoves hmove ih =>
    by_cases hterm : last.term = middle.term
    · rw [hmove.id_eq]
      exact hmove.votedFor_eq hterm (ih (hterm ▸ hnewer))
    · cases hmove with
      | adopt harrived => exact absurd harrived (hquiet _ _)
      | campaign => rfl
      | _ => exact absurd rfl hterm

/-! ## Commitment -/

/-- What is applied is committed, what is committed is in the log, and the state machine was
handed the commands of the applied entries, each index once and in order. -/
structure Orderly (view : View) : Prop where
  applied_ge : nullIndex ≤ view.lastApplied
  applied_le : view.lastApplied ≤ view.commitIndex
  commit_lt : view.commitIndex < view.log.length
  indices_eq : view.deliveries.map Delivery.index =
    (List.range (view.lastApplied + 1).toNat).map Nat.cast
  decoded : ∀ delivery ∈ view.deliveries, ∃ entry,
    view.log.read? delivery.index = some entry ∧
      Command.decode entry.command = .ok delivery.command

/-- The later view has committed no less, over the same committed entries, and has handed out
what the earlier one has, and perhaps more. -/
structure Keeps (later earlier : View) : Prop where
  commit_le : earlier.commitIndex ≤ later.commitIndex
  read?_eq : ∀ index, index ≤ earlier.commitIndex →
    later.log.read? index = earlier.log.read? index
  deliveries_isPrefix : earlier.deliveries <+: later.deliveries

/-- A server that has committed nothing is orderly. -/
theorem orderly_of_null (happlied : view.lastApplied = nullIndex)
    (hcommit : view.commitIndex = nullIndex) (hdeliveries : view.deliveries = []) :
    view.Orderly := by
  have hnull : nullIndex < (view.log.length : Int) :=
    Int.lt_of_lt_of_le (by decide) (Int.natCast_nonneg _)
  refine ⟨Int.le_of_eq happlied.symm, Int.le_of_eq (happlied.trans hcommit.symm),
    hcommit ▸ hnull, ?_, by simp [hdeliveries]⟩
  rw [happlied, hdeliveries]
  rfl

theorem Orderly.index_le (h : view.Orderly) {delivery : Delivery}
    (hdelivery : delivery ∈ view.deliveries) : delivery.index ≤ view.lastApplied := by
  have hindex := List.mem_map_of_mem (f := Delivery.index) hdelivery
  rw [h.indices_eq] at hindex
  obtain ⟨place, hplace, heq⟩ := List.mem_map.mp hindex
  have := List.mem_range.mp hplace
  lia

/-- What was handed out is known from the log and from how far it is applied. -/
theorem Orderly.deliveries_eq {other : View} (h : view.Orderly) (hother : other.Orderly)
    (hlog : view.log = other.log) (happlied : view.lastApplied = other.lastApplied) :
    view.deliveries = other.deliveries := by
  have hindices : view.deliveries.map Delivery.index = other.deliveries.map Delivery.index := by
    rw [h.indices_eq, hother.indices_eq, happlied]
  have hlength : view.deliveries.length = other.deliveries.length := by
    simpa using congrArg List.length hindices
  refine List.ext_getElem hlength fun place hplace hplace_other => ?_
  obtain ⟨entry, hread, hdecode⟩ := h.decoded _ (List.getElem_mem hplace)
  obtain ⟨also, hread_other, hdecode_other⟩ := hother.decoded _ (List.getElem_mem hplace_other)
  have hget := List.getElem_of_eq hindices (by simpa using hplace)
  rw [List.getElem_map, List.getElem_map] at hget
  rw [hlog, hget, hread_other] at hread
  obtain rfl := Option.some.inj hread
  exact Delivery.eq_of_index_eq hget (Except.ok.inj (hdecode.symm.trans hdecode_other))

/-- Another log can take the place of one when it has the same committed entries. -/
theorem Orderly.with_log (h : view.Orderly) {log : Entries}
    (hlength : view.commitIndex < log.length)
    (hread : ∀ index, index ≤ view.commitIndex → log.read? index = view.log.read? index) :
    { view with log }.Orderly := by
  refine { h with commit_lt := hlength, decoded := fun delivery hdelivery => ?_ }
  obtain ⟨entry, hentry, hdecode⟩ := h.decoded delivery hdelivery
  have hcommitted := Int.le_trans (h.index_le hdelivery) h.applied_le
  exact ⟨entry, (hread _ hcommitted).trans hentry, hdecode⟩

theorem Orderly.with_commitIndex (h : view.Orderly) {index : Index}
    (hraise : view.commitIndex < index) (hindex : index < view.log.length) :
    { view with commitIndex := index }.Orderly :=
  { h with
    applied_le := Int.le_of_lt (Int.lt_of_le_of_lt h.applied_le hraise)
    commit_lt := hindex }

/-- The entry behind the last applied one is handed out in order. -/
theorem Orderly.deliver (h : view.Orderly) {entry : Entry} {command : Command}
    (hdue : view.lastApplied < view.commitIndex)
    (hread : view.log.read? (view.lastApplied + 1) = some entry)
    (hdecode : Command.decode entry.command = .ok command) :
    Orderly { view with
      lastApplied := view.lastApplied + 1
      deliveries := view.deliveries ++ [⟨view.lastApplied + 1, command⟩] } := by
  have hlow : -1 ≤ view.lastApplied := h.applied_ge
  have hcount : (view.lastApplied + 1 + 1).toNat = (view.lastApplied + 1).toNat + 1 := by lia
  have hindex : (((view.lastApplied + 1).toNat : Nat) : Int) = view.lastApplied + 1 := by lia
  refine { h with applied_ge := ?_, applied_le := hdue, indices_eq := ?_, decoded := ?_ }
  · exact Int.le_trans h.applied_ge (Int.le_add_of_nonneg_right (by decide))
  · rw [hcount, List.range_succ, List.map_append, List.map_append, h.indices_eq]
    simp [hindex]
  · intro delivery hdelivery
    rcases List.mem_append.mp hdelivery with hold | hnew
    · exact h.decoded delivery hold
    · rw [List.mem_singleton.mp hnew]
      exact ⟨entry, hread, hdecode⟩

/-- The next entry that is due is in the log. -/
theorem Orderly.exists_due (h : view.Orderly) (hdue : view.lastApplied < view.commitIndex) :
    ∃ entry, view.log.read? (view.lastApplied + 1) = some entry := by
  have hlow : -1 ≤ view.lastApplied := h.applied_ge
  have hhigh := h.commit_lt
  have hplace : (view.lastApplied + 1).toNat < view.log.length := by lia
  exact ⟨_, Entries.read?_eq_some_iff.mpr ⟨by lia, List.getElem?_eq_getElem hplace⟩⟩

/-- A move changes no committed entry. -/
theorem Move.committed_log (h : view.Orderly) (hmove : view.Move intake next) :
    view.commitIndex < next.log.length ∧
      ∀ index, index ≤ view.commitIndex → next.log.read? index = view.log.read? index := by
  have hlonger : ∀ entry : Entry, view.commitIndex < (view.log ++ [entry]).length ∧
      ∀ index, index ≤ view.commitIndex →
        Entries.read? (view.log ++ [entry]) index = view.log.read? index := by
    intro entry
    have hbegins : view.log <+: view.log ++ [entry] := List.prefix_append _ _
    have hlength := hbegins.length_le
    have hcommit := h.commit_lt
    exact ⟨by lia, fun index hindex =>
      Entries.read?_eq_of_isPrefix hbegins (Int.lt_of_le_of_lt hindex hcommit)⟩
  rcases hmove.log_cases with hsame | ⟨_, _, _, _, _, hextended⟩ |
    ⟨_, _, _, _, ⟨place, _, hopen, hcut⟩ | ⟨_, _, _, _, _, hplaced⟩⟩
  · rw [hsame]
    exact ⟨h.commit_lt, fun _ _ => rfl⟩
  · rw [hextended]
    exact hlonger _
  -- What is dropped lies behind the commit index.
  · rw [hcut]
    have hbegins : view.log.take place.toNat <+: view.log := List.take_prefix _ _
    have hlength : view.commitIndex < (view.log.take place.toNat).length := by
      have := h.commit_lt
      rw [List.length_take]
      lia
    exact ⟨hlength, fun index hindex =>
      (Entries.read?_eq_of_isPrefix hbegins (Int.lt_of_le_of_lt hindex hlength)).symm⟩
  · rw [hplaced]
    exact hlonger _

/-- A move keeps the order in which commands are handed out. -/
theorem Move.orderly (h : view.Orderly) (hmove : view.Move intake next) : next.Orderly := by
  have hlog := hmove.committed_log h
  cases hmove with
  | extend => exact h.with_log hlog.1 hlog.2
  | truncate => exact h.with_log hlog.1 hlog.2
  | place => exact h.with_log hlog.1 hlog.2
  | commit _ hraise hterm =>
    refine h.with_commitIndex hraise ?_
    rcases Entries.termAt?_eq_some hterm with hnull | ⟨entry, hread, _⟩
    · have hlow := Int.le_trans h.applied_ge h.applied_le
      exact absurd hraise (Int.not_lt.mpr (hnull ▸ hlow))
    · exact (Entries.bounds_of_read? hread).2
  | followCommit _ hreflects hraise =>
    exact h.with_commitIndex hraise
      (Int.lt_of_le_of_lt (Int.min_le_right _ _) hreflects.lastNewIndex_lt)
  | deliver hdue hread hdecode => exact h.deliver hdue hread hdecode
  | restart => exact orderly_of_null rfl rfl rfl
  | _ => exact ⟨h.applied_ge, h.applied_le, h.commit_lt, h.indices_eq, h.decoded⟩

/-- A move keeps what is committed, unless the server restarts. -/
theorem Move.keeps (h : view.Orderly) (hsteady : ¬ intake.restarted)
    (hmove : view.Move intake next) : next.Keeps view := by
  refine ⟨?_, (hmove.committed_log h).2, ?_⟩
  · cases hmove with
    | commit _ hraise => exact Int.le_of_lt hraise
    | followCommit _ _ hraise => exact Int.le_of_lt hraise
    | restart hrestarted => exact absurd hrestarted hsteady
    | _ => exact Int.le_refl _
  · cases hmove with
    | deliver => exact List.prefix_append _ _
    | restart hrestarted => exact absurd hrestarted hsteady
    | _ => exact List.prefix_rfl

theorem Keeps.refl (view : View) : view.Keeps view :=
  ⟨Int.le_refl _, fun _ _ => rfl, List.prefix_rfl⟩

theorem Keeps.trans {middle : View} (h : middle.Keeps earlier) (hnext : later.Keeps middle) :
    later.Keeps earlier := by
  refine ⟨Int.le_trans h.commit_le hnext.commit_le, fun index hindex => ?_,
    h.deliveries_isPrefix.trans hnext.deliveries_isPrefix⟩
  exact (hnext.read?_eq index (Int.le_trans hindex h.commit_le)).trans (h.read?_eq index hindex)

theorem Moves.orderly (h : earlier.Orderly) (hmoves : earlier.Moves intake later) :
    later.Orderly := by
  induction hmoves with
  | refl => exact h
  | tail _ hmove ih => exact hmove.orderly ih

theorem Moves.keeps (h : earlier.Orderly) (hsteady : ¬ intake.restarted)
    (hmoves : earlier.Moves intake later) : later.Keeps earlier := by
  induction hmoves with
  | refl => exact .refl _
  | tail hmoves hmove ih => exact ih.trans (hmove.keeps (Moves.orderly h hmoves) hsteady)

/-- From an orderly view on, all stays orderly and is kept. -/
def RunsOn (earlier later : View) : Prop :=
  earlier.Orderly → later.Orderly ∧ later.Keeps earlier

theorem RunsOn.trans {middle : View} (h : earlier.RunsOn middle) (hnext : middle.RunsOn later) :
    earlier.RunsOn later := by
  intro horderly
  obtain ⟨hmiddle, hkeeps⟩ := h horderly
  obtain ⟨hlater, hkeeps_next⟩ := hnext hmiddle
  exact ⟨hlater, hkeeps.trans hkeeps_next⟩

/-! ## Entries -/

/-- While it receives nothing, a server takes nothing out of its log. -/
theorem Moves.log_isPrefix (hquiet : ∀ sender message, ¬ intake.received sender message)
    (h : earlier.Moves intake later) : earlier.log <+: later.log := by
  induction h with
  | refl => exact List.prefix_rfl
  | tail _ hmove ih =>
    rcases hmove.log_cases with hsame | ⟨_, _, _, _, _, hextended⟩ | ⟨_, hheeds, _⟩
    · rwa [hsame]
    · rw [hextended]
      exact ih.trans (List.prefix_append _ _)
    · obtain ⟨sender, harrived⟩ := hheeds.arrived
      exact absurd harrived (hquiet sender _)

/-- What holds of the entries of a log, of those that a server receives and of those that are
submitted holds of whatever is in the log later. -/
theorem Moves.read?_induction {property : Index → Entry → Prop}
    (hreceived : ∀ sender request entry, intake.received sender (.appendRequest request) →
      request.entry = some entry → property entry.index ⟨entry.term, entry.command⟩)
    (hsubmitted : ∀ (log : Entries) term command, intake.submitted log command →
      property log.length ⟨term, command⟩)
    (h : earlier.Moves intake later)
    (hstart : ∀ index entry, earlier.log.read? index = some entry → property index entry) :
    ∀ index entry, later.log.read? index = some entry → property index entry := by
  induction h with
  | refl => exact hstart
  | @tail middle last _ hmove ih =>
    intro index entry hread
    rcases hmove.log_cases with hsame | ⟨_, _, _, command, hgiven, hextended⟩ |
      ⟨request, hheeds, _, _, ⟨place, _, _, hcut⟩ | ⟨placed, hentry, _, _, hend, hplaced⟩⟩
    · exact ih index entry (hsame ▸ hread)
    · rw [hextended] at hread
      rcases Entries.read?_concat hread with hold | ⟨rfl, rfl⟩
      · exact ih index entry hold
      · exact hsubmitted middle.log middle.term command hgiven
    · rw [hcut] at hread
      exact ih index entry (Entries.read?_of_isPrefix (List.take_prefix _ _) hread)
    · rw [hplaced] at hread
      rcases Entries.read?_concat hread with hold | ⟨hindex, rfl⟩
      · exact ih index entry hold
      · obtain ⟨sender, harrived⟩ := hheeds.arrived
        rw [hindex, hend]
        exact hreceived sender request placed harrived hentry

/-- What the intake gives can be applied once it is in a log. -/
structure Intake.Legible (intake : Intake) : Prop where
  received : ∀ sender message, intake.received sender message → message.Carried
  submitted : ∀ log command, intake.submitted log command → Command.Decodes command

/-- A log that can be applied takes in nothing else. -/
theorem Moves.decodes (hlegible : intake.Legible) (h : earlier.Moves intake later)
    (hstart : ∀ entry ∈ earlier.log, Command.Decodes entry.command) :
    ∀ entry ∈ later.log, Command.Decodes entry.command := by
  have hread : ∀ index entry, later.log.read? index = some entry →
      Command.Decodes entry.command := by
    refine h.read?_induction ?_ ?_ fun _ _ hread => hstart _ (Entries.mem_of_read? hread)
    · intro sender request entry harrived hentry
      exact hlegible.received sender _ harrived request entry rfl hentry
    · exact fun log _ command hgiven => hlegible.submitted log command hgiven
  intro entry hentry
  obtain ⟨index, hentry_read⟩ := Entries.exists_read?_of_mem hentry
  exact hread index entry hentry_read

end View

end Consensus
