import Consensus.Proofs.Ensemble.Recording
import Mathlib.Data.List.Nodup
import Mathlib.Data.Set.List

/-! # Where entries come from

Every entry of every log was made by one accepted submission, whose call found a leader of
the entry's term and put the command at the entry's index. Nothing that is copied between
servers, sent again or cut off makes an entry of its own.
-/

namespace Consensus

variable {σ : Type} [Store σ] [LawfulStore σ] {members : Finset ServerId}

/-- Whatever view a chronicle has seen is orderly. -/
theorem Chronicle.Reachable.orderly {chronicle : Chronicle} (h : Reachable members chronicle)
    {view : View} (hseen : view ∈ chronicle.seen) : view.Orderly := by
  have hlasting : Lasting fun _ (view : View) => view.Orderly := fun _ _ _ _ horderly => horderly
  refine h.recorded_views hlasting ?_ ?_ view hseen
  · intro chronicle view _ hfresh
    exact View.orderly_of_null hfresh.lastApplied_eq hfresh.commitIndex_eq hfresh.deliveries_eq
  · intro chronicle server next h hmember hold hmove
    exact hmove.orderly (hold _ (h.attended.present_seen server hmember))

namespace Ensemble

/-- One of the submissions made the entry. -/
def Attributed (accepted : List (Submission σ)) (index : Index) (entry : Entry) : Prop :=
  ∃ submission ∈ accepted, submission.Made index entry

/-- Whatever is in a log or on its way was submitted. -/
structure Accounted (members : Finset ServerId) (ensemble : Ensemble σ)
    (accepted : List (Submission σ)) : Prop where
  fits : ∀ submission ∈ accepted, submission.command.Fits
  logs : ∀ id ∈ members, ∀ index entry, (ensemble.servers id).log.read? index = some entry →
    Attributed accepted index entry
  frames : ∀ parcel ∈ ensemble.offered, ∀ request entry,
    Message.decode parcel.frame = .ok (.appendRequest request) → request.entry = some entry →
      Attributed accepted entry.index ⟨entry.term, entry.command⟩

variable {before : Ensemble σ} {accepted : List (Submission σ)} {id : ServerId} {call : Call}

omit [LawfulStore σ] in
theorem Attributed.mono {more : List (Submission σ)} {index : Index} {entry : Entry}
    (h : Attributed accepted index entry) : Attributed (more ++ accepted) index entry :=
  h.imp fun _ hmade => ⟨List.mem_append_right _ hmade.1, hmade.2⟩

/-! ## Calls -/

omit [LawfulStore σ] in
/-- A member whose log was submitted can apply what it commits. -/
theorem Accounted.ready (h : Accounted members before accepted) (hmember : id ∈ members)
    (horderly : (before.servers id).view.Orderly) : (before.servers id).Ready := by
  refine ⟨horderly, fun entry hentry => ?_⟩
  obtain ⟨index, hread⟩ := Entries.exists_read?_of_mem hentry
  obtain ⟨_, _, _, hencode⟩ := h.logs id hmember _ _ hread
  exact Command.decodes_of_encode hencode

/-- A server's log, at each moment of a call, holds what was submitted before and with the
call. -/
theorem Accounted.of_moment (h : Accounted members before accepted) (hmember : id ∈ members)
    (hpossible : before.Possible id call) (hcoherent : (before.servers id).Coherent)
    (horderly : (before.servers id).view.Orderly) (now : Duration) :
    ∀ moment ∈ ((before.servers id).call now call).moments, ∀ index entry,
      moment.log.read? index = some entry →
        Attributed ((before.servers id).accepted now call ++ accepted) index entry := by
  intro moment hmoment
  have htraces := Server.call_traces_own hcoherent now call
  have hold : ∀ index entry, (before.servers id).log.read? index = some entry →
      Attributed ((before.servers id).accepted now call ++ accepted) index entry :=
    fun index entry hread => (h.logs id hmember index entry hread).mono
  cases hcommand : call.command? with
  | none =>
    -- What arrived in a request is accounted for, and nothing else comes in.
    refine (htraces.moves hmoment).read?_induction ?_ ?_ hold
    · rintro sender request entry ⟨frame, rfl, hdecode⟩ hentry
      exact (h.frames _ hpossible request entry hdecode hentry).mono
    · rintro _ _ _ ⟨command, hsome, _⟩
      rw [hcommand] at hsome
      cases hsome
  | some command =>
    -- The log only grows during the call, and at its end it is known.
    have hgrown : moment.log.entries <+: ((before.servers id).call now call).server.log.entries :=
      (htraces.moves_last hmoment).log_isPrefix (Call.not_received_of_command? hcommand)
    intro index entry hread
    have hread_last := Entries.read?_of_isPrefix hgrown hread
    have hready := h.ready hmember horderly
    rcases Server.accepted_cases now hcommand hcoherent hready with
      ⟨haccepted, hadded⟩ | ⟨_, hsame⟩
    · obtain ⟨bytes, hencode, hentries⟩ := hadded.entries_eq
      rw [hentries] at hread_last
      rcases Entries.read?_concat hread_last with hold_read | ⟨hindex, rfl⟩
      · exact hold index entry hold_read
      · rw [haccepted]
        exact ⟨_, List.mem_cons_self, congrArg (LogKey.mk _) hindex.symm, hencode⟩
    · rw [hsame] at hread_last
      exact hold index entry hread_last

theorem Shown.orderly {ensemble : Ensemble σ} {chronicle : Chronicle}
    (h : ensemble.Shown members chronicle) : ∀ id ∈ members,
      (ensemble.servers id).view.Orderly := by
  intro id hmember
  rw [← h.present id hmember]
  exact h.reachable.orderly (h.reachable.attended.present_seen id hmember)

/-- Whatever is in a log or on its way was submitted also when a call has been made. -/
theorem Accounted.settle {chronicle : Chronicle} (h : Accounted members before accepted)
    (hshown : before.Shown members chronicle) (hids : ∀ id ∈ members, Word.InRange 4 id)
    (hmember : id ∈ members) (hpossible : before.Possible id call) (now : Duration) :
    Accounted members (before.settle id ((before.servers id).call now call))
      ((before.servers id).accepted now call ++ accepted) := by
  have hmoments := h.of_moment hmember hpossible (hshown.coherent id hmember)
    (hshown.orderly id hmember) now
  have htraces := hshown.call_traces hids hmember hpossible now
  refine ⟨fun submission hsubmission => ?_, fun other hother index entry hread => ?_,
    fun parcel hparcel request entry hdecode hentry => ?_⟩
  · rcases List.mem_append.mp hsubmission with hnew | hold
    · exact fits_of_possible hpossible (Server.of_mem_accepted hnew).2
    · exact h.fits submission hold
  · by_cases heq : other = id
    · subst heq
      rw [servers_settle_self] at hread
      exact hmoments _ (Outcome.server_mem_moments _) index entry hread
    · rw [servers_settle_of_ne _ _ heq] at hread
      exact (h.logs other hother index entry hread).mono
  · rcases mem_offered_settle hparcel with hold | ⟨posting, hposting, rfl⟩
    · exact (h.frames parcel hold request entry hdecode hentry).mono
    -- The frame says what was posted, which shows the log of its sender.
    · have hfits := hshown.posting_fits hids hmember htraces hposting
      have hposted := Message.eq_of_decode_encode hfits hdecode
      have hvouches := htraces.vouches hposting
      rw [← hposted] at hvouches
      cases hvouches with
      | replicate _ _ _ _ hshows =>
        exact hmoments posting.sender
          (List.mem_append_left _ (List.mem_map_of_mem hposting)) _ _
          (hshows.read?_entry hentry).2

/-- A restart adds nothing that was not submitted. -/
theorem Accounted.restart (h : Accounted members before accepted) {store : σ}
    {server : Server σ} {draws : Draws} {now : Duration} (hmember : id ∈ members)
    (hvalid : LawfulStore.Valid store)
    (hentries : Store.entries store = (before.servers id).log.entries)
    (hstart : Server.start (before.servers id).config store draws now = .ok server) :
    Accounted members (before.replace id server) accepted := by
  refine ⟨h.fits, fun other hother index entry hread => ?_, h.frames⟩
  by_cases heq : other = id
  · subst heq
    rw [servers_replace_self] at hread
    obtain ⟨_, _, _, hview⟩ := Server.start_eq_ok hvalid hstart
    have hsame : server.log.entries = (before.servers other).log.entries :=
      (congrArg View.log hview).trans hentries
    replace hread : Entries.read? server.log.entries index = some entry := hread
    rw [hsame] at hread
    exact h.logs other hother index entry hread
  · rw [servers_replace_of_ne _ _ heq] at hread
    exact h.logs other hother index entry hread

/-- At first nothing is in a log or on its way. -/
theorem Started.accounted {ensemble : Ensemble σ} (h : Started members ensemble) :
    Accounted members ensemble [] := by
  refine ⟨by simp, fun id hmember index entry hread => ?_, by simp [h.offered_eq]⟩
  have hempty : (ensemble.servers id).log.entries = [] := (h.member hmember).2.2.2.log_eq
  replace hread : Entries.read? (ensemble.servers id).log.entries index = some entry := hread
  simp [hempty, Entries.read?] at hread

/-- At each moment of a run whatever is in a log or on its way was submitted. -/
theorem Recorded.accounted {latest : Ensemble σ} {earlier : List (Ensemble σ)}
    (h : Recorded members (latest :: earlier) accepted) : Accounted members latest accepted := by
  generalize hrun : latest :: earlier = run at h
  induction h generalizing latest earlier with
  | start h =>
    obtain ⟨rfl, rfl⟩ := List.cons.inj hrun
    exact h.accounted
  | call now call h hmember hpossible ih =>
    obtain ⟨rfl, rfl⟩ := List.cons.inj hrun
    obtain ⟨chronicle, hshown, hids, _⟩ := h.exists_shown
    exact (ih rfl).settle hshown hids hmember hpossible now
  | restart draws now _ hmember hvalid _ hentries hstart ih =>
    obtain ⟨rfl, rfl⟩ := List.cons.inj hrun
    exact (ih rfl).restart hmember hvalid hentries hstart

/-- What was ever in a log was made by an accepted submission. -/
theorem Recorded.attributed {run : List (Ensemble σ)} (h : Recorded members run accepted) :
    ∀ moment ∈ run, ∀ id ∈ members, ∀ index entry,
      (moment.servers id).log.read? index = some entry → Attributed accepted index entry := by
  induction h with
  | start h =>
    intro moment hmoment
    rw [List.mem_singleton.mp hmoment]
    exact h.accounted.logs
  | call now call h hmember hpossible ih =>
    intro moment hmoment id hid index entry hread
    rcases List.mem_cons.mp hmoment with rfl | hold
    · exact (Recorded.call now call h hmember hpossible).accounted.logs id hid index entry hread
    · exact (ih moment hold id hid index entry hread).mono
  | restart draws now h hmember hvalid hload hentries hstart ih =>
    intro moment hmoment
    rcases List.mem_cons.mp hmoment with rfl | hold
    · exact (h.accounted.restart hmember hvalid hentries hstart).logs
    · exact ih moment hold

/-! ## Submissions -/

/-- The submission came to a member that led, and left the command at the end of its log. -/
structure Honoured (members : Finset ServerId) (run : List (Ensemble σ))
    (submission : Submission σ) : Prop where
  member : submission.server.id ∈ members
  added : ∃ moment ∈ run,
    (moment.servers submission.server.id).Added submission.server submission.command

omit [LawfulStore σ] in
/-- A submission that was honoured stays so when the run goes on. -/
theorem Honoured.mono {run : List (Ensemble σ)} {submission : Submission σ}
    (h : Honoured members run submission) (latest : Ensemble σ) :
    Honoured members (latest :: run) submission :=
  ⟨h.member, h.added.imp fun _ hadded => ⟨List.mem_cons_of_mem _ hadded.1, hadded.2⟩⟩

/-- A submission that is accepted in a call is the call's, and honoured by what it leaves. -/
theorem Recorded.added_of_accepted {earlier : List (Ensemble σ)}
    (h : Recorded members (before :: earlier) accepted) (hmember : id ∈ members)
    {now : Duration} {submission : Submission σ}
    (haccepted : submission ∈ (before.servers id).accepted now call) :
    (before.servers id).accepted now call = [submission] ∧
      submission.server = before.servers id ∧ submission.server.id = id ∧
      ((before.servers id).call now call).server.Added submission.server submission.command := by
  obtain ⟨chronicle, hshown, _⟩ := h.exists_shown
  have hid := hshown.seen id hmember
  obtain ⟨hserver, hcommand⟩ := Server.of_mem_accepted haccepted
  have hready := h.accounted.ready hmember (hshown.orderly id hmember)
  rcases Server.accepted_cases now hcommand (hshown.coherent id hmember) hready with
    ⟨honly, hadded⟩ | ⟨hnone, _⟩
  · obtain ⟨server, command⟩ := submission
    obtain rfl : server = before.servers id := hserver
    exact ⟨honly, rfl, hid.2, hadded⟩
  · rw [hnone] at haccepted
    cases haccepted

/-- Every accepted submission of a run is honoured. -/
theorem Recorded.honoured {run : List (Ensemble σ)} (h : Recorded members run accepted) :
    ∀ submission ∈ accepted, Honoured members run submission := by
  induction h with
  | start => simp
  | @call before earlier accepted id now call h hmember hpossible ih =>
    intro submission hsubmission
    rcases List.mem_append.mp hsubmission with hnew | hold
    · obtain ⟨_, _, hid, hadded⟩ := h.added_of_accepted hmember hnew
      refine ⟨hid ▸ hmember, _, List.mem_cons_self, ?_⟩
      rwa [hid, servers_settle_self]
    · exact (ih submission hold).mono _
  | restart _ _ _ _ _ _ _ _ ih => exact fun submission hold => (ih submission hold).mono _

/-- The log that a leader had at any moment of its term is the beginning of what it has. -/
theorem Recorded.log_of_led {earlier : List (Ensemble σ)}
    (h : Recorded members (before :: earlier) accepted) {moment : Ensemble σ}
    (hmoment : moment ∈ before :: earlier) {leader : ServerId} (hleader : leader ∈ members)
    (hmember : id ∈ members) (hled : (moment.servers leader).role.isLeader = true)
    (hleads : (before.servers id).role.isLeader = true)
    (hterm : (moment.servers leader).term = (before.servers id).term) :
    (moment.servers leader).log.entries <+: (before.servers id).log.entries := by
  obtain ⟨chronicle, hshown, _, hseen⟩ := h.exists_shown
  obtain ⟨hled_seen, hled_id⟩ := hseen moment hmoment leader hleader
  obtain ⟨hpresent_seen, hpresent_id⟩ := hshown.seen id hmember
  have hsame := hshown.reachable.leader_unique hled_seen hpresent_seen hled hleads hterm
  have hpresent : chronicle.present (moment.servers leader).view.id = (before.servers id).view := by
    rw [hsame, hpresent_id]
    exact hshown.present id hmember
  have hkept := hshown.reachable.log_of_led hled_seen hled
  rw [hpresent] at hkept
  exact hkept hterm.symm

/-- A key that was given to one submission is not given to another: the leader of its term
keeps the entry, and its log ends behind it. -/
theorem Recorded.key_ne {earlier : List (Ensemble σ)}
    (h : Recorded members (before :: earlier) accepted) (hmember : id ∈ members)
    (hleads : (before.servers id).role.isLeader = true) {submission : Submission σ}
    (hold : submission ∈ accepted) :
    submission.key ≠ ⟨(before.servers id).term, (before.servers id).log.size⟩ := by
  intro hkey
  obtain ⟨hterm, hsize⟩ := LogKey.mk.inj hkey
  obtain ⟨hleader, moment, hmoment, hadded⟩ := h.honoured submission hold
  have hled : (moment.servers submission.server.id).role.isLeader = true :=
    (congrArg Role.isLeader hadded.role_eq).trans hadded.leads
  have hbegins := h.log_of_led hmoment hleader hmember hled hleads (hadded.term_eq.trans hterm)
  obtain ⟨bytes, _, hentries⟩ := hadded.entries_eq
  have hlength := hbegins.length_le
  rw [hentries, List.length_append, List.length_singleton] at hlength
  have hsame : (submission.server.log.entries.length : Int) =
      (before.servers id).log.entries.length := hsize
  lia

/-- No two accepted submissions of a run have the same key. -/
theorem Recorded.keys_nodup {run : List (Ensemble σ)} (h : Recorded members run accepted) :
    (accepted.map Submission.key).Nodup := by
  induction h with
  | start => exact List.nodup_nil
  | @call before earlier accepted id now call h hmember hpossible ih =>
    rcases hnow : (before.servers id).accepted now call with _ | ⟨submission, _⟩
    · exact ih
    · have haccepted : submission ∈ (before.servers id).accepted now call := by simp [hnow]
      obtain ⟨honly, hserver, _, hadded⟩ := h.added_of_accepted hmember haccepted
      rw [← hnow, honly]
      refine List.nodup_cons.mpr ⟨fun hagain => ?_, ih⟩
      obtain ⟨old, hold, hkey⟩ := List.mem_map.mp hagain
      refine h.key_ne hmember (hserver ▸ hadded.leads) hold (hkey.trans ?_)
      rw [← hserver]
      rfl
  | restart _ _ _ _ _ _ _ _ ih => exact ih

/-! ## Applied commands -/

/-- What a member hands out was submitted and accepted. -/
theorem Recorded.exists_origin {run : List (Ensemble σ)} (h : Recorded members run accepted)
    {moment : Ensemble σ} (hmoment : moment ∈ run) (hmember : id ∈ members)
    {applied : Delivery} (happlied : applied ∈ (moment.servers id).delivered.toList) :
    ∃ submission ∈ accepted, submission.delivery = applied := by
  cases run with
  | nil => cases h
  | cons latest earlier =>
    obtain ⟨chronicle, hshown, _, hseen⟩ := h.exists_shown
    have horderly := hshown.reachable.orderly (hseen moment hmoment id hmember).1
    obtain ⟨entry, hread, hdecode⟩ := horderly.decoded applied happlied
    obtain ⟨submission, haccepted, hkey, hencode⟩ :=
      h.attributed moment hmoment id hmember _ _ hread
    have hread_back := Command.decode_encode (h.accounted.fits submission haccepted) hencode
    refine ⟨submission, haccepted, ?_⟩
    rw [Submission.delivery, hkey, Except.ok.inj (hread_back.symm.trans hdecode)]

/-- No index is handed out twice. -/
theorem Recorded.indices_nodup {run : List (Ensemble σ)} (h : Recorded members run accepted)
    {moment : Ensemble σ} (hmoment : moment ∈ run) (hmember : id ∈ members) :
    ((moment.servers id).delivered.toList.map Delivery.index).Nodup := by
  cases run with
  | nil => cases h
  | cons latest earlier =>
    obtain ⟨chronicle, hshown, _, hseen⟩ := h.exists_shown
    have horderly := hshown.reachable.orderly (hseen moment hmoment id hmember).1
    have hindices : (moment.servers id).delivered.toList.map Delivery.index = _ :=
      horderly.indices_eq
    rw [hindices]
    exact List.nodup_range.map fun _ _ heq => Int.ofNat.inj heq

/-! ## Provenance -/

/-- Every entry comes from one accepted submission, which put its command there in the term
of the leader it came to, and no key from two. What a server hands to its state machine are
accepted commands, none of them for two indices. -/
theorem entries_from_submissions {run : List (Ensemble σ)} (h : Recorded members run accepted) :
    (∀ submission ∈ accepted, Honoured members run submission) ∧
      (accepted.map Submission.key).Nodup ∧
      ∀ moment ∈ run, ∀ id ∈ members,
        (∀ index entry, (moment.servers id).log.read? index = some entry →
          ∃ submission ∈ accepted, submission.Made index entry ∧
            ∀ other ∈ accepted, other.key = submission.key → other = submission) ∧
        ∃ origins : List (Submission σ), (∀ submission ∈ origins, submission ∈ accepted) ∧
          (origins.map Submission.key).Nodup ∧
          (moment.servers id).delivered.toList = origins.map Submission.delivery := by
  refine ⟨h.honoured, h.keys_nodup, fun moment hmoment id hmember => ⟨?_, ?_⟩⟩
  · intro index entry hread
    obtain ⟨submission, haccepted, hmade⟩ :=
      h.attributed moment hmoment id hmember index entry hread
    exact ⟨submission, haccepted, hmade, fun other hother hkey =>
      List.inj_on_of_nodup_map h.keys_nodup hother haccepted hkey⟩
  · have hrange : (moment.servers id).delivered.toList ∈
        Set.range (List.map fun origin : { submission // submission ∈ accepted } =>
          origin.1.delivery) := by
      rw [Set.range_list_map]
      intro applied happlied
      obtain ⟨submission, haccepted, hdelivery⟩ := h.exists_origin hmoment hmember happlied
      exact ⟨⟨submission, haccepted⟩, hdelivery⟩
    obtain ⟨origins, horigins⟩ := hrange
    have hdelivered : (moment.servers id).delivered.toList =
        (origins.map Subtype.val).map Submission.delivery := by
      rw [← horigins, List.map_map]
      rfl
    refine ⟨origins.map Subtype.val, ?_, ?_, hdelivered⟩
    · intro submission hsubmission
      obtain ⟨origin, _, rfl⟩ := List.mem_map.mp hsubmission
      exact origin.2
    -- Each index is the key's, so no key comes twice.
    · have hindices := h.indices_nodup hmoment hmember
      rw [hdelivered, List.map_map] at hindices
      apply List.Nodup.of_map LogKey.index
      rw [List.map_map]
      exact hindices

/-- What the second server hands out was submitted to the first one. -/
theorem entries_from_submissions_handover :
    ∃ accepted, Recorded {1, 2} Handover.moments accepted ∧
      ((Handover.moment 4).servers 2).delivered.toList = [⟨0, Handover.command⟩] ∧
      ∃ submission ∈ accepted, submission.delivery = ⟨0, Handover.command⟩ := by
  have hfits : ∀ appointment ∈ Handover.schedule, ∀ command,
      appointment.occurrence = .submission command → command.Fits := by
    simp [Handover.schedule, Handover.command, Command.Fits, Word.InRange, Word.bound]
  obtain ⟨accepted, hrecorded⟩ :=
    (Recorded.start Handover.started_start).follow Handover.schedule hfits
  have hdelivered : ((Handover.moment 4).servers 2).delivered.toList =
      [⟨0, Handover.command⟩] := by
    decide +kernel
  have hmoment : Handover.moment 4 ∈ Handover.moments := Handover.moment_mem (by decide +kernel)
  obtain ⟨_, origins, haccepted, _, horigins⟩ :=
    (entries_from_submissions hrecorded).2.2 _ hmoment 2 (by decide)
  rw [hdelivered] at horigins
  obtain ⟨submission, hsubmission, hdelivery⟩ :=
    List.mem_map.mp (horigins ▸ List.mem_cons_self : _ ∈ origins.map Submission.delivery)
  exact ⟨accepted, hrecorded, hdelivered, submission, haccepted submission hsubmission, hdelivery⟩

end Ensemble

end Consensus
