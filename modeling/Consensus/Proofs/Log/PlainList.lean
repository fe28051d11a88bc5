import Consensus.Proofs.Log.Agreement
import Consensus.Proofs.Log.Writes
import Consensus.Proofs.Storage.Changes
import Consensus.Server.Restart

/-! # Logs as plain lists

A log answers as a list of entries does to which the same calls are made, whichever store it is
in. That its last term is kept at hand, and that a file stands behind the entries, never shows.
A call that fails does not show either, with one exception: an entry that conflicts with one of
the log makes way on disk before the new one is written, so when that write fails it is gone.
-/

namespace Consensus

/-! ## Calls -/

/-- A call that may change a log. -/
inductive LogCall where
  | push (term : Term) (command : Bytes)
  | accept (entry : PlacedEntry)
  | truncate (index : Index)
  deriving DecidableEq, Repr

/-- What a call that succeeds gives back. -/
inductive LogReply where
  | key (key : LogKey)
  | placed (placement : Placement)
  | done
  deriving DecidableEq, Repr

/-- What happens to a log. -/
inductive LogEvent where
  | call (call : LogCall)
  /-- The writes of a store in memory are switched off or on. -/
  | setFault (faulty : Bool)
  /-- It is settled what becomes of the next changes of a log file. -/
  | schedule (fates : List Fate)
  /-- The store is dropped and opened again. -/
  | reopen
  deriving DecidableEq, Repr

namespace Log

variable {σ : Type} [Store σ]

/-- The log that a call leaves behind, and the answer to it. -/
def serve (log : Log σ) : LogCall → Log σ × Except StorageFailure LogReply
  | .push term command =>
    match log.push term command with
    | .error cause => (log, .error cause)
    | .ok (longer, key) => (longer, .ok (.key key))
  | .accept entry => ((log.accept entry).1, (log.accept entry).2.map .placed)
  | .truncate index =>
    match log.truncate index with
    | .error cause => (log, .error cause)
    | .ok shorter => (shorter, .ok .done)

/-- The log over the files as a call has left them. -/
def settled {α : Type} (log : Log Backend) : Except StorageFailure α → Log Backend
  | .ok _ => log
  | .error cause => log.mapStore (·.afterFailure cause)

/-- The log that an event leaves behind, and the answer to it. -/
def meet (log : Log Backend) : LogEvent → Log Backend × Except Failure LogReply
  | .call call =>
    let served := log.serve call
    (served.1.settled served.2, served.2.mapError .storage)
  | .setFault faulty => (log.mapStore (·.setFault faulty), .ok .done)
  | .schedule fates => (log.mapStore (·.schedule fates), .ok .done)
  | .reopen => (log.reopen.2, log.reopen.1.map fun _ => .done)

/-- The log that events leave behind, and the answers to them. -/
def live (log : Log Backend) : List LogEvent → Log Backend × List (Except Failure LogReply)
  | [] => (log, [])
  | event :: rest =>
    let met := log.meet event
    let final := met.1.live rest
    (final.1, met.2 :: final.2)

end Log

/-! ## Plain lists -/

namespace Entries

instance (list : Entries) (key : LogKey) : Decidable (list.Holds key) :=
  decidable_of_iff (key.IsNull ∨ (list.read? key.index).map Entry.term = some key.term)
    (by simp only [Holds, Option.map_eq_some_iff])

/-- The changes that a call asks for, one after another, and the reply when all of them are carried
out. There is nothing that an entry out of place could ask for. -/
def asked (list : Entries) : LogCall → Option (List Change × LogReply)
  | .push term command => some ([.add ⟨term, command⟩], .key ⟨term, list.length⟩)
  | .accept entry =>
    if list.Holds entry.key then
      some ([], .placed .alreadyHeld)
    else if entry.index = list.length then
      some ([.add ⟨entry.term, entry.command⟩], .placed .added)
    else if 0 ≤ entry.index ∧ entry.index < list.length then
      some ([.cut entry.index.toNat, .add ⟨entry.term, entry.command⟩],
        .placed (.replaced entry.index))
    else
      none
  | .truncate index =>
    if index < list.length then some ([.cut index.toNat], .done) else some ([], .done)

end Entries

namespace PlainLog

/-- The list after changes that are all carried out, or else what is left of it by the first one
that fails. -/
def attemptAll (plain : PlainLog) : List Change → Except PlainLog PlainLog
  | [] => .ok plain
  | change :: rest =>
    match plain.attempt change with
    | .ok after => after.attemptAll rest
    | .error left => .error left

/-- The list that a call leaves behind, and the reply unless it fails. -/
def serve (plain : PlainLog) (call : LogCall) : PlainLog × Option LogReply :=
  match plain.entries.asked call with
  | none => (plain, none)
  | some (changes, reply) =>
    match plain.attemptAll changes with
    | .ok after => (after, some reply)
    | .error left => (left, none)

/-- The list that an event leaves behind, and the reply unless it fails. -/
def meet (plain : PlainLog) : LogEvent → PlainLog × Option LogReply
  | .call call => plain.serve call
  | .setFault faulty =>
    match plain.medium with
    | .memory _ => ({ plain with medium := .memory faulty }, some .done)
    | .disk _ _ => (plain, some .done)
  | .schedule fates =>
    match plain.medium with
    | .memory _ => (plain, some .done)
    | .disk _ files => ({ plain with medium := .disk fates files }, some .done)
  | .reopen => (plain.reopened.getD plain, some .done)

/-- The list that events leave behind, and the replies to them. -/
def live (plain : PlainLog) : List LogEvent → PlainLog × List (Option LogReply)
  | [] => (plain, [])
  | event :: rest =>
    let met := plain.meet event
    let final := met.1.live rest
    (final.1, met.2 :: final.2)

end PlainLog

/-- The numbers of the call fit their words and its command a record, and no truncation is from a
negative index. An entry that is pushed onto the list has an index that can be told. -/
def LogCall.Fits (list : Entries) : LogCall → Prop
  | .push term command => Word.InRange 8 (list.length : Index) ∧ Record.Fits ⟨term, command⟩
  | .accept entry => Word.InRange 8 entry.index ∧ Record.Fits ⟨entry.term, entry.command⟩
  | .truncate index => 0 ≤ index

instance (list : Entries) (call : LogCall) : Decidable (call.Fits list) :=
  match call with
  | .push term command => inferInstanceAs
      (Decidable (Word.InRange 8 (list.length : Index) ∧ Record.Fits ⟨term, command⟩))
  | .accept entry => inferInstanceAs
      (Decidable (Word.InRange 8 entry.index ∧ Record.Fits ⟨entry.term, entry.command⟩))
  | .truncate index => inferInstanceAs (Decidable (0 ≤ index))

/-- A call fits, and a store is opened again only while it is known what its log file holds. -/
def LogEvent.Fits (plain : PlainLog) : LogEvent → Prop
  | .call request => request.Fits plain.entries
  | .setFault _ => True
  | .schedule _ => True
  | .reopen => plain.reopened.isSome

instance (plain : PlainLog) (event : LogEvent) : Decidable (event.Fits plain) :=
  match event with
  | .call call => inferInstanceAs (Decidable (call.Fits plain.entries))
  | .setFault _ => inferInstanceAs (Decidable True)
  | .schedule _ => inferInstanceAs (Decidable True)
  | .reopen => inferInstanceAs (Decidable (plain.reopened.isSome = true))

/-- Each event fits the list that it meets. -/
def PlainLog.Admits (plain : PlainLog) : List LogEvent → Prop
  | [] => True
  | event :: rest => event.Fits plain ∧ (plain.meet event).1.Admits rest

instance PlainLog.decidableAdmits (plain : PlainLog) :
    (events : List LogEvent) → Decidable (plain.Admits events)
  | [] => inferInstanceAs (Decidable True)
  | event :: rest =>
    have := PlainLog.decidableAdmits (plain.meet event).1 rest
    inferInstanceAs (Decidable (event.Fits plain ∧ (plain.meet event).1.Admits rest))

namespace Entries

variable {list : Entries} {entry : PlacedEntry}

/-- An entry that the list holds asks for nothing. -/
theorem asked_of_holds (h : list.Holds entry.key) :
    list.asked (.accept entry) = some ([], .placed .alreadyHeld) :=
  if_pos h

/-- An entry behind the last one asks to be added. -/
theorem asked_of_end (hfree : ¬ list.Holds entry.key) (hindex : entry.index = list.length) :
    list.asked (.accept entry) =
      some ([.add ⟨entry.term, entry.command⟩], .placed .added) := by
  rw [asked, if_neg hfree, if_pos hindex]

/-- An entry in place of another asks for a cut first. -/
theorem asked_of_within (hfree : ¬ list.Holds entry.key)
    (hwithin : 0 ≤ entry.index ∧ entry.index < list.length) :
    list.asked (.accept entry) = some ([.cut entry.index.toNat, .add ⟨entry.term, entry.command⟩],
      .placed (.replaced entry.index)) := by
  rw [asked, if_neg hfree, if_neg (Int.ne_of_lt hwithin.2), if_pos hwithin]

/-- An entry that would leave a gap cannot be asked for. -/
theorem asked_of_outside (hfree : ¬ list.Holds entry.key) (hindex : entry.index ≠ list.length)
    (houtside : ¬ (0 ≤ entry.index ∧ entry.index < list.length)) :
    list.asked (.accept entry) = none := by
  rw [asked, if_neg hfree, if_neg hindex, if_neg houtside]

end Entries

/-! ## Logs -/

namespace PlainLog

variable {plain after left : PlainLog} {change : Change} {call : LogCall} {reply : LogReply}

theorem attemptAll_of_ok (h : plain.attempt change = .ok after) (rest : List Change) :
    plain.attemptAll (change :: rest) = after.attemptAll rest := by
  rw [attemptAll, h]

theorem attemptAll_of_error (h : plain.attempt change = .error left) (rest : List Change) :
    plain.attemptAll (change :: rest) = .error left := by
  rw [attemptAll, h]

theorem attemptAll_single (plain : PlainLog) (change : Change) :
    plain.attemptAll [change] = plain.attempt change := by
  cases h : plain.attempt change with
  | ok after => exact attemptAll_of_ok h []
  | error left => exact attemptAll_of_error h []

theorem serve_of_none (h : plain.entries.asked call = none) : plain.serve call = (plain, none) := by
  rw [serve, h]

theorem serve_of_nil (h : plain.entries.asked call = some ([], reply)) :
    plain.serve call = (plain, some reply) := by
  rw [serve, h]
  rfl

theorem serve_of_ok {changes : List Change}
    (h : plain.entries.asked call = some (changes, reply))
    (hdone : plain.attemptAll changes = .ok after) : plain.serve call = (after, some reply) := by
  simp only [serve, h, hdone]

theorem serve_of_error {changes : List Change}
    (h : plain.entries.asked call = some (changes, reply))
    (hfailed : plain.attemptAll changes = .error left) : plain.serve call = (left, none) := by
  simp only [serve, h, hfailed]

end PlainLog

namespace Backend

variable {store : Backend} {plain : PlainLog}

theorem Follows.setFault (h : store.Follows plain) (faulty : Bool) :
    (store.setFault faulty).Follows (plain.meet (.setFault faulty)).1 := by
  cases store with
  | memory store =>
    simp only [PlainLog.meet, h.2]
    exact ⟨h.1, rfl⟩
  | disk store =>
    obtain ⟨hentries, hindexed, files, hmedium, hfiles⟩ := h
    simp only [PlainLog.meet, hmedium]
    exact ⟨hentries, hindexed, files, hmedium, hfiles⟩

theorem Follows.schedule (h : store.Follows plain) (fates : List Fate) :
    (store.schedule fates).Follows (plain.meet (.schedule fates)).1 := by
  cases store with
  | memory store =>
    simp only [PlainLog.meet, h.2]
    exact h
  | disk store =>
    obtain ⟨hentries, hindexed, files, hmedium, hfiles⟩ := h
    simp only [PlainLog.meet, hmedium]
    exact ⟨hentries, hindexed.expecting fates, files, rfl, hfiles.expecting fates⟩

end Backend

namespace Log

variable {log : Log Backend} {plain : PlainLog} {index : Index}

/-- The log is in a store that follows the list, and knows the term of its last entry. -/
structure Follows (log : Log Backend) (plain : PlainLog) : Prop where
  store : log.store.Follows plain
  lastTerm_eq : log.lastTerm = plain.entries.lastTerm

theorem Follows.entries_eq (h : log.Follows plain) : log.entries = plain.entries :=
  h.store.entries_eq

theorem Follows.size_eq (h : log.Follows plain) : log.size = plain.entries.length :=
  congrArg (fun list : Entries => (list.length : Int)) h.entries_eq

theorem follows_ofStore {store : Backend} (h : store.Follows plain) :
    (ofStore store).Follows plain :=
  ⟨h, (storedLastTerm_eq store).trans (congrArg Entries.lastTerm h.entries_eq)⟩

/-! ### Changes -/

section Change

variable {σ : Type} [Store σ]

/-- Brings a change to a log. -/
def change (log : Log σ) : Change → Except StorageFailure (Log σ)
  | .cut count => log.truncate count
  | .add entry => log.extend log.size entry

theorem place_of_index {log : Log σ} {entry : PlacedEntry} (hindex : entry.index = log.size)
    (placement : Placement) :
    log.place entry placement = match log.change (.add ⟨entry.term, entry.command⟩) with
      | .ok longer => (longer, .ok placement)
      | .error cause => (log, .error cause) := by
  rw [place, hindex, change]
  cases log.extend log.size ⟨entry.term, entry.command⟩ <;> rfl

end Change

/-- A change is carried out in both places, or fails in both and is not seen. -/
theorem Follows.change (h : log.Follows plain) {change : Change}
    (hfits : change.Fits plain.entries) :
    (∃ changed after, log.change change = .ok changed ∧ plain.attempt change = .ok after ∧
        changed.Follows after) ∨
      ∃ cause left, log.change change = .error cause ∧ plain.attempt change = .error left ∧
        (log.mapStore (·.afterFailure cause)).Follows left := by
  have hasks : log.change change = (change.ask log.store).map fun store =>
      ⟨store, match change with | .cut _ => storedLastTerm store | .add entry => entry.term⟩ := by
    cases change with
    | cut count =>
      have hshort : ¬ log.size ≤ (count : Index) := by
        rw [h.size_eq]
        exact Int.not_le.mpr (Int.ofNat_lt.mpr hfits)
      exact if_neg hshort
    | add entry => rfl
  rcases h.store.ask hfits with
    ⟨store, after, hask, hattempt, hfollows⟩ | ⟨cause, left, hask, hattempt, hfollows⟩
  · refine .inl ⟨_, after, hasks.trans (map_eq_ok.mpr ⟨store, hask, rfl⟩), hattempt, hfollows, ?_⟩
    cases change with
    | cut count => exact (follows_ofStore hfollows).lastTerm_eq
    | add entry =>
      rw [PlainLog.entries_of_attempt_ok hattempt]
      exact (Entries.lastTerm_concat plain.entries entry).symm
  · refine .inr ⟨cause, left, hasks.trans (map_eq_error.mpr hask), hattempt, hfollows, ?_⟩
    rw [PlainLog.entries_of_attempt_error hattempt]
    exact h.lastTerm_eq

/-- An entry out of place is refused, and the log is left alone. -/
theorem Follows.place_refused (h : log.Follows plain) {entry : PlacedEntry}
    (hindex : entry.index ≠ plain.entries.length) (placement : Placement) :
    ∃ cause, log.place entry placement = (log, .error cause) ∧
      log.mapStore (·.afterFailure cause) = log := by
  obtain ⟨cause, happend, hleft⟩ :=
    h.store.append_refused ⟨entry.term, entry.command⟩ hindex
  refine ⟨cause, ?_, ?_⟩
  · rw [place, extend, happend]
    rfl
  · rw [mapStore, hleft]

/-! ### Calls -/

/-- The log that is left follows the list that is left, and the answer is the reply. -/
structure Serves (served : Log Backend × Except StorageFailure LogReply)
    (expected : PlainLog × Option LogReply) : Prop where
  follows : (served.1.settled served.2).Follows expected.1
  answer_eq : served.2.toOption = expected.2

/-- A call that asks for one change makes it in both places, or in none. -/
theorem Follows.serves_change (h : log.Follows plain) {call : LogCall} {change : Change}
    {reply : LogReply} (hasked : plain.entries.asked call = some ([change], reply))
    (hfits : change.Fits plain.entries)
    (hserve : log.serve call = match log.change change with
      | .ok changed => (changed, .ok reply)
      | .error cause => (log, .error cause)) :
    Serves (log.serve call) (plain.serve call) := by
  rcases h.change hfits with
    ⟨changed, after, hchange, hattempt, hfollows⟩ | ⟨cause, left, hchange, hattempt, hfollows⟩
  · have hall := (plain.attemptAll_single change).trans hattempt
    rw [PlainLog.serve_of_ok hasked hall, hserve, hchange]
    exact ⟨hfollows, rfl⟩
  · have hall := (plain.attemptAll_single change).trans hattempt
    rw [PlainLog.serve_of_error hasked hall, hserve, hchange]
    exact ⟨hfollows, rfl⟩

/-- A command that is pushed is served as the list serves it. -/
theorem Follows.push (h : log.Follows plain) {term : Term} {command : Bytes}
    (hplace : Word.InRange 8 (plain.entries.length : Index))
    (hentry : Record.Fits ⟨term, command⟩) :
    Serves (log.serve (.push term command)) (plain.serve (.push term command)) := by
  have hfits : (Change.add ⟨term, command⟩).Fits plain.entries := ⟨hplace, hentry⟩
  refine h.serves_change rfl hfits ?_
  rw [serve, Log.push, Log.change, h.size_eq]
  cases log.extend plain.entries.length ⟨term, command⟩ <;> rfl

/-- A cut is served as the list serves it. -/
theorem Follows.cut (h : log.Follows plain) (hnonneg : 0 ≤ index) :
    Serves (log.serve (.truncate index)) (plain.serve (.truncate index)) := by
  obtain ⟨count, rfl⟩ := Int.eq_ofNat_of_zero_le hnonneg
  rcases Nat.lt_or_ge count plain.entries.length with hwithin | hbeyond
  · have hasked : plain.entries.asked (.truncate count) = some ([.cut count], .done) := by
      rw [Entries.asked, if_pos (Int.ofNat_lt.mpr hwithin), Int.toNat_natCast]
    have hfits : (Change.cut count).Fits plain.entries := hwithin
    refine h.serves_change hasked hfits ?_
    rw [serve, Log.change]
    cases log.truncate count <;> rfl
  · -- Nothing is there to be dropped, so the store is not asked.
    have hasked : plain.entries.asked (.truncate count) = some ([], .done) := by
      rw [Entries.asked, if_neg (Int.not_lt.mpr (Int.ofNat_le.mpr hbeyond))]
    have hsize : log.size ≤ (count : Index) := by
      rw [h.size_eq]
      exact Int.ofNat_le.mpr hbeyond
    rw [PlainLog.serve_of_nil hasked, serve, Log.truncate, if_pos hsize]
    exact ⟨h, rfl⟩

/-- An entry that the list has no place for is refused, and the next one is added. -/
theorem Follows.accept_beyond (h : log.Follows plain) {entry : PlacedEntry}
    (hstanding : log.standing entry.key = .beyond) (hplace : Word.InRange 8 entry.index)
    (hentry : Record.Fits ⟨entry.term, entry.command⟩) :
    Serves (log.serve (.accept entry)) (plain.serve (.accept entry)) := by
  have hfree : ¬ plain.entries.Holds entry.key := by
    rw [← h.entries_eq, ← standing_eq_held, hstanding]
    exact Standing.noConfusion
  have haccept : log.accept entry = log.place entry .added := by
    rw [Log.accept, hstanding]
  by_cases hindex : entry.index = plain.entries.length
  · have hfits : (Change.add ⟨entry.term, entry.command⟩).Fits plain.entries :=
      ⟨hindex ▸ hplace, hentry⟩
    refine h.serves_change (Entries.asked_of_end hfree hindex) hfits ?_
    rw [serve, haccept, place_of_index (hindex.trans h.size_eq.symm)]
    cases log.change (.add ⟨entry.term, entry.command⟩) <;> rfl
  · obtain ⟨cause, hrefused, hleft⟩ := h.place_refused hindex .added
    have hend : 0 ≤ entry.index → (plain.entries.length : Int) ≤ entry.index := by
      rw [← h.entries_eq]
      exact length_le_of_standing hstanding
    have hasked := Entries.asked_of_outside hfree hindex fun hwithin =>
      absurd (hend hwithin.1) (Int.not_le.mpr hwithin.2)
    rw [PlainLog.serve_of_none hasked, serve, haccept, hrefused]
    refine ⟨?_, rfl⟩
    show (log.mapStore (·.afterFailure cause)).Follows plain
    rwa [hleft]

/-- An entry of another term makes way for one that is to stand there, with all behind it. It is
gone also when the other one cannot be written. -/
theorem Follows.accept_conflicting (h : log.Follows plain) {entry : PlacedEntry}
    (hstanding : log.standing entry.key = .conflicting) (hplace : Word.InRange 8 entry.index)
    (hentry : Record.Fits ⟨entry.term, entry.command⟩) :
    Serves (log.serve (.accept entry)) (plain.serve (.accept entry)) := by
  have hconflicts := h.entries_eq ▸ conflicts_of_standing hstanding
  have hfree := hconflicts.not_holds
  obtain ⟨stored, hread, -⟩ := hconflicts
  have hbounds : 0 ≤ entry.index ∧ entry.index < plain.entries.length :=
    Entries.bounds_of_read? hread
  have hasked := Entries.asked_of_within hfree hbounds
  obtain ⟨hnonneg, hwithin⟩ := hbounds
  have hcut : (Change.cut entry.index.toNat).Fits plain.entries := by
    show entry.index.toNat < plain.entries.length
    lia
  have haccept : log.accept entry = match log.change (.cut entry.index.toNat) with
      | .error cause => (log, .error cause)
      | .ok shorter => shorter.place entry (.replaced entry.index) := by
    rw [Log.accept, hstanding, Log.change, Int.toNat_of_nonneg hnonneg]
    cases log.truncate entry.index <;> rfl
  -- Both are cut or neither is. From there on the entry goes to the end of what is left.
  rcases h.change hcut with
    ⟨shorter, short, hchange, hattempt, hfollows⟩ | ⟨cause, left, hchange, hattempt, hfollows⟩
  · have hindex : entry.index = short.entries.length := by
      rw [PlainLog.entries_of_attempt_ok hattempt, Change.apply, List.length_take]
      lia
    have hadd : (Change.add ⟨entry.term, entry.command⟩).Fits short.entries :=
      ⟨hindex ▸ hplace, hentry⟩
    have hnext := (PlainLog.attemptAll_of_ok hattempt [.add ⟨entry.term, entry.command⟩]).trans
      (short.attemptAll_single _)
    have hplaced := place_of_index (hindex.trans hfollows.size_eq.symm) (.replaced entry.index)
    rcases hfollows.change hadd with
      ⟨longer, after, hgrown, hgrow, hfinal⟩ | ⟨cause, left, hgrown, hgrow, hfinal⟩
    · rw [PlainLog.serve_of_ok hasked (hnext.trans hgrow), serve, haccept, hchange]
      simp only [hplaced, hgrown]
      exact ⟨hfinal, rfl⟩
    · rw [PlainLog.serve_of_error hasked (hnext.trans hgrow), serve, haccept, hchange]
      simp only [hplaced, hgrown]
      exact ⟨hfinal, rfl⟩
  · have hall := PlainLog.attemptAll_of_error hattempt [.add ⟨entry.term, entry.command⟩]
    rw [PlainLog.serve_of_error hasked hall, serve, haccept, hchange]
    exact ⟨hfollows, rfl⟩

/-- An entry that is accepted is served as the list serves it, down to a cut without an addition. -/
theorem Follows.accept (h : log.Follows plain) {entry : PlacedEntry}
    (hplace : Word.InRange 8 entry.index) (hentry : Record.Fits ⟨entry.term, entry.command⟩) :
    Serves (log.serve (.accept entry)) (plain.serve (.accept entry)) := by
  cases hstanding : log.standing entry.key with
  | held =>
    have hholds := h.entries_eq ▸ standing_eq_held.mp hstanding
    rw [PlainLog.serve_of_nil (Entries.asked_of_holds hholds), serve, Log.accept, hstanding]
    exact ⟨h, rfl⟩
  | beyond => exact h.accept_beyond hstanding hplace hentry
  | conflicting => exact h.accept_conflicting hstanding hplace hentry

theorem Follows.serve (h : log.Follows plain) {call : LogCall} (hfits : call.Fits plain.entries) :
    Serves (log.serve call) (plain.serve call) := by
  cases call with
  | push term command => exact h.push hfits.1 hfits.2
  | accept entry => exact h.accept hfits.1 hfits.2
  | truncate index => exact h.cut hfits

/-! ### Lives -/

/-- What happens to a log that follows the list happens to the list. -/
theorem Follows.meet (h : log.Follows plain) {event : LogEvent} (hfits : event.Fits plain) :
    (log.meet event).1.Follows (plain.meet event).1 ∧
      (log.meet event).2.toOption = (plain.meet event).2 := by
  cases event with
  | call call =>
    obtain ⟨hfollows, hanswer⟩ := h.serve hfits
    refine ⟨hfollows, ?_⟩
    rw [Log.meet, PlainLog.meet, ← hanswer]
    cases (log.serve call).2 <;> rfl
  | setFault faulty =>
    refine ⟨⟨h.store.setFault faulty, ?_⟩, ?_⟩ <;> cases hmedium : plain.medium <;>
    simp [PlainLog.meet, hmedium, Log.meet, mapStore, h.lastTerm_eq, Except.toOption]
  | schedule fates =>
    refine ⟨⟨h.store.schedule fates, ?_⟩, ?_⟩ <;> cases hmedium : plain.medium <;>
    simp [PlainLog.meet, hmedium, Log.meet, mapStore, h.lastTerm_eq, Except.toOption]
  | reopen =>
    obtain ⟨found, hfound⟩ := Option.isSome_iff_exists.mp hfits
    obtain ⟨opened, hopen, hfollows⟩ := h.store.reopen hfound
    have hlog : log.reopen = (.ok (), ofStore opened) := by rw [Log.reopen, hopen]
    rw [Log.meet, hlog, PlainLog.meet, hfound]
    exact ⟨follows_ofStore hfollows, rfl⟩

/-- A log that follows a list follows it through a life, with the list's answers. -/
theorem Follows.live (h : log.Follows plain) {events : List LogEvent}
    (hfits : plain.Admits events) :
    (log.live events).1.Follows (plain.live events).1 ∧
      (log.live events).2.map Except.toOption = (plain.live events).2 := by
  induction events generalizing log plain with
  | nil => exact ⟨h, rfl⟩
  | cons event rest ih =>
    obtain ⟨hmet, hanswer⟩ := h.meet hfits.1
    obtain ⟨hfinal, hanswers⟩ := ih hmet hfits.2
    refine ⟨hfinal, ?_⟩
    rw [Log.live, PlainLog.live, ← hanswer, ← hanswers]
    rfl

theorem standing_eq_conflicting {key : LogKey} :
    log.standing key = .conflicting ↔ Entries.Conflicts log.entries key := by
  refine ⟨conflicts_of_standing, ?_⟩
  rintro ⟨entry, hread, hterm⟩
  have hnonneg := (Entries.bounds_of_read? hread).1
  have hnull : ¬ key.IsNull := fun hnull => absurd (hnull ▸ hnonneg) (by decide)
  rw [standing, if_neg hnull, termAt?_eq, Entries.termAt?_of_read? hread]
  exact if_neg hterm

theorem standing_eq_beyond_iff {key : LogKey} :
    log.standing key = .beyond ↔ ¬ key.IsNull ∧ Entries.read? log.entries key.index = none := by
  unfold standing
  by_cases hnull : key.IsNull
  · simp [hnull]
  · have hindex : ¬ key.index = nullIndex := hnull
    rw [if_neg hnull, termAt?_eq, Entries.termAt?, if_neg hindex]
    cases hread : Entries.read? log.entries key.index with
    | none => simp [hnull]
    | some entry =>
      by_cases hterm : entry.term = key.term <;> simp [hterm]

/-- Whatever is asked about the log is told as of the list. -/
structure Shows (log : Log Backend) (list : Entries) : Prop where
  size_eq : log.size = list.length
  isEmpty_eq : log.isEmpty = list.isEmpty
  lastIndex_eq : log.lastIndex = (list.length : Int) - 1
  lastKey_eq : log.lastKey = list.lastKey
  entryAt?_eq (index : Index) : log.entryAt? index = list.entryAt? index
  termAt?_eq (index : Index) : log.termAt? index = list.termAt? index
  keyBefore?_eq (index : Index) :
    log.keyBefore? index = (list.termAt? (index - 1)).map fun term => ⟨term, index - 1⟩
  held_iff (key : LogKey) : log.standing key = .held ↔ list.Holds key
  conflicting_iff (key : LogKey) : log.standing key = .conflicting ↔ list.Conflicts key
  beyond_iff (key : LogKey) :
    log.standing key = .beyond ↔ ¬ key.IsNull ∧ list.read? key.index = none

theorem Follows.shows (h : log.Follows plain) : log.Shows plain.entries where
  size_eq := h.size_eq
  isEmpty_eq := by
    rw [isEmpty, h.size_eq]
    cases plain.entries <;> rfl
  lastIndex_eq := congrArg (· - 1) h.size_eq
  lastKey_eq := by rw [lastKey, Entries.lastKey, h.lastTerm_eq, lastIndex, h.size_eq]
  entryAt?_eq index := congrArg (fun list : Entries => list.entryAt? index) h.entries_eq
  termAt?_eq index := congrArg (fun list : Entries => list.termAt? index) h.entries_eq
  keyBefore?_eq index := congrArg (fun list : Entries =>
    (list.termAt? (index - 1)).map fun term => LogKey.mk term (index - 1)) h.entries_eq
  held_iff key := by rw [standing_eq_held, h.entries_eq]
  conflicting_iff key := by rw [standing_eq_conflicting, h.entries_eq]
  beyond_iff key := by rw [standing_eq_beyond_iff, h.entries_eq]

/-- The log in a new directory. -/
def fresh : Log Backend := ofStore (.disk ⟨⟨some [], none⟩, [], [], 0, []⟩)

/-- Two entries, of which the second one can be dropped, and nothing can be written then. -/
def crowded : List LogEvent := [
  .call (.push 1 [7]), .call (.push 1 [8]), .schedule [.done, .failed "no space left" 5]]

end Log

end Consensus
