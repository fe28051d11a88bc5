import Consensus.Proofs.Machine.Independence
import Consensus.Proofs.Wire.Exact
import Mathlib.Data.List.Infix

/-! # Sums that fit

Whatever a frame says, a server adds one to an index, or takes one from it, only after it has
found the index in its log or has brought it into the range of its log. So the words of a running
program hold every sum, as long as the log is shorter than the highest index, and it makes no
difference whether a sum that does not fit would wrap or stop the program.
-/

namespace Consensus

/-! ## Terms -/

/-- The term of a message that was read is a word. -/
theorem Message.term_inRange {frame : Bytes} {message : Message}
    (hdecode : Message.decode frame = .ok message) : Word.InRange 4 message.term := by
  obtain ⟨kind, hkind, hterm⟩ := bind_eq_ok.mp (term_of_decode hdecode)
  obtain ⟨hlong, _⟩ := Frame.kind_eq_ok hkind
  rw [← Except.ok.inj hterm]
  exact Word.field_inRange hlong

namespace View

variable {intake : Intake} {view next later : View}

/-- A term that is taken over has arrived, and one that is opened is not past the last one. -/
theorem Move.term_inRange
    (hreceived : ∀ sender message, intake.received sender message → Word.InRange 4 message.term)
    (hmove : view.Move intake next) (h : Word.InRange 4 view.term) :
    Word.InRange 4 next.term := by
  cases hmove with
  | adopt harrived => exact hreceived _ _ harrived
  | campaign _ hterm =>
    simp only [Word.InRange, Word.bound, maxTerm] at h hterm ⊢
    lia
  | _ => exact h

theorem Moves.term_inRange
    (hreceived : ∀ sender message, intake.received sender message → Word.InRange 4 message.term)
    (hmoves : view.Moves intake later) (h : Word.InRange 4 view.term) :
    Word.InRange 4 later.term := by
  induction hmoves with
  | refl => exact h
  | tail _ hmove ih => exact hmove.term_inRange hreceived ih

end View

namespace Server

variable {σ : Type} [Store σ] [LawfulStore σ] {server : Server σ}

theorem call_term_inRange (hcoherent : server.Coherent) (hterm : Word.InRange 4 server.term)
    (now : Duration) (call : Call) : Word.InRange 4 (server.call now call).server.term := by
  refine (call_moves hcoherent now call).term_inRange ?_ hterm
  rintro sender message ⟨frame, _, hdecode⟩
  exact Message.term_inRange hdecode

omit [LawfulStore σ] in
/-- The next term is a word, or there is none. -/
theorem openElection_exhausted (hterm : Word.InRange 4 server.term) :
    Word.InRange 4 (server.term + 1) ∨
      server.durable.openElection server.id = .error (.termExhausted server.term) := by
  by_cases hlast : maxTerm ≤ server.term
  · exact .inr (if_pos hlast)
  · left
    simp only [Word.InRange, Word.bound, maxTerm] at hterm hlast ⊢
    lia

/-! ## Room in whatever a server can come to -/

/-- The cursors of a leader are within its log, and no other server has any. -/
theorem Reachable.fits_of_mem_cursors (h : server.Reachable)
    (hsize : server.log.size ≤ Cursor.maxIndex) :
    ∀ cursor ∈ server.progress.cursors, cursor.Fits := by
  intro cursor hcursor
  by_cases hleads : server.role.isLeader = true
  · have hwithin := (h.inOrder.tracks hleads).within cursor hcursor
    have hnext := Int.le_trans hwithin.next_le hsize
    exact ⟨hwithin.next_nonneg, hnext, hwithin.matched_ge,
      Int.lt_of_lt_of_le hwithin.matched_lt hnext⟩
  · have hnone := h.coherent.cursors_eq (Bool.eq_false_iff.mpr hleads)
    exact absurd hcursor (hnone ▸ List.not_mem_nil)

theorem Reachable.spares (h : server.Reachable) (hsize : server.log.size < Cursor.maxIndex) :
    server.Spares 1 := by
  have horderly := h.orderly
  have hcommit : server.commitIndex < Cursor.maxIndex := Int.lt_trans horderly.commit_lt hsize
  exact
    { coherent := h.coherent.durable.log
      size_le := Int.add_one_le_of_lt hsize
      commit_lt := hcommit
      applied_ge := horderly.applied_ge
      applied_lt := Int.lt_of_le_of_lt horderly.applied_le hcommit
      cursors := h.fits_of_mem_cursors (Int.le_of_lt hsize) }

end Server

/-! ## Calls -/

namespace Machine

variable {σ τ : Type} [Store σ] [LawfulStore σ] [Transport τ]
variable {machine : Machine σ τ} {arithmetic : Arithmetic}

/-- A machine with a server that can come about, in a term that is a word. -/
structure Attainable (machine : Machine σ τ) : Prop where
  reachable : machine.server.Reachable
  term_inRange : Word.InRange 4 machine.server.term

theorem Attainable.call (h : machine.Attainable) (now : Duration) (call : Call) :
    (machine.call .exact now call).2.Attainable := by
  have hserver := @call_server σ τ _ _ .exact machine now (.exact rfl) rfl call
  constructor
  · rw [hserver]
    exact h.reachable.call now call
  · rw [hserver]
    exact Server.call_term_inRange h.reachable.coherent h.term_inRange now call

theorem Attainable.after (h : machine.Attainable) (calls : List (Duration × Call)) :
    (machine.after .exact calls).Attainable := by
  induction calls generalizing machine with
  | nil => exact h
  | cons first rest ih => exact ih (h.call first.1 first.2)

/-- In a call, sums of words do as well as sums of integers. -/
theorem call_eq_exact (hwords : arithmetic.OnWords) (h : machine.Attainable)
    (hsize : machine.server.log.size < Cursor.maxIndex) (now : Duration) (call : Call) :
    machine.call arithmetic now call = machine.call .exact now call := by
  have hroom : Room arithmetic 1 machine.server := .words hwords (h.reachable.spares hsize)
  have hterm : arithmetic.nextTerm machine.server.term =
      Arithmetic.exact.nextTerm machine.server.term :=
    (hwords.nextTerm_eq h.term_inRange).trans (Arithmetic.exact_nextTerm h.term_inRange).symm
  by_cases htransfer : call.IsTransfer
  · cases call with
    | transfer target => rfl
    | _ => exact htransfer.elim
  · rw [call_eq_settle hroom hterm htransfer, call_eq_settle (.exact rfl) rfl htransfer]

/-- They do so in call after call as long as the log is short enough. -/
theorem after_eq_exact (hwords : arithmetic.OnWords) (h : machine.Attainable)
    {calls : List (Duration × Call)}
    (hshort : ∀ front, front <+: calls →
      (machine.after .exact front).server.log.size < Cursor.maxIndex) :
    machine.after arithmetic calls = machine.after .exact calls := by
  induction calls generalizing machine with
  | nil => rfl
  | cons first rest ih =>
    have hfirst := call_eq_exact hwords h (hshort [] (List.nil_prefix)) first.1 first.2
    have hrest := ih (h.call first.1 first.2) fun front hfront =>
      hshort (first :: front) (List.cons_prefix_cons.mpr ⟨rfl, hfront⟩)
    exact (congrArg (fun called => called.2.after arithmetic rest) hfirst).trans hrest

omit [LawfulStore σ] in
/-- With sums of integers a machine stops for failures only. -/
theorem exists_failure_of_call {now : Duration} {call : Call} {halt : Halt}
    (hhalts : (machine.call .exact now call).1 = .error halt) :
    ∃ failure, halt = .failure failure := by
  by_cases htransfer : call.IsTransfer
  · cases call with
    | transfer target =>
      have htransferred := map_eq_error.mp hhalts
      split at htransferred
      next failure _ => exact ⟨failure, (Except.error.inj htransferred).symm⟩
      next =>
        obtain ⟨cause, _, hcause⟩ := mapError_eq_error.mp htransferred
        exact ⟨.transport cause, hcause.symm⟩
    | _ => exact htransfer.elim
  · rw [call_eq_settle (.exact rfl) rfl htransfer] at hhalts
    obtain ⟨failure, _, hfailure⟩ := mapError_eq_error.mp hhalts
    exact ⟨failure, hfailure.symm⟩

/-- Whatever frames arrive, a machine forms no sum of indices that does not fit a word, as long
as its log is shorter than the highest index, so words that wrap give the same results as
integers. The term is a word throughout, and where there is no next one an election fails. -/
theorem sums_fit (hserver : machine.server.Reachable)
    (hterm : Word.InRange 4 machine.server.term) {calls : List (Duration × Call)}
    (hshort : ∀ front, front <+: calls →
      (machine.after .exact front).server.log.size < Cursor.maxIndex) :
    machine.after .checked calls = machine.after .exact calls ∧
      machine.after .wrapping calls = machine.after .exact calls ∧
      (∀ (now : Duration) (call : Call),
        let reached := machine.after .exact calls
        reached.call .checked now call = reached.call .exact now call ∧
          reached.call .wrapping now call = reached.call .exact now call ∧
          (reached.call .checked now call).1 ≠ .error .overflow) ∧
      Word.InRange 4 (machine.after .exact calls).server.term ∧
      (Word.InRange 4 ((machine.after .exact calls).server.term + 1) ∨
        (machine.after .exact calls).server.durable.openElection
            (machine.after .exact calls).server.id =
          .error (.termExhausted (machine.after .exact calls).server.term)) := by
  have hattainable : machine.Attainable := ⟨hserver, hterm⟩
  have hreached := hattainable.after calls
  have hsize := hshort calls List.prefix_rfl
  refine ⟨after_eq_exact Arithmetic.onWords_checked hattainable hshort,
    after_eq_exact Arithmetic.onWords_wrapping hattainable hshort, fun now call => ?_,
    hreached.term_inRange, Server.openElection_exhausted hreached.term_inRange⟩
  have hchecked := call_eq_exact Arithmetic.onWords_checked hreached hsize now call
  refine ⟨hchecked, call_eq_exact Arithmetic.onWords_wrapping hreached hsize now call, ?_⟩
  intro hoverflow
  rw [hchecked] at hoverflow
  obtain ⟨failure, hfailure⟩ := exists_failure_of_call hoverflow
  cases hfailure

end Machine

/-! ## Extreme frames -/

namespace Trio

/-- Server 2 answers a leader with indices at either end of the range, and asks it to take an
entry there. -/
def extremes : List (Duration × Call) :=
  [.appendResponse ⟨1, true, 2, 9223372036854775807⟩,
    .appendResponse ⟨1, false, 2, -9223372036854775808⟩,
    .appendRequest ⟨2, 2, ⟨2, 9223372036854775807⟩, 9223372036854775807,
      some ⟨2, -9223372036854775808, Command.layout ⟨1, 1, []⟩⟩⟩].map
    fun message => (.ofSeconds 1 0, .receive 2 (Message.encode message))

end Trio

namespace Machine

theorem sums_fit_extremes :
    (Trio.machine Trio.hesitant).server.Reachable ∧
      Word.InRange 4 (Trio.machine Trio.hesitant).server.term ∧
      (∀ front, front <+: Trio.candidacy ++ Trio.extremes →
        ((Trio.machine Trio.hesitant).after .exact front).server.log.size < Cursor.maxIndex) ∧
      (Trio.machine Trio.hesitant).after .wrapping (Trio.candidacy ++ Trio.extremes) =
        (Trio.machine Trio.hesitant).after .exact (Trio.candidacy ++ Trio.extremes) ∧
      ((Trio.machine Trio.hesitant).after .exact
        (Trio.candidacy ++ Trio.extremes)).server.term = 2 := by
  have hterm : Word.InRange 4 (Trio.machine Trio.hesitant).server.term := by decide
  have hshort : ∀ front, front <+: Trio.candidacy ++ Trio.extremes →
      ((Trio.machine Trio.hesitant).after .exact front).server.log.size < Cursor.maxIndex := by
    have hfronts : ∀ front ∈ (Trio.candidacy ++ Trio.extremes).inits,
        ((Trio.machine Trio.hesitant).after .exact front).server.log.size < Cursor.maxIndex := by
      decide +kernel
    exact fun front hfront => hfronts front ((List.mem_inits _ _).mpr hfront)
  exact ⟨Trio.reachable_server, hterm, hshort,
    (sums_fit Trio.reachable_server hterm hshort).2.1, by decide +kernel⟩

end Machine

end Consensus
