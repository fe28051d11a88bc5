import Consensus.Proofs.Life.Faults

/-! # Applying without failure

Whatever comes into a log can be read as a command: the wire refuses a request that carries
anything else, and a leader writes what it is given itself. A server that starts over such a log,
and whose writes succeed, applies what it commits in the same call and for as long as it lives.
-/

namespace Consensus

variable {σ : Type} [Store σ] [LawfulStore σ]

namespace Server

variable {server : Server σ}

/-- What a server can come to while writes succeed, when it first started from a log that can be
applied: by calls with any frames and commands, and by new starts on what it has stored. -/
inductive Untroubled : Server σ → Prop
  | start {config : Config} {store : σ} {draws : Draws} {now : Duration} {server : Server σ}
      (hvalid : LawfulStore.Valid store) (hreliable : Store.Reliable store)
      (hdecodes : ∀ entry ∈ Store.entries store, Command.Decodes entry.command)
      (hstart : start config store draws now = .ok server) : Untroubled server
  | call {server : Server σ} (h : Untroubled server) (now : Duration) (call : Call) :
      Untroubled (server.call now call).server
  | restart {server restarted : Server σ} (h : Untroubled server) {config : Config} {store : σ}
      {draws : Draws} {now : Duration} (hvalid : LawfulStore.Valid store)
      (hreliable : Store.Reliable store) (hentries : Store.entries store = server.log.entries)
      (hstart : Server.start config store draws now = .ok restarted) : Untroubled restarted

/-- The server has all that it needs to go on without failing. -/
structure Sound (server : Server σ) : Prop where
  coherent : server.Coherent
  ready : server.Ready
  diligent : server.Diligent
  reliable : Store.Reliable server.log.store

/-- A server that starts over a reliable log of commands is sound. -/
theorem sound_of_start {config : Config} {store : σ} {draws : Draws} {now : Duration}
    (hvalid : LawfulStore.Valid store) (hreliable : Store.Reliable store)
    (hdecodes : ∀ entry ∈ Store.entries store, Command.Decodes entry.command)
    (hstart : start config store draws now = .ok server) : server.Sound := by
  obtain ⟨_, hcoherent, _, hview⟩ := start_eq_ok hvalid hstart
  have hlog : server.log.entries = Store.entries store := congrArg View.log hview
  have hreachable : server.Reachable := .start hvalid hstart
  refine ⟨hcoherent, ⟨hreachable.orderly, hlog ▸ hdecodes⟩, hreachable.diligent, ?_⟩
  rw [store_of_start hstart]
  exact hreliable

/-- A call leaves a sound server sound, and does not fail without an excuse. -/
theorem Sound.call (h : server.Sound) (now : Duration) (call : Call) :
    (server.call now call).server.Sound ∧
      ∀ failure, (server.call now call).answer = .error failure → call.Excused server := by
  have hready : (server.call now call).server.Ready :=
    h.ready.moves call.intake_legible (call_moves h.coherent now call)
  have hsound : Store.Reliable (server.call now call).server.log.store →
      (server.call now call).server.Sound := fun hreliable =>
    ⟨call_coherent h.coherent now call, hready,
      call_diligent h.coherent h.ready.orderly h.diligent now call, hreliable⟩
  have hends := call_concludes h.coherent now call
  unfold Outcome.Ends at hends
  split at hends
  next answer hanswer =>
    obtain ⟨last, ⟨hwrote, _⟩, hserver, _⟩ := hends
    refine ⟨hsound ?_, fun failure hfailed => nomatch hanswer.symm.trans hfailed⟩
    rw [hserver]
    exact hwrote.reliable h.reliable
  next =>
    obtain ⟨last, hhalts | hstuck, hserver, _⟩ := hends
    · obtain ⟨hexcused, hdurable⟩ := hhalts.excused h.reliable
      refine ⟨hsound ?_, fun _ _ => hexcused⟩
      rw [hserver, log, hdurable]
      exact h.reliable
    · exact absurd (hserver ▸ hstuck) hready.not_stuck

/-- A sound server has applied all that it has committed. -/
theorem Sound.lastApplied_eq (h : server.Sound) :
    server.progress.lastApplied = server.commitIndex :=
  h.diligent.lastApplied_eq h.ready

/-- A sound server takes every frame without failing. -/
theorem Sound.receive (h : server.Sound) (now : Duration) (sender : ServerId) (frame : Bytes) :
    (server.receive now sender frame).server.Sound ∧
      (server.receive now sender frame).answer = .ok () := by
  obtain ⟨hsound, hexcused⟩ := h.call now (.receive sender frame)
  refine ⟨hsound, ?_⟩
  cases hanswer : (server.receive now sender frame).answer with
  | ok => rfl
  | error failure =>
    have hfailed : (server.call now (.receive sender frame)).answer = .error failure := by
      show (server.receive now sender frame).answer.map _ = _
      rw [hanswer]
      rfl
    cases hexcused failure hfailed with
    | overlong _ hcommand => cases hcommand

/-- An untroubled server is sound. -/
theorem Untroubled.sound (h : server.Untroubled) : server.Sound := by
  induction h with
  | start hvalid hreliable hdecodes hstart => exact sound_of_start hvalid hreliable hdecodes hstart
  | call _ now call ih => exact (ih.call now call).1
  | restart _ hvalid hreliable hentries hstart ih =>
    exact sound_of_start hvalid hreliable (hentries ▸ ih.ready.decodes) hstart

/-- A life in which writes succeed is untroubled. -/
theorem Untroubled.after {server : Server MemoryStore} (h : server.Untroubled)
    {incidents : List Incident} (hfaultless : ∀ faulty, Incident.fault faulty ∉ incidents) :
    (server.after incidents).Untroubled := by
  induction incidents generalizing server with
  | nil => exact h
  | cons incident rest ih =>
    refine ih ?_ fun faulty hfault => hfaultless faulty (List.mem_cons_of_mem _ hfault)
    cases incident with
    | call now call => exact h.call now call
    | fault faulty => exact absurd List.mem_cons_self (hfaultless faulty)
    | restart draws now =>
      unfold meet
      dsimp only
      split
      next => exact h
      next started hstart => exact h.restart trivial h.sound.reliable rfl hstart

/-- Applying never fails. While writes succeed, a server that first started from a log that can be
applied has a log that can be applied and has applied what it has committed, whatever it was given.
No call of it fails over its store, so none finds a committed entry missing or no command. -/
theorem Untroubled.applying_never_fails (h : server.Untroubled) :
    (∀ entry ∈ server.log.entries, Command.Decodes entry.command) ∧
      server.progress.lastApplied = server.commitIndex ∧
      ∀ now call cause, (server.call now call).answer ≠ .error (.storage cause) :=
  ⟨h.sound.ready.decodes, h.sound.lastApplied_eq, fun now call cause hfailed =>
    answer_ne_storage_of_excused ((h.sound.call now call).2 _ hfailed) cause hfailed⟩

end Server

namespace Trio

/-- A leader has committed a command and starts again, and then hears of it from the next one. -/
def revival : List Incident :=
  campaign ++ [.call (.ofSeconds 1 0) (.submit Handover.command),
    arrival 2 (.appendResponse ⟨1, true, 2, 0⟩), .restart Handover.draws (.ofSeconds 2 0),
    arrival 3 (.appendRequest ⟨2, 3, ⟨1, 0⟩, 0, none⟩)]

end Trio

/-- The server applied a command, started again, and applies it anew. -/
theorem Server.Untroubled.applying_never_fails_revival :
    (Trio.server.after Trio.revival).Untroubled ∧
      (Trio.server.after Trio.revival).commitIndex = 0 ∧
      (∀ entry ∈ (Trio.server.after Trio.revival).log.entries,
        Command.Decodes entry.command) ∧
      (Trio.server.after Trio.revival).progress.lastApplied =
        (Trio.server.after Trio.revival).commitIndex ∧
      ∀ now call cause,
        ((Trio.server.after Trio.revival).call now call).answer ≠ .error (.storage cause) := by
  have hstart : Server.start Trio.config ({} : MemoryStore) Handover.draws .zero =
      .ok Trio.server := rfl
  have hbegun : Trio.server.Untroubled :=
    .start trivial (MemoryStore.reliable rfl) (List.forall_mem_nil _) hstart
  have huntroubled : (Trio.server.after Trio.revival).Untroubled := by
    refine hbegun.after fun faulty => ?_
    simp [Trio.revival, Trio.campaign, Trio.timeout, Trio.arrival]
  exact ⟨huntroubled, by decide +kernel, huntroubled.applying_never_fails⟩

end Consensus
