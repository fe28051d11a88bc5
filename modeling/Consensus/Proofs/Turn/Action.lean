import Consensus.Server.Turn

/-! # Reasoning about turns

What holds after an action is computed from the action backwards, one rule for each way
that actions are put together. An action may also fail, and then the turn it leaves
counts as much as the one that a success leaves.
-/

namespace Consensus

/-- The messages posted so far, oldest first. -/
def Turn.messages {σ : Type} (turn : Turn σ) : List (ServerId × Message) :=
  turn.postings.map fun posting => (posting.receiver, posting.message)

namespace Action

variable {σ α β : Type}

/-- Run from `turn`, the action leaves a turn that satisfies `done`, or `failed` after a
failure. -/
def Ends (action : Action σ α) (done : α → Turn σ → Prop) (failed : Turn σ → Prop)
    (turn : Turn σ) : Prop :=
  match action.run turn with
  | .ok answer last => done answer last
  | .error _ last => failed last

variable {done : α → Turn σ → Prop} {failed : Turn σ → Prop} {turn : Turn σ}

/-- Less can be said of how an action ends, whether or not it fails. -/
theorem Ends.imp {action : Action σ α} {wider : α → Turn σ → Prop} {looser : Turn σ → Prop}
    (h : action.Ends done failed turn)
    (hdone : ∀ answer last, done answer last → wider answer last)
    (hfailed : ∀ last, failed last → looser last) : action.Ends wider looser turn := by
  unfold Ends at h ⊢
  cases hrun : action.run turn with
  | ok answer last =>
    rw [hrun] at h
    exact hdone answer last h
  | error failure last =>
    rw [hrun] at h
    exact hfailed last h

/-- What an action ends in, when it succeeds, may be weakened. -/
theorem Ends.mono {action : Action σ α} {wider : α → Turn σ → Prop}
    (h : action.Ends done failed turn)
    (hdone : ∀ answer last, done answer last → wider answer last) :
    action.Ends wider failed turn :=
  h.imp hdone fun _ hlast => hlast

/-- What can be said of how an action ends can be said together. -/
theorem Ends.and {action : Action σ α} {also : α → Turn σ → Prop} {besides : Turn σ → Prop}
    (h : action.Ends done failed turn) (hother : action.Ends also besides turn) :
    action.Ends (fun answer last => done answer last ∧ also answer last)
      (fun last => failed last ∧ besides last) turn := by
  unfold Ends at h hother ⊢
  cases hrun : action.run turn with
  | ok answer last =>
    rw [hrun] at h hother
    exact ⟨h, hother⟩
  | error failure last =>
    rw [hrun] at h hother
    exact ⟨h, hother⟩

/-! ## Rules -/

@[simp] theorem ends_pure (answer : α) :
    (pure answer : Action σ α).Ends done failed turn ↔ done answer turn := Iff.rfl

/-- An action ends as its rest does, begun where its first part ends. -/
@[simp] theorem ends_bind (action : Action σ β) (rest : β → Action σ α) :
    (action >>= rest).Ends done failed turn ↔
      action.Ends (fun answer last => (rest answer).Ends done failed last) failed turn := by
  unfold Ends
  rw [EStateM.run_bind]
  cases action.run turn <;> rfl

@[simp] theorem ends_throw (failure : Failure) :
    (throw failure : Action σ α).Ends done failed turn ↔ failed turn := Iff.rfl

@[simp] theorem ends_server {done : Server σ → Turn σ → Prop} :
    (Action.server : Action σ (Server σ)).Ends done failed turn ↔ done turn.server turn := Iff.rfl

@[simp] theorem ends_now {done : Duration → Turn σ → Prop} :
    (Action.now : Action σ Duration).Ends done failed turn ↔ done turn.now turn := Iff.rfl

variable {done : Unit → Turn σ → Prop}

@[simp] theorem ends_modifyServer (change : Server σ → Server σ) :
    (modifyServer change).Ends done failed turn ↔
      done () { turn with server := change turn.server } := Iff.rfl

@[simp] theorem ends_setRole (role : Role) :
    (setRole role).Ends done failed turn ↔
      done () { turn with server := { turn.server with role } } := Iff.rfl

@[simp] theorem ends_modifyProgress (change : Progress → Progress) :
    (modifyProgress change).Ends done failed turn ↔
      done () { turn with
        server := { turn.server with progress := change turn.server.progress } } := Iff.rfl

@[simp] theorem ends_modifyTimer (change : Countdown → Duration → Countdown) :
    (modifyTimer change).Ends done failed turn ↔
      done () { turn with
        server := { turn.server with timer := change turn.server.timer turn.now } } := Iff.rfl

/-- A message is posted with its sender as it is at that moment. -/
@[simp] theorem ends_post (receiver : ServerId) (message : Message) :
    (post receiver message).Ends done failed turn ↔
      done () { turn with
        postings := turn.postings ++ [⟨receiver, message, turn.server⟩] } := Iff.rfl

/-- A change of what is durable is taken over, or it fails and the turn stays as it is. -/
theorem ends_changeDurable_cases {change : Durable σ → Except Failure (Durable σ)}
    (hdone : ∀ durable, change turn.server.durable = .ok durable →
      done () { turn with server := { turn.server with durable } })
    (hfailed : ∀ failure, change turn.server.durable = .error failure → failed turn) :
    (changeDurable change).Ends done failed turn := by
  unfold changeDurable
  rw [ends_bind, ends_server]
  split
  next durable hchange => exact hdone durable hchange
  next failure hchange => exact hfailed failure hchange

theorem ends_changeDurable {change : Durable σ → Except Failure (Durable σ)}
    (hdone : ∀ durable, change turn.server.durable = .ok durable →
      done () { turn with server := { turn.server with durable } })
    (hfailed : failed turn) : (changeDurable change).Ends done failed turn :=
  ends_changeDurable_cases hdone fun _ _ => hfailed

/-- A choice ends as the branch that is taken. -/
theorem ends_ite {p : Prop} [Decidable p] {done : α → Turn σ → Prop} {first second : Action σ α}
    (hfirst : p → first.Ends done failed turn) (hsecond : ¬ p → second.Ends done failed turn) :
    (if p then first else second).Ends done failed turn := by
  split
  next h => exact hfirst h
  next h => exact hsecond h

/-- What every round of a loop keeps, the loop keeps. -/
theorem ends_forM (invariant : Turn σ → Prop) {body : β → Action σ Unit} {items : List β}
    (hbody : ∀ item ∈ items, ∀ last, invariant last →
      (body item).Ends (fun _ => invariant) failed last) (hstart : invariant turn) :
    (items.forM body).Ends (fun _ => invariant) failed turn := by
  induction items generalizing turn with
  | nil => exact hstart
  | cons item rest ih =>
    rw [List.forM_eq_forM, List.forM_cons, ends_bind]
    apply (hbody item (by simp) turn hstart).mono
    intro _ last hlast
    exact ih (fun other hother => hbody other (List.mem_cons_of_mem _ hother)) hlast

/-- A call leaves behind the turn that its action ends with. -/
theorem Ends.turn_cases {action : Action σ α} {server : Server σ} {now : Duration}
    {done : α → Turn σ → Prop} (h : action.Ends done failed ⟨server, now, []⟩) :
    (∃ answer last, server.turn now action = ⟨last.server, last.postings, .ok answer⟩ ∧
        done answer last) ∨
      ∃ failure last, server.turn now action = ⟨last.server, last.postings, .error failure⟩ ∧
        failed last := by
  unfold Ends at h
  unfold Server.turn
  split
  next answer last hrun =>
    rw [hrun] at h
    exact .inl ⟨answer, last, rfl, h⟩
  next failure last hrun =>
    rw [hrun] at h
    exact .inr ⟨failure, last, rfl, h⟩

/-- An action that cannot fail has its call succeed. -/
theorem Ends.turn_done {action : Action σ α} {server : Server σ} {now : Duration}
    {done : α → Turn σ → Prop} (h : action.Ends done (fun _ => False) ⟨server, now, []⟩) :
    ∃ answer last, server.turn now action = ⟨last.server, last.postings, .ok answer⟩ ∧
      done answer last := by
  rcases h.turn_cases with hdone | ⟨_, _, _, hnever⟩
  · exact hdone
  · exact hnever.elim

/-- What an action ends with is what the call leaves behind. -/
theorem Ends.outcome {action : Action σ α} {server : Server σ} {now : Duration}
    {done : α → Turn σ → Prop} (claim : Outcome σ α → Prop)
    (h : action.Ends done failed ⟨server, now, []⟩)
    (hdone : ∀ answer last, done answer last → claim ⟨last.server, last.postings, .ok answer⟩)
    (hfailed : ∀ failure last, failed last →
      claim ⟨last.server, last.postings, .error failure⟩) :
    claim (server.turn now action) := by
  rcases h.turn_cases with ⟨answer, last, hturn, hlast⟩ | ⟨failure, last, hturn, hlast⟩
  · rw [hturn]
    exact hdone answer last hlast
  · rw [hturn]
    exact hfailed failure last hlast

/-! ## Failures -/

/-- Run from `turn`, the action fails in this way. -/
def FailsWith (action : Action σ α) (failure : Failure) (turn : Turn σ) : Prop :=
  ∃ last, action.run turn = .error failure last

variable {failure : Failure}

/-- What follows a failure is not reached. -/
theorem FailsWith.bind {action : Action σ β} (h : action.FailsWith failure turn)
    (rest : β → Action σ α) : (action >>= rest).FailsWith failure turn := by
  obtain ⟨last, hrun⟩ := h
  exact ⟨last, by rw [EStateM.run_bind, hrun]⟩

/-- A turn that fails answers with the failure. -/
theorem FailsWith.answer {action : Action σ α} {server : Server σ} {now : Duration}
    (h : action.FailsWith failure ⟨server, now, []⟩) :
    (server.turn now action).answer = .error failure := by
  obtain ⟨last, hrun⟩ := h
  unfold Server.turn
  rw [hrun]

theorem failsWith_server (rest : Server σ → Action σ α) :
    (Action.server >>= rest).FailsWith failure turn ↔ (rest turn.server).FailsWith failure turn :=
  Iff.rfl

theorem failsWith_setRole (role : Role) (rest : Unit → Action σ α) :
    (setRole role >>= rest).FailsWith failure turn ↔
      (rest ()).FailsWith failure { turn with server := { turn.server with role } } :=
  Iff.rfl

theorem failsWith_changeDurable {change : Durable σ → Except Failure (Durable σ)}
    (hchange : change turn.server.durable = .error failure) :
    (changeDurable change).FailsWith failure turn := by
  unfold changeDurable
  rw [failsWith_server, hchange]
  exact ⟨_, rfl⟩

end Action

end Consensus
