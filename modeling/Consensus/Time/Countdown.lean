import Consensus.Config.Fault

/-! # Countdowns

An election timer counts from a clock reading given from outside and never sleeps. Each
restart takes the next of an endless list of draws, so a run is determined by
the draws it starts with, and a statement about every run quantifies over them.
-/

namespace Consensus

/-- An endless list of draws, in nanoseconds, and how many have been used. -/
structure Draws where
  draw : Nat → Nat
  used : Nat := 0

/-- A countdown with a timeout between two bounds. -/
structure Countdown where
  lower : Duration
  upper : Duration
  start : Duration
  timeout : Duration
  draws : Draws

namespace Countdown

/-- Bounds are held as 64-bit counts of nanoseconds. -/
def maxNanoseconds : Nat := 18446744073709551615

/-- A timer that counts from the clock's origin to the upper bound. -/
def create (lower upper : Duration) (draws : Draws) : Except ConfigFault Countdown :=
  if upper < lower then
    .error (.timerReversed lower upper)
  else if maxNanoseconds < upper.nanoseconds then
    .error (.timerTooLong upper)
  else
    .ok { lower, upper, start := .zero, timeout := upper, draws }

/-- A draw brought between the bounds. -/
def bounded (timer : Countdown) (draw : Nat) : Duration :=
  ⟨max timer.lower.nanoseconds (min draw timer.upper.nanoseconds)⟩

/-- Takes a fresh timeout and counts from `now`. -/
def restart (timer : Countdown) (now : Duration) : Countdown :=
  { timer with
    start := now
    timeout := timer.bounded (timer.draws.draw timer.draws.used)
    draws := { timer.draws with used := timer.draws.used + 1 } }

/-- Counts from `now` with the timeout it has. -/
def reset (timer : Countdown) (now : Duration) : Countdown :=
  { timer with start := now }

/-- Makes the timer run out at once, until the next restart. -/
def expire (timer : Countdown) : Countdown :=
  { timer with timeout := .zero }

/-- The timeout has passed. A clock that went backwards has not moved at all. -/
def hasRunOut (timer : Countdown) (now : Duration) : Bool :=
  decide (timer.timeout ≤ now.since timer.start)

/-- The timeout lies between the bounds. -/
def InBounds (timer : Countdown) : Prop :=
  timer.lower ≤ timer.timeout ∧ timer.timeout ≤ timer.upper

instance (timer : Countdown) : Decidable timer.InBounds :=
  inferInstanceAs (Decidable (timer.lower ≤ timer.timeout ∧ timer.timeout ≤ timer.upper))

/-- A restart keeps the timeout between ordered bounds, whatever is drawn. -/
theorem restart_inBounds {timer : Countdown} (hbounds : timer.lower ≤ timer.upper)
    (now : Duration) : (timer.restart now).InBounds := by
  simp only [InBounds, restart, bounded, Duration.le_iff] at *
  omega

/-- The timers after each of `count` restarts, one at every nanosecond from `reading` on. -/
def restarts (timer : Countdown) (reading : Nat) : (count : Nat) → List Countdown
  | 0 => []
  | count + 1 =>
    let restarted := timer.restart ⟨reading⟩
    restarted :: restarted.restarts (reading + 1) count

end Countdown

end Consensus
