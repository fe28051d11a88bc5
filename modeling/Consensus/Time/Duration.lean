/-! # Durations

A span of time is a whole number of nanoseconds. Clock readings are durations
since an arbitrary origin, so a later reading less an earlier one is again a
duration, and the opposite difference is zero.
-/

namespace Consensus

/-- A span of time, or a clock reading measured from the clock's origin. -/
structure Duration where
  nanoseconds : Nat
  deriving DecidableEq, Repr, Inhabited

namespace Duration

/-- Nanoseconds in a second. -/
def perSecond : Nat := 1000000000

/-- Nanoseconds in a millisecond. -/
def perMillisecond : Nat := 1000000

/-- Nanoseconds in a microsecond. -/
def perMicrosecond : Nat := 1000

def zero : Duration := ⟨0⟩

def ofMilliseconds (count : Nat) : Duration := ⟨count * perMillisecond⟩

def ofSeconds (seconds : Nat) (nanoseconds : Nat) : Duration :=
  ⟨seconds * perSecond + nanoseconds⟩

/-- Whole seconds. -/
def seconds (span : Duration) : Nat := span.nanoseconds / perSecond

/-- Nanoseconds beyond the whole seconds. -/
def subsecond (span : Duration) : Nat := span.nanoseconds % perSecond

instance : LE Duration := ⟨fun first second => first.nanoseconds ≤ second.nanoseconds⟩

instance : LT Duration := ⟨fun first second => first.nanoseconds < second.nanoseconds⟩

instance (first second : Duration) : Decidable (first ≤ second) :=
  inferInstanceAs (Decidable (first.nanoseconds ≤ second.nanoseconds))

instance (first second : Duration) : Decidable (first < second) :=
  inferInstanceAs (Decidable (first.nanoseconds < second.nanoseconds))

instance : Add Duration := ⟨fun first second => ⟨first.nanoseconds + second.nanoseconds⟩⟩

/-- Time since `earlier`; zero when the reading has gone backwards. -/
def since (reading earlier : Duration) : Duration :=
  ⟨reading.nanoseconds - earlier.nanoseconds⟩

theorem le_iff {first second : Duration} :
    first ≤ second ↔ first.nanoseconds ≤ second.nanoseconds := Iff.rfl

theorem lt_iff {first second : Duration} :
    first < second ↔ first.nanoseconds < second.nanoseconds := Iff.rfl

@[simp] theorem nanoseconds_add (first second : Duration) :
    (first + second).nanoseconds = first.nanoseconds + second.nanoseconds := rfl

@[simp] theorem nanoseconds_since (reading earlier : Duration) :
    (reading.since earlier).nanoseconds = reading.nanoseconds - earlier.nanoseconds := rfl

/-- The digits of `value` as `places` decimal places, without trailing zeros. -/
def fractionDigits (value places : Nat) : List Char :=
  let digits := Nat.toDigits 10 value
  let padded := List.replicate (places - digits.length) '0' ++ digits
  (padded.reverse.dropWhile (· == '0')).reverse

/-- A whole number and a fraction of `places` places. The point is written
only in front of a nonempty fraction. -/
def decimalText (whole fraction places : Nat) : String :=
  match fractionDigits fraction places with
  | [] => toString whole
  | digits => toString whole ++ "." ++ String.ofList digits

/-- A duration in its largest unit of seconds, milliseconds, microseconds and
nanoseconds that is not empty, with an exact fraction. -/
def text (span : Duration) : String :=
  let nanos := span.nanoseconds
  if perSecond ≤ nanos then
    decimalText (nanos / perSecond) (nanos % perSecond) 9 ++ "s"
  else if perMillisecond ≤ nanos then
    decimalText (nanos / perMillisecond) (nanos % perMillisecond) 6 ++ "ms"
  else if perMicrosecond ≤ nanos then
    decimalText (nanos / perMicrosecond) (nanos % perMicrosecond) 3 ++ "µs"
  else
    toString nanos ++ "ns"

end Duration

end Consensus
