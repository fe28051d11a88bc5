import Consensus.Log.Key

/-! # Little-endian words

Integers are written as a fixed number of bytes, least significant first,
negative ones in two's complement. Writing wraps a value that does not fit;
within the range of the width, reading gives back what was written.
-/

namespace Consensus.Word

/-- How many values `width` bytes tell apart. -/
def bound : (width : Nat) → Nat
  | 0 => 1
  | width + 1 => 256 * bound width

/-- The low `width` bytes of a number, least significant byte first. -/
def ofNat : (width : Nat) → Nat → Bytes
  | 0, _ => []
  | width + 1, n => UInt8.ofNat (n % 256) :: ofNat width (n / 256)

/-- The number that a byte string spells, least significant byte first. -/
def toNat : Bytes → Nat
  | [] => 0
  | byte :: rest => byte.toNat + 256 * toNat rest

/-- An integer as `width` bytes in two's complement. -/
def encode (width : Nat) (value : Int) : Bytes :=
  ofNat width (value % (bound width : Int)).toNat

/-- The integer that a byte string spells in two's complement of its own width. -/
def decode (bytes : Bytes) : Int := Int.bmod (toNat bytes) (bound bytes.length)

/-- The integers that `width` bytes can hold. -/
def InRange (width : Nat) (value : Int) : Prop :=
  -(bound width : Int) ≤ 2 * value ∧ 2 * value < (bound width : Int)

instance (width : Nat) (value : Int) : Decidable (InRange width value) :=
  inferInstanceAs (Decidable (-(bound width : Int) ≤ 2 * value ∧ 2 * value < (bound width : Int)))

/-- The integer at `offset` of a frame that is long enough. -/
def field (bytes : Bytes) (offset width : Nat) : Int :=
  decode ((bytes.drop offset).take width)

theorem bound_pos (width : Nat) : 0 < bound width := by
  induction width with
  | zero => decide
  | succ width ih =>
    simp only [bound]
    omega

@[simp] theorem length_ofNat (width n : Nat) : (ofNat width n).length = width := by
  induction width generalizing n with
  | zero => rfl
  | succ width ih => simp [ofNat, ih]

@[simp] theorem length_encode (width : Nat) (value : Int) :
    (encode width value).length = width := length_ofNat ..

theorem toNat_ofNat (width n : Nat) : toNat (ofNat width n) = n % bound width := by
  induction width generalizing n with
  | zero => simp [ofNat, toNat, bound, Nat.mod_one]
  | succ width ih =>
    have hbyte : (UInt8.ofNat (n % 256)).toNat = n % 256 := by simp
    rw [ofNat, toNat, ih, hbyte, bound, Nat.mod_mul]

theorem toNat_lt (bytes : Bytes) : toNat bytes < bound bytes.length := by
  induction bytes with
  | nil => decide
  | cons byte rest ih =>
    have hbyte : byte.toNat < 256 := byte.toNat_lt
    simp only [toNat, List.length_cons, bound]
    omega

theorem ofNat_toNat (bytes : Bytes) : ofNat bytes.length (toNat bytes) = bytes := by
  induction bytes with
  | nil => rfl
  | cons byte rest ih =>
    have hbyte : byte.toNat < 256 := byte.toNat_lt
    have hmod : (byte.toNat + 256 * toNat rest) % 256 = byte.toNat := by omega
    have hdiv : (byte.toNat + 256 * toNat rest) / 256 = toNat rest := by omega
    simp [toNat, ofNat, hmod, hdiv, ih]

/-- Reading undoes writing within the range of the width. -/
theorem decode_encode {width : Nat} {value : Int} (h : InRange width value) :
    decode (encode width value) = value := by
  have hpos : (0 : Int) < bound width := Int.natCast_pos.mpr (bound_pos width)
  have hnonneg := Int.emod_nonneg value (Int.ne_of_gt hpos)
  have hlt := Int.emod_lt_of_pos value hpos
  rw [decode, length_encode, encode, toNat_ofNat]
  have hsmall : (value % (bound width : Int)).toNat < bound width := by omega
  rw [Nat.mod_eq_of_lt hsmall, Int.toNat_of_nonneg hnonneg, Int.emod_bmod]
  exact Int.bmod_eq_of_le_mul_two (by have := h.1; omega) (by have := h.2; omega)

/-- Writing undoes reading for every byte string. -/
theorem encode_decode (bytes : Bytes) : encode bytes.length (decode bytes) = bytes := by
  have hlt := toNat_lt bytes
  rw [encode, decode, Int.bmod_emod]
  have hsmall : ((toNat bytes : Int) % (bound bytes.length : Int)).toNat = toNat bytes := by
    rw [Int.emod_eq_of_lt (Int.natCast_nonneg _) (Int.ofNat_lt.mpr hlt)]
    exact Int.toNat_natCast _
  rw [hsmall, ofNat_toNat]

end Consensus.Word
