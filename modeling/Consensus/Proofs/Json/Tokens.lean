import Consensus.Json.Token
import Mathlib.Data.List.TakeWhile
import Mathlib.Tactic.Common

/-! # Tokens as they are written

A text is cut into tokens from its front, one rule for each kind of token. An integer in
decimal digits is one bare word, which is read as the integer wherever it stands.
-/

namespace Consensus.Json

/-! ## Digits -/

/-- A number that is not zero does not begin with the digit zero. -/
theorem head_toDigits_ne {n : Nat} (hpositive : 0 < n) :
    (Nat.toDigits 10 n).head? ≠ some '0' := by
  induction n using Nat.strongRecOn with
  | _ n ih =>
    rw [Nat.toDigits_eq_if (by decide)]
    split
    next hsmall =>
      simp only [List.head?_cons, ne_eq, Option.some.injEq, Nat.digitChar_eq_zero]
      lia
    next hlarge =>
      obtain ⟨first, rest, hdigits⟩ := List.exists_cons_of_ne_nil
        (Nat.toDigits_ne_nil : Nat.toDigits 10 (n / 10) ≠ [])
      have hfirst := ih (n / 10) (by lia) (by lia)
      rw [hdigits] at hfirst ⊢
      exact hfirst

theorem isWhole_of_head {digits : List Char} (hnonempty : digits ≠ [])
    (hhead : digits.head? ≠ some '0') : isWhole digits = true := by
  unfold isWhole
  split <;> simp_all

theorem isWhole_toDigits (n : Nat) : isWhole (Nat.toDigits 10 n) = true := by
  rcases Nat.eq_zero_or_pos n with rfl | hpositive
  · rw [Nat.toDigits_zero]
    rfl
  · exact isWhole_of_head Nat.toDigits_ne_nil (head_toDigits_ne hpositive)

theorem digitsValue_toDigits (n : Nat) : digitsValue (Nat.toDigits 10 n) = n := by
  rw [digitsValue, ← Nat.ofDigitChars_eq_foldl, Nat.ofDigitChars_ten_toDigits]

theorem isDigit_toDigits {n : Nat} : ∀ c ∈ Nat.toDigits 10 n, c.isDigit = true :=
  fun _ hc => Nat.isDigit_of_mem_toDigits (by decide) (by decide) hc

theorem takeWhile_toDigits (n : Nat) :
    (Nat.toDigits 10 n).takeWhile Char.isDigit = Nat.toDigits 10 n :=
  List.takeWhile_eq_self_iff.mpr isDigit_toDigits

theorem dropWhile_toDigits (n : Nat) : (Nat.toDigits 10 n).dropWhile Char.isDigit = [] :=
  List.dropWhile_eq_nil_iff.mpr isDigit_toDigits

theorem toList_toString (value : Int) :
    (toString value).toList =
      if 0 ≤ value then Nat.toDigits 10 value.toNat else '-' :: Nat.toDigits 10 (-value).toNat := by
  rw [Int.toString_eq_repr, Int.repr_eq_if]
  split <;> simp [Nat.repr_eq_ofList_toDigits, String.toList_append]

/-- What is written as an integer is read as that integer. -/
theorem number?_toString (value : Int) :
    number? (toString value).toList = some (.integer value) := by
  rw [toList_toString]
  split
  next hnonneg =>
    have hsign : ((Nat.toDigits 10 value.toNat).head? == some '-') = false := by
      refine beq_eq_false_iff_ne.mpr fun hhead => ?_
      have hdigit := isDigit_toDigits _ (List.mem_of_mem_head? hhead)
      exact absurd hdigit (by decide)
    have hvalue : (value.toNat : Int) = value := Int.toNat_of_nonneg hnonneg
    simp [number?, hsign, takeWhile_toDigits, dropWhile_toDigits, isWhole_toDigits, isFraction,
      isExponent, digitsValue_toDigits, hvalue]
  next hnegative =>
    have hvalue : -((-value).toNat : Int) = value := by lia
    obtain ⟨previous, hsuccessor⟩ : ∃ previous, (-value).toNat = previous + 1 :=
      Nat.exists_eq_succ_of_ne_zero (by lia)
    simp only [number?, List.head?_cons, beq_self_eq_true, if_true, List.drop_succ_cons,
      List.drop_zero, takeWhile_toDigits, dropWhile_toDigits, isWhole_toDigits, isFraction,
      isExponent, digitsValue_toDigits, Bool.not_true, Bool.or_self, List.isEmpty_nil]
    rw [hsuccessor] at hvalue ⊢
    exact congrArg (some <| Token.integer ·) hvalue

/-! ## Words -/

theorem isBare_of_isDigit {c : Char} (h : c.isDigit = true) : isBare c = true := by
  have hother (other : Char) (hno_digit : other.isDigit = false) : c ≠ other := by
    rintro rfl
    rw [h] at hno_digit
    cases hno_digit
  have hpunctuation : punctuation? c = none := by
    unfold punctuation?
    split <;> first | rfl | exact absurd h (by decide)
  simp [isBare, isBlank, hpunctuation, hother ' ' rfl, hother '\n' rfl, hother '\t' rfl,
    hother '\r' rfl, hother '"' rfl]

theorem mem_toString {value : Int} {c : Char} (hc : c ∈ (toString value).toList) :
    c.isDigit = true ∨ c = '-' := by
  rw [toList_toString] at hc
  split at hc
  next => exact .inl (isDigit_toDigits c hc)
  next => exact (List.mem_cons.mp hc).symm.imp_left (isDigit_toDigits c)

/-- An integer is written as one bare word. -/
theorem isBare_toString (value : Int) : ∀ c ∈ (toString value).toList, isBare c = true := by
  intro c hc
  rcases mem_toString hc with hdigit | rfl
  · exact isBare_of_isDigit hdigit
  · decide

theorem toString_ne_nil (value : Int) : (toString value).toList ≠ [] := by
  rw [toList_toString]
  split
  next => exact Nat.toDigits_ne_nil
  next => exact List.cons_ne_nil _ _

/-- The text of an integer reads as that integer. -/
theorem bare?_toString (value : Int) :
    bare? (toString value).toList = some (.integer value) := by
  have hother (first : Char) (rest : List Char) (hno_digit : first.isDigit = false)
      (hno_sign : first ≠ '-') : (toString value).toList ≠ first :: rest := by
    intro hword
    have hfirst : first ∈ (toString value).toList := hword ▸ List.mem_cons_self
    rcases mem_toString hfirst with hdigit | hsign
    · rw [hno_digit] at hdigit
      cases hdigit
    · exact hno_sign hsign
  rw [bare?, if_neg (hother 'n' _ rfl (by decide)), if_neg (hother 't' _ rfl (by decide)),
    if_neg (hother 'f' _ rfl (by decide)), number?_toString]

/-! ## Scanning -/

variable {c : Char} {rest : List Char} {token : Token}

theorem scan_blank (h : isBlank c = true) : scan (c :: rest) = scan rest := by
  rw [scan, if_pos h]

theorem scan_punctuation (h : punctuation? c = some token) :
    scan (c :: rest) = (scan rest).map (token :: ·) := by
  have hblank : isBlank c = false := by
    unfold punctuation? at h
    split at h <;> first | rfl | cases h
  have hquote : c ≠ '"' := by
    rintro rfl
    cases h
  rw [scan, if_neg (by simp [hblank]), if_neg hquote, h]

/-- A quoted text is one token. -/
theorem scan_quote {pieces : List Piece} {after : List Char}
    (h : scanText rest = some (pieces, after)) :
    scan ('"' :: rest) = (scan after).map (.text pieces :: ·) := by
  rw [scan, if_neg (by decide), if_pos rfl]
  split
  next hnone => cases h.symm.trans hnone
  next hsome => cases h.symm.trans hsome; rfl

/-- A bare word goes as far as bare characters do. -/
theorem scan_word {word : List Char} (hnonempty : word ≠ [])
    (hbare : ∀ c ∈ word, isBare c = true) (hend : ∀ c ∈ rest.head?, isBare c = false)
    (htoken : bare? word = some token) : scan (word ++ rest) = (scan rest).map (token :: ·) := by
  obtain ⟨first, front, rfl⟩ := List.exists_cons_of_ne_nil hnonempty
  have hfirst := hbare first List.mem_cons_self
  simp only [isBare, Bool.and_eq_true, Bool.not_eq_true', Option.isNone_iff_eq_none,
    bne_iff_ne] at hfirst
  obtain ⟨⟨hblank, hpunctuation⟩, hquote⟩ := hfirst
  have hfront : ∀ c ∈ front, isBare c = true := fun c hc => hbare c (List.mem_cons_of_mem _ hc)
  have hstop : rest.takeWhile isBare = [] ∧ rest.dropWhile isBare = rest := by
    cases rest with
    | nil => exact ⟨rfl, rfl⟩
    | cons next rest => simp [hend next rfl]
  have htaken : (front ++ rest).takeWhile isBare = front := by
    rw [List.takeWhile_append_of_pos hfront, hstop.1, List.append_nil]
  have hdropped : (front ++ rest).dropWhile isBare = rest := by
    rw [List.dropWhile_append_of_pos hfront, hstop.2]
  rw [List.cons_append, scan, if_neg (by simp [hblank]), if_neg hquote, hpunctuation]
  simp only [htaken, hdropped, htoken]

/-- An integer is one token, if what follows it ends it. -/
theorem scan_integer (value : Int) (hend : ∀ c ∈ rest.head?, isBare c = false) :
    scan ((toString value).toList ++ rest) = (scan rest).map (.integer value :: ·) :=
  scan_word (toString_ne_nil value) (isBare_toString value) hend (bare?_toString value)

end Consensus.Json
