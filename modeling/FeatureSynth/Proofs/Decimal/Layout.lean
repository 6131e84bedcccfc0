/-
# The layouts of a decimal are numerals

Printed, a decimal is a run of digits, perhaps with a point among them and an
exponent behind them; `Numeral.Spells` says which decimal such a text spells.  The
lexer takes it apart into the same runs, with a sign if one stands in front, and its
value is that of the decimal.  Each layout spells the decimal it is made from: the
positional one moves zeros into the digits, the scientific one the place of the point
into the exponent.
-/
import FeatureSynth.Decimal.Layout
import FeatureSynth.Proofs.Decimal.Nearest
import FeatureSynth.Proofs.Formula.Tokens

namespace FeatureSynth

/-! ## Runs of digits -/

namespace Text

variable {c : Char} {s t : List Char}

/-- Only ASCII digits. -/
def Digits (s : List Char) : Prop := ∀ c ∈ s, c.isDigit = true

theorem range_of_isDigit (h : c.isDigit = true) : 0x30 ≤ c.toNat ∧ c.toNat ≤ 0x39 := by
  obtain ⟨hlow, hhigh⟩ := Bool.and_eq_true_iff.mp h
  have hlow := UInt32.le_iff_toNat_le.mp (of_decide_eq_true hlow)
  have hhigh := UInt32.le_iff_toNat_le.mp (of_decide_eq_true hhigh)
  exact ⟨hlow, hhigh⟩

theorem digitValue?_eq (h : c.isDigit = true) : digitValue? c = some (c.toNat - '0'.toNat) := by
  obtain ⟨hlow, hhigh⟩ := Bool.and_eq_true_iff.mp h
  exact if_pos ⟨of_decide_eq_true hlow, of_decide_eq_true hhigh⟩

theorem isDigit_of_ascii (h : c.isDigit = true) : isDigit c = true := by
  have hrange := range_of_isDigit h
  simp [isDigit, digitRanges, hrange]

/-- No token but a numeral starts with a digit. -/
theorem other_of_isDigit (h : c.isDigit = true) :
    isBlank c = false ∧ c ∉ Token.marks ∧ '#' ≠ c ∧ isIdentStart c = false := by
  obtain ⟨hlow, hhigh⟩ := range_of_isDigit h
  have hne : ∀ d : Char, d.toNat < 0x30 ∨ 0x39 < d.toNat → d ≠ c := by
    rintro d hd rfl
    omega
  refine ⟨?_, ?_, hne '#' (by decide), ?_⟩
  · simp [isBlank]
    omega
  · intro hmark
    have hall : Token.marks.all (fun d => d.toNat < 0x30 || 0x39 < d.toNat) := by decide
    exact hne c (by simpa using List.all_eq_true.mp hall c hmark) rfl
  · simp only [isIdentStart, Bool.or_eq_false_iff, Bool.and_eq_false_iff, decide_eq_false_iff_not,
      beq_eq_false_iff_ne, Char.le_def, UInt32.le_iff_toNat_le]
    refine ⟨⟨.inl ?_, .inl ?_⟩, (hne '_' (by decide)).symm⟩
    · show ¬ 0x61 ≤ c.toNat
      omega
    · show ¬ 0x41 ≤ c.toNat
      omega

theorem digitsValue?_eq (h : Digits s) : digitsValue? s = some (Nat.ofDigitChars 10 s 0) := by
  have hfold : ∀ (s : List Char) (n : ℕ), Digits s →
      s.foldl (fun n c => do pure (10 * (← n) + (← digitValue? c))) (some n) =
        some (Nat.ofDigitChars 10 s n) := by
    intro s
    induction s with
    | nil => exact fun _ _ => rfl
    | cons c s ih =>
      intro n hs
      rw [List.foldl_cons, digitValue?_eq (hs c List.mem_cons_self), Nat.ofDigitChars_cons]
      exact ih _ fun d hd => hs d (List.mem_cons_of_mem c hd)
  exact hfold s 0 h

namespace Digits

theorem append (hs : Digits s) (ht : Digits t) : Digits (s ++ t) := by
  intro c hc
  obtain hc | hc := List.mem_append.mp hc
  · exact hs c hc
  · exact ht c hc

theorem toDigits (n : ℕ) : Digits (Nat.toDigits 10 n) := fun _ hc =>
  Nat.isDigit_of_mem_toDigits (by decide) (by decide) hc

theorem zeros (n : ℕ) : Digits (List.replicate n '0') := by
  intro c hc
  rw [List.eq_of_mem_replicate hc]
  rfl

theorem takeWhile (h : Digits s) (hc : isDigit c = false) (tail : List Char) :
    (s ++ c :: tail).takeWhile isDigit = s ∧ (s ++ c :: tail).dropWhile isDigit = c :: tail := by
  obtain ⟨htake, hdrop⟩ := takeWhile_append_of_stop hc tail s
  have hall : ∀ d ∈ s, isDigit d = true := fun d hd => isDigit_of_ascii (h d hd)
  rw [htake, hdrop, List.takeWhile_eq_self_iff.mpr hall, List.dropWhile_eq_nil_iff.mpr hall]
  exact ⟨rfl, rfl⟩

theorem takeWhile_all (h : Digits s) : s.takeWhile isDigit = s ∧ s.dropWhile isDigit = [] := by
  have hall : ∀ d ∈ s, isDigit d = true := fun d hd => isDigit_of_ascii (h d hd)
  exact ⟨List.takeWhile_eq_self_iff.mpr hall, List.dropWhile_eq_nil_iff.mpr hall⟩

end Digits

end Text

/-! ## Numerals as they are written -/

namespace Numeral

open Text

/-- The digits after the point, with the point if there are some. -/
def pointed (fraction : List Char) : List Char :=
  if fraction.isEmpty then [] else '.' :: fraction

/-- An exponent behind its letter. -/
def raised : Option ℤ → List Char
  | none => []
  | some k => 'e' :: Decimal.intChars k

variable {s whole fraction : List Char}

theorem sign_digit {c : Char} (h : c.isDigit = true) (t : List Char) : sign (c :: t) = (false, c :: t) := by
  have hrange := range_of_isDigit h
  have hminus : c ≠ '-' := by
    rintro rfl
    exact absurd hrange.1 (by decide)
  have hplus : c ≠ '+' := by
    rintro rfl
    exact absurd hrange.1 (by decide)
  rw [sign_cons, if_neg hminus, if_neg hplus]

/-- What starts with a digit has the sign that is put in front of it. -/
theorem sign_signed (negative : Bool) (h : Digits s) (hne : s ≠ []) (t : List Char) :
    sign (Scalar.signed negative (s ++ t)) = (negative, s ++ t) := by
  cases negative with
  | true => rfl
  | false =>
    obtain ⟨c, s, rfl⟩ := List.exists_cons_of_ne_nil hne
    exact sign_digit (h c List.mem_cons_self) _

theorem intChars_eq (k : ℤ) :
    Decimal.intChars k = Scalar.signed (decide (k < 0)) (Nat.toDigits 10 k.natAbs) := by
  unfold Decimal.intChars Scalar.signed
  simp only [decide_eq_true_eq]
  rfl

theorem sign_intChars (k : ℤ) :
    sign (Decimal.intChars k) = (decide (k < 0), Nat.toDigits 10 k.natAbs) := by
  have h := sign_signed (decide (k < 0)) (.toDigits k.natAbs) Nat.toDigits_ne_nil []
  rwa [List.append_nil, ← intChars_eq] at h

theorem exponentPart_raised (k : ℤ) :
    exponentPart (raised (some k)) = (some (decide (k < 0), Nat.toDigits 10 k.natAbs), []) := by
  obtain ⟨htake, hdrop⟩ := (Digits.toDigits k.natAbs).takeWhile_all
  simp only [raised, exponentPart, sign_intChars, htake, hdrop]
  rw [if_pos ⟨.inl trivial, Nat.toDigits_ne_nil⟩]

theorem takeWhile_raised (h : Digits s) (k : Option ℤ) :
    (s ++ raised k).takeWhile isDigit = s ∧ (s ++ raised k).dropWhile isDigit = raised k := by
  cases k with
  | none =>
    rw [raised, List.append_nil]
    exact h.takeWhile_all
  | some k => exact h.takeWhile (by decide) _

/-- Digits with a point among them, or without one, are read up to the exponent. -/
theorem digitsPart_written (hwhole : Digits whole) (hne : whole ≠ []) (hfraction : Digits fraction)
    (k : Option ℤ) :
    digitsPart (whole ++ pointed fraction ++ raised k) = some ((whole, fraction), raised k) := by
  have hpoint : isDigit '.' = false := by decide
  obtain ⟨c, whole, rfl⟩ := List.exists_cons_of_ne_nil hne
  unfold digitsPart pointed
  cases fraction with
  | nil =>
    obtain ⟨htake, hdrop⟩ := takeWhile_raised hwhole k
    simp only [List.isEmpty_nil, if_true, List.append_nil, htake, hdrop]
    cases k with
    | none => rfl
    | some k => rfl
  | cons d fraction =>
    obtain ⟨htake, hdrop⟩ := hwhole.takeWhile hpoint (d :: fraction ++ raised k)
    obtain ⟨htake', hdrop'⟩ := takeWhile_raised hfraction k
    simp only [List.isEmpty_cons, Bool.false_eq_true, if_false, List.append_assoc, List.cons_append]
      at htake hdrop htake' hdrop' ⊢
    simp only [htake, hdrop, htake', hdrop']

/-- A numeral as it is written is read whole. -/
theorem scan_written (negative : Bool) (hwhole : Digits whole) (hne : whole ≠ [])
    (hfraction : Digits fraction) (k : Option ℤ) :
    scan (Scalar.signed negative (whole ++ pointed fraction ++ raised k)) =
      some (⟨negative, whole, fraction, k.map fun k => (decide (k < 0), Nat.toDigits 10 k.natAbs)⟩, []) := by
  have hsign := sign_signed negative hwhole hne (pointed fraction ++ raised k)
  rw [← List.append_assoc] at hsign
  have hdigits := digitsPart_written hwhole hne hfraction k
  simp only [scan, hsign, hdigits]
  cases k with
  | none => rfl
  | some k =>
    simp [exponentPart_raised]

theorem value?_written (negative : Bool) (hwhole : Digits whole) (hfraction : Digits fraction) (k : Option ℤ) :
    value? ⟨negative, whole, fraction, k.map fun k => (decide (k < 0), Nat.toDigits 10 k.natAbs)⟩ =
      some (if negative then
        -nearest (Nat.ofDigitChars 10 (whole ++ fraction) 0) (k.getD 0 - fraction.length)
      else nearest (Nat.ofDigitChars 10 (whole ++ fraction) 0) (k.getD 0 - fraction.length)) := by
  have hdigits := digitsValue?_eq (hwhole.append hfraction)
  cases k with
  | none => simp [value?, hdigits]
  | some k =>
    have hexponent := digitsValue?_eq (.toDigits k.natAbs)
    rw [Nat.ofDigitChars_ten_toDigits] at hexponent
    have hk : (if decide (k < 0) = true then -(k.natAbs : ℤ) else k.natAbs) = k := by
      split
      · rename_i h
        have := of_decide_eq_true h
        omega
      · rename_i h
        have : ¬ k < 0 := fun h' => h (decide_eq_true h')
        omega
    simp only [value?, hdigits, hexponent, Option.map_some, Option.bind_eq_bind, Option.bind_some,
      Option.pure_def, hk]
    rfl

/-- A sign or a digit starts a numeral and no other token. -/
theorem scan_of_sign_or_digit {c : Char} (hc : c = '-' ∨ c.isDigit = true) (u : List Char) :
    Token.scan (trimStart (c :: u)) =
      (scan (c :: u)).map fun (numeral, rest) => (.numeral numeral, rest) := by
  obtain ⟨hblank, hmark, hhash, hstart⟩ : isBlank c = false ∧ c ∉ Token.marks ∧ '#' ≠ c ∧
      isIdentStart c = false := by
    obtain rfl | hc := hc
    · decide
    · exact other_of_isDigit hc
  rw [trimStart_cons hblank, Token.scan_other hmark, Token.not_missing hhash, hstart,
    if_neg Bool.false_ne_true, if_neg Bool.false_ne_true]

/-- A numeral as it is written is one token. -/
theorem token_written (negative : Bool) (hwhole : Digits whole) (hne : whole ≠ [])
    (hfraction : Digits fraction) (k : Option ℤ) :
    Token.scan (trimStart (Scalar.signed negative (whole ++ pointed fraction ++ raised k))) =
      some (.numeral ⟨negative, whole, fraction, k.map fun k => (decide (k < 0), Nat.toDigits 10 k.natAbs)⟩, []) := by
  have hscan := scan_written negative hwhole hne hfraction k
  have hstart : ∃ c u, Scalar.signed negative (whole ++ pointed fraction ++ raised k) = c :: u ∧
      (c = '-' ∨ c.isDigit = true) := by
    obtain ⟨c, whole, rfl⟩ := List.exists_cons_of_ne_nil hne
    cases negative with
    | true => exact ⟨'-', _, rfl, .inl rfl⟩
    | false => exact ⟨c, _, rfl, .inr (hwhole c List.mem_cons_self)⟩
  obtain ⟨c, u, hcu, hc⟩ := hstart
  rw [hcu] at hscan ⊢
  rw [scan_of_sign_or_digit hc, hscan]
  rfl

end Numeral

/-! ## Layouts -/

/-- A text without a sign that is a numeral of `digits · 10 ^ exponent`. -/
def Numeral.Spells (s : List Char) (digits : ℕ) (exponent : ℤ) : Prop :=
  ∃ whole fraction k, whole ≠ [] ∧ Text.Digits whole ∧ Text.Digits fraction ∧
    s = whole ++ Numeral.pointed fraction ++ Numeral.raised k ∧
    Nat.ofDigitChars 10 (whole ++ fraction) 0 = digits ∧ k.getD 0 - fraction.length = exponent

namespace Decimal

open Numeral Text

variable {s whole fraction : List Char}

theorem digits_spells (h : Digits s) (hne : s ≠ []) : Spells s (Nat.ofDigitChars 10 s 0) 0 :=
  ⟨s, [], none, hne, h, nofun, by simp [pointed, raised], by rw [List.append_nil], rfl⟩

/-- A point among digits counts those behind it. -/
theorem pointed_spells (h : Digits s) {i : ℕ} (hi : 0 < i) (hi' : i < s.length) :
    Spells (s.take i ++ '.' :: s.drop i) (Nat.ofDigitChars 10 s 0) (-(s.length - i : ℕ)) := by
  have hfraction : s.drop i ≠ [] := List.drop_eq_nil_iff.not.mpr (Nat.not_le.mpr hi')
  refine ⟨s.take i, s.drop i, none, ?_, ?_, ?_, ?_, ?_, ?_⟩
  · rw [Ne, List.take_eq_nil_iff]
    rintro (h0 | rfl)
    · exact hi.ne' h0
    · exact absurd hi' (Nat.not_lt_zero i)
  · exact fun c hc => h c (List.mem_of_mem_take hc)
  · exact fun c hc => h c (List.mem_of_mem_drop hc)
  · rw [pointed, if_neg (List.isEmpty_iff.not.mpr hfraction), raised, List.append_nil]
  · rw [List.take_append_drop]
  · rw [List.length_drop, Option.getD_none, zero_sub]

theorem digitChars_spells (n : ℕ) : Spells (digitChars n) n 0 := by
  have h := digits_spells (.toDigits n) Nat.toDigits_ne_nil
  rwa [Nat.ofDigitChars_ten_toDigits] at h

/-- Positional form spells the decimal; zeros at the end are digits of their own. -/
theorem plain_spells (d : Decimal) :
    ∃ digits exponent, Spells (plain d) digits exponent ∧
      (digits : ℚ) * 10 ^ exponent = d.digits * 10 ^ d.exponent := by
  unfold plain digitChars
  dsimp only
  split
  · rename_i hexponent
    have h := digits_spells ((Digits.toDigits d.digits).append (.zeros d.exponent.toNat))
      (List.append_ne_nil_of_left_ne_nil Nat.toDigits_ne_nil _)
    rw [Nat.ofDigitChars_append, Nat.ofDigitChars_replicate_zero, Nat.ofDigitChars_ten_toDigits] at h
    refine ⟨_, _, h, ?_⟩
    rw [zpow_zero, mul_one, Nat.cast_mul, Nat.cast_pow, mul_comm, ← zpow_natCast,
      Int.toNat_of_nonneg hexponent]
    rfl
  · rename_i hexponent
    generalize hplaces : (-d.exponent).toNat = places
    generalize hpadded : List.replicate (places + 1 - (Nat.toDigits 10 d.digits).length) '0' ++
      Nat.toDigits 10 d.digits = padded
    have hdigits : Digits padded := hpadded ▸ (Digits.zeros _).append (.toDigits _)
    have hvalue : Nat.ofDigitChars 10 padded 0 = d.digits := by
      rw [← hpadded, Nat.ofDigitChars_append, Nat.ofDigitChars_replicate_zero, Nat.mul_zero,
        Nat.ofDigitChars_ten_toDigits]
    have hlength : places + 1 ≤ padded.length := by
      rw [← hpadded, List.length_append, List.length_replicate]
      omega
    have h := pointed_spells hdigits (Nat.sub_pos_of_lt hlength) (by omega)
    rw [hvalue] at h
    refine ⟨_, _, h, ?_⟩
    congr 2
    omega

/-- Scientific form spells the decimal. -/
theorem scientific_spells (d : Decimal) : Spells (scientific d) d.digits d.exponent := by
  unfold scientific digitChars
  have hdigits := Digits.toDigits d.digits
  have hvalue := Nat.ofDigitChars_ten_toDigits (n := d.digits)
  split
  · rename_i h
    exact absurd h Nat.toDigits_ne_nil
  · rename_i first rest h
    rw [h] at hdigits hvalue
    refine ⟨[first], rest, some (d.exponent + rest.length), List.cons_ne_nil _ _, ?_, ?_, rfl, hvalue, ?_⟩
    · exact fun c hc => hdigits c (by rw [List.mem_singleton.mp hc]; exact List.mem_cons_self)
    · exact fun c hc => hdigits c (List.mem_cons_of_mem _ hc)
    · rw [Option.getD_some, add_sub_cancel_right]

end Decimal

end FeatureSynth
