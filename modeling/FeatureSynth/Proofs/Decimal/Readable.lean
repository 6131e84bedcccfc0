/-
# Printed doubles are read back

The text of a double is a sign and a layout of its shortest decimal or, if it is a
small whole number, of that number.  Either spells a decimal that rounds to the
double, so the token read off the text has the same bits.  Three doubles are not
read back, which is why they are left out: NaN and positive infinity are printed as
words, and negative zero loses its sign.
-/
import FeatureSynth.Proofs.Decimal.Layout
import FeatureSynth.Proofs.Decimal.Shortest
import FeatureSynth.Proofs.Formula.RoundTrip
import FeatureSynth.Proofs.Scalar.Order

namespace FeatureSynth

namespace Scalar

open Float.Model Float.Model.UnpackedFloat

variable {x : Float} {negative : Bool} {m c : ℕ} {e p : ℤ} {s : List Char}

/-! ## Doubles by their readings -/

/-- A double is packed from its reading. -/
theorem eq_pack_decode (x : Float) : x = .ofModel (.pack (decode x).unpacked) := by
  rw [← unpack_eq_decode, pack_unpack]

theorem eq_of_decode {y : Float} (h : decode x = decode y) : x = y := by
  rw [eq_pack_decode x, h, ← eq_pack_decode y]

/-- A double is the one of its mantissa and exponent, with its sign. -/
theorem eq_double (hdecode : decode x = .finite negative m e) (hc : Canonical m e) (he : e ≤ 971) :
    x = if negative then -double hc else double hc := by
  rw [eq_pack_decode x, hdecode, Binary.unpacked, dif_pos hc.pos]
  cases negative with
  | false => rfl
  | true =>
    show _ = Float.ofModel (Float.Model.pack (double hc).toModel.unpack.neg)
    rw [unpack_double hc he]
    rfl

/-! ## Numerals -/

/-- The text of a double is read if it spells a decimal that rounds to it. -/
theorem readable_of_spells (hdecode : decode x = .finite negative m e) (hm : 0 < m)
    (htext : constantText x = signed negative s) (hs : Numeral.Spells s c p)
    (hnear : Near m e (c * 10 ^ p / 2 ^ e)) : Readable x := by
  obtain ⟨hc, he⟩ := canonical_of_decode hdecode hm
  obtain ⟨whole, fraction, k, hne, hwhole, hfraction, rfl, rfl, rfl⟩ := hs
  have htoken := Numeral.token_written negative hwhole hne hfraction k
  have hvalue := Numeral.value?_written negative hwhole hfraction k
  have hnearest := Numeral.nearest_eq hc he hnear (div_mul_cancel₀ _ (by positivity))
  rw [hnearest, ← eq_double hdecode hc he] at hvalue
  rw [← htext] at htoken
  refine readable_of_scan htoken (fun text => ?_) (.inl rfl)
  rw [Token.Lexeme.token?, hvalue]

/-! ## Whole numbers -/

theorem unpack_of_decode (hdecode : decode x = .finite negative m e) (hm : 0 < m) :
    x.toModel.unpack = .finite (Binary.sign negative) m e hm := by
  rw [unpack_eq_decode, hdecode, Binary.unpacked, dif_pos hm]

theorem ne_missing_of_decode (hdecode : decode x = .finite negative m e) : (x == missing) = false := by
  refine Bool.eq_false_iff.mpr fun h => ?_
  rw [eq_missing_of_beq h] at hdecode
  have hmissing : decode missing = .infinite true := by decide +kernel
  rw [hmissing] at hdecode
  cases hdecode

/-- A double below `10 ^ 15` counts in eighths or smaller steps. -/
theorem exponent_of_abs_lt (hdecode : decode x = .finite negative m e) (hm : 0 < m)
    (h : x.abs < 1e15) : e ≤ -3 := by
  obtain ⟨hc, he⟩ := canonical_of_decode hdecode hm
  have habs : x.abs = double hc := by
    show Float.ofModel (Float.Model.pack x.toModel.unpack.abs) = _
    rw [unpack_of_decode hdecode hm]
    rfl
  have hplace : place x.abs = toLex (1, toLex (e, (m : ℤ))) := by
    rw [habs, place, unpack_double hc he]
    rfl
  have hbound : place 1e15 = toLex (1, toLex (-3, 8000000000000000)) := by decide +kernel
  have hnumber : isNaN x.abs = false := by
    rw [← isNaN_unpack, habs, unpack_double hc he]
    rfl
  rw [lt_iff_place hnumber (by decide +kernel), hplace, hbound] at h
  obtain h | ⟨-, h⟩ := Prod.Lex.toLex_lt_toLex.mp h
  · exact absurd h (lt_irrefl _)
  · obtain h | ⟨h, -⟩ := Prod.Lex.toLex_lt_toLex.mp h
    · exact h.le
    · exact h.le

/-- The text of a whole number below `10 ^ 15` is its digits with a sign. -/
theorem intChars_floorInt64 (hdecode : decode x = .finite negative m e) (hm : 0 < m)
    (hwhole : (decode x).isWhole = true) (h : x.abs < 1e15) :
    ∃ n : ℕ, (n : ℚ) = m * 2 ^ e ∧
      Decimal.intChars (floorInt64 x) = signed negative (Decimal.digitChars n) := by
  have he := exponent_of_abs_lt hdecode hm h
  obtain ⟨k, rfl⟩ : ∃ k : ℕ, e = -k := ⟨(-e).toNat, by omega⟩
  have hlt := (canonical_of_decode hdecode hm).1.lt
  -- the fraction bits are zero, so the floor is the number itself
  have hk : ¬ (0 : ℤ) ≤ -k := by omega
  obtain ⟨n, rfl⟩ : ∃ n, m = n * 2 ^ k := by
    rw [hdecode, Binary.isWhole, decide_eq_false hk, Bool.false_or, beq_iff_eq, neg_neg,
      Int.toNat_natCast] at hwhole
    obtain ⟨n, hn⟩ := Nat.dvd_of_mod_eq_zero hwhole
    exact ⟨n, hn.trans (Nat.mul_comm ..)⟩
  have hn : 0 < n := Nat.pos_of_mul_pos_right hm
  have hbound : n * 2 ^ 3 < 2 ^ 53 := by
    refine lt_of_le_of_lt (Nat.mul_le_mul_left n (Nat.pow_le_pow_right two_pos ?_)) hlt
    omega
  have hpow : (2 : ℤ) ^ k ≠ 0 := by positivity
  have hfloor : floorInt64 x = if negative then -(n : ℤ) else n := by
    have hdiv : (if negative then -((n * 2 ^ k : ℕ) : ℤ) else (n * 2 ^ k : ℕ)) / (Nat.pow 2 k : ℕ) =
        if negative then -(n : ℤ) else n := by
      rw [Nat.pow_eq]
      push_cast
      cases negative with
      | false => exact Int.mul_ediv_cancel _ hpow
      | true => exact (congrArg (· / _) (neg_mul ..).symm).trans (Int.mul_ediv_cancel _ hpow)
    rw [floorInt64, hdecode, Binary.floorBetween, Binary.floorOf, if_neg hk, neg_neg,
      Int.toNat_natCast, hdiv]
    have hpow63 : (Nat.pow 2 63 : ℤ) = 9223372036854775808 := rfl
    rw [hpow63]
    split <;> omega
  refine ⟨n, ?_, ?_⟩
  · rw [zpow_neg, zpow_natCast]
    push_cast
    rw [mul_inv_cancel_right₀ (by positivity)]
  · rw [hfloor, Numeral.intChars_eq]
    cases negative with
    | false =>
      have hsign : ¬ (n : ℤ) < 0 := by omega
      simp only [Bool.false_eq_true, if_false, decide_eq_false hsign, Int.natAbs_natCast]
      rfl
    | true =>
      have hsign : -(n : ℤ) < 0 := by omega
      simp only [if_true, decide_eq_true hsign, Int.natAbs_neg, Int.natAbs_natCast]
      rfl

/-! ## Every double but three -/

theorem readable_finite (hdecode : decode x = .finite negative m e) (hm : 0 < m) : Readable x := by
  have hc := (canonical_of_decode hdecode hm).1
  have hwritten (form : Decimal → List Char) :
      written form x = signed negative (form (Decimal.shortest m e)) := by
    rw [written, hdecode]
    simp only [if_neg hm.ne']
  have hmissing := ne_missing_of_decode hdecode
  have hnear := Decimal.shortest_near hc
  obtain ⟨htext⟩ : Nonempty (constantText x = 
    if (decode x).isWhole && x.abs < 1e15 then Decimal.intChars (floorInt64 x)
    else if 1e15 ≤ x.abs || x.abs < 1e-5 then written Decimal.scientific x
    else plainText x) := ⟨by rw [constantText, hmissing]; rfl⟩
  split at htext
  · rename_i h
    obtain ⟨hwhole, hsmall⟩ := Bool.and_eq_true_iff.mp h
    obtain ⟨n, hn, hchars⟩ := intChars_floorInt64 hdecode hm hwhole (of_decide_eq_true hsmall)
    refine readable_of_spells hdecode hm (htext.trans hchars) (Decimal.digitChars_spells n) ?_
    rw [zpow_zero, mul_one, hn, mul_div_cancel_right₀ _ (by positivity)]
    exact near_self m e
  · split at htext
    · exact readable_of_spells hdecode hm (htext.trans (hwritten _)) (Decimal.scientific_spells _) hnear
    · obtain ⟨c, p, hspells, hvalue⟩ := Decimal.plain_spells (Decimal.shortest m e)
      rw [← hvalue] at hnear
      exact readable_of_spells hdecode hm (htext.trans (hwritten _)) hspells hnear

/-- The text of a double is read back unless it is NaN, positive infinity or negative zero. -/
theorem readable (hnan : isNaN x = false) (hinfinity : decode x ≠ .infinite false)
    (hzero : ∀ e, decode x ≠ .finite true 0 e) : Readable x := by
  cases hdecode : decode x with
  | nan =>
    rw [isNaN, hdecode] at hnan
    cases hnan
  | infinite negative =>
    cases negative with
    | false => exact absurd hdecode hinfinity
    | true =>
      have hmissing : decode missing = .infinite true := by decide +kernel
      rw [eq_of_decode (hdecode.trans hmissing.symm)]
      exact readable_missing
  | finite negative m e =>
    obtain rfl | hm := Nat.eq_zero_or_pos m
    · cases negative with
      | true => exact absurd hdecode (hzero e)
      | false =>
        have hx : x = 0 := by
          rw [eq_pack_decode x, hdecode]
          show Float.ofModel (Float.Model.pack (.zero .positive)) = 0
          decide +kernel
        rw [hx]
        exact readable_of_scan (l := .numeral ⟨false, ['0'], [], none⟩) (by decide +kernel)
          (fun _ => by rfl) (.inl rfl)
    · exact readable_finite hdecode hm

end Scalar
end FeatureSynth
