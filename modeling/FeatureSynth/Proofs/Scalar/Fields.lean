/-
# The fields of a double

The float model computes on unpacked doubles, `Scalar.decode` reads the fields of
the packed ones.  Both say the same (`unpack_eq_decode`), and nothing is lost on the
way: a double is packed from what it unpacks to, and a mantissa and an exponent that
doubles have come out of packing as they went in.
-/
import FeatureSynth.Proofs.Scalar.Rounding

namespace FeatureSynth

open Float.Model Float.Model.UnpackedFloat

/-! ## Unpacked readings -/

namespace Binary

/-- The sign of a double as an unpacked one has it. -/
def sign (negative : Bool) : UnpackedFloat.Sign := if negative then .negative else .positive

/-- The unpacked form of an exact reading. -/
def unpacked : Binary → UnpackedFloat
  | .nan => .notANumber
  | .infinite negative => .infinity (sign negative)
  | .finite negative mantissa exponent =>
    if h : 0 < mantissa then .finite (sign negative) mantissa exponent h else .zero (sign negative)

end Binary

namespace Scalar

variable {x : Float} {m : ℕ} {e : ℤ}

theorem toNat_unpackExponent (x : Float) :
    (@unpackExponent Format.binary64 x.toModel.toBits.toBitVec).toNat =
      x.toBits.toNat / Nat.pow 2 52 % Nat.pow 2 11 := by
  have hbits : x.toBits = x.toModel.toBits := rfl
  simp [unpackExponent, hbits, Nat.shiftRight_eq_div_pow]

theorem toNat_unpackMantissa (x : Float) :
    (@unpackMantissa Format.binary64 x.toModel.toBits.toBitVec).toNat =
      x.toBits.toNat % Nat.pow 2 52 := by
  have hbits : x.toBits = x.toModel.toBits := rfl
  simp [unpackMantissa, hbits]

theorem unpackSign_eq (b : BitVec Format.binary64.numBits) :
    unpackSign b = BitVec.extractLsb' 63 1 b := rfl

theorem toNat_unpackSign (x : Float) :
    (@unpackSign Format.binary64 x.toModel.toBits.toBitVec).toNat =
      x.toBits.toNat / Nat.pow 2 63 := by
  have hbits : x.toBits = x.toModel.toBits := rfl
  have hlt := x.toBits.toNat_lt
  simp [unpackSign_eq, ← hbits, Nat.shiftRight_eq_div_pow]
  omega

theorem ofBitVec_unpackSign (x : Float) :
    Sign.ofBitVec (@unpackSign Format.binary64 x.toModel.toBits.toBitVec) =
      Binary.sign (x.toBits.toNat / Nat.pow 2 63 == 1) := by
  rw [← toNat_unpackSign]
  obtain h | h := BitVec.eq_zero_or_eq_one (@unpackSign Format.binary64 x.toModel.toBits.toBitVec)
  all_goals
    rw [h]
    rfl

theorem finite_congr {s : Sign} {m' : ℕ} {e' : ℤ} {hm : 0 < m} {hm' : 0 < m'} (hmantissa : m = m')
    (hexponent : e = e') : UnpackedFloat.finite s m e hm = .finite s m' e' hm' := by
  subst hmantissa hexponent
  rfl

theorem toNat_append_one (v : BitVec 52) : (1#1 ++ v).toNat = 2 ^ 52 + v.toNat := by
  rw [BitVec.toNat_append, ← Nat.shiftLeft_add_eq_or_of_lt v.isLt]
  rfl

/-- A double unpacks to what its fields read. -/
theorem unpack_eq_decode (x : Float) : x.toModel.unpack = (decode x).unpacked := by
  have hlast : @unpackExponent Format.binary64 x.toModel.toBits.toBitVec = -1#11 ↔
      x.toBits.toNat / Nat.pow 2 52 % Nat.pow 2 11 = 2047 := by
    rw [← BitVec.toNat_inj, toNat_unpackExponent]
    rfl
  have hfirst : @unpackExponent Format.binary64 x.toModel.toBits.toBitVec = 0#11 ↔
      x.toBits.toNat / Nat.pow 2 52 % Nat.pow 2 11 = 0 := by
    rw [← BitVec.toNat_inj, toNat_unpackExponent]
    rfl
  have hzero : @unpackMantissa Format.binary64 x.toModel.toBits.toBitVec = 0#52 ↔
      x.toBits.toNat % Nat.pow 2 52 = 0 := by
    rw [← BitVec.toNat_inj, toNat_unpackMantissa]
    rfl
  unfold decode Float.Model.unpack UnpackedFloat.unpack
  dsimp only
  rw [ofBitVec_unpackSign, if_congr hlast rfl rfl, if_congr hfirst rfl rfl, if_congr hzero rfl rfl,
    toNat_unpackExponent]
  by_cases hl : x.toBits.toNat / Nat.pow 2 52 % Nat.pow 2 11 = 2047
  · rw [if_pos hl, if_pos hl]
    split <;> rfl
  · rw [if_neg hl, if_neg hl]
    by_cases hf : x.toBits.toNat / Nat.pow 2 52 % Nat.pow 2 11 = 0
    · rw [if_pos hf, if_pos hf]
      by_cases hm : x.toBits.toNat % Nat.pow 2 52 = 0
      · rw [dif_pos (hzero.mpr hm), hm]
        rfl
      · rw [dif_neg (hzero.not.mpr hm), Binary.unpacked, dif_pos (Nat.pos_of_ne_zero hm)]
        refine finite_congr (toNat_unpackMantissa x) ?_
        rw [hf]
        rfl
    · rw [if_neg hf, if_neg hf, Binary.unpacked, dif_pos (Nat.add_pos_left (by decide) _)]
      refine finite_congr ?_ rfl
      rw [toNat_append_one, toNat_unpackMantissa]
      rfl

/-- The mantissa and the exponent that the fields of a double read are those of doubles. -/
theorem canonical_of_decode {negative : Bool} (h : decode x = .finite negative m e) (hm : 0 < m) :
    Canonical m e ∧ e ≤ 971 := by
  have hfraction : x.toBits.toNat % Nat.pow 2 52 < Nat.pow 2 52 := Nat.mod_lt _ (by decide)
  have hbiased : x.toBits.toNat / Nat.pow 2 52 % Nat.pow 2 11 < Nat.pow 2 11 :=
    Nat.mod_lt _ (by decide)
  unfold decode at h
  dsimp only at h
  simp only [Nat.pow_eq] at hfraction hbiased h
  split at h
  · split at h <;> cases h
  · split at h
    · cases h
      exact ⟨⟨hm, by omega, by omega, .inr rfl⟩, by omega⟩
    · cases h
      exact ⟨⟨hm, by omega, by omega, .inl (by omega)⟩, by omega⟩

/-! ## Packing -/

theorem sign_toBitVec_ofBitVec (b : BitVec 1) : (Sign.ofBitVec b).toBitVec = b := by
  obtain rfl | rfl := BitVec.eq_zero_or_eq_one b <;> rfl

theorem sign_ofBitVec_toBitVec (s : Sign) : Sign.ofBitVec s.toBitVec = s := by
  cases s <;> rfl

/-- The three fields of a packed double make it up. -/
theorem packComponents_unpack (b : BitVec Format.binary64.numBits) :
    packComponents Format.binary64 (.ofBitVec (unpackSign b)) (unpackExponent b) (unpackMantissa b) =
      b := by
  have hhead : BitVec.extractLsb' 63 1 b ++ BitVec.extractLsb' 52 11 b = BitVec.extractLsb' 52 12 b :=
    BitVec.extractLsb'_append_extractLsb'_eq_extractLsb' rfl
  have hwhole : BitVec.extractLsb' 52 12 b ++ BitVec.extractLsb' 0 52 b = BitVec.extractLsb' 0 64 b :=
    BitVec.extractLsb'_append_extractLsb'_eq_extractLsb' rfl
  show (Sign.ofBitVec (unpackSign b)).toBitVec ++ BitVec.extractLsb' 52 11 b ++
    BitVec.extractLsb' 0 52 b = b
  rw [sign_toBitVec_ofBitVec, unpackSign_eq, hhead, hwhole]
  exact BitVec.extractLsb'_eq_self

theorem unpackSign_packComponents (s : Sign) (exponent : BitVec 11) (mantissa : BitVec 52) :
    unpackSign (packComponents Format.binary64 s exponent mantissa) = s.toBitVec := by
  ext i hi
  obtain rfl : i = 0 := by omega
  have hlast : (s.toBitVec ++ exponent ++ mantissa).getLsbD 63 = s.toBitVec[0] := by
    rw [BitVec.getLsbD_append, BitVec.getLsbD_append]
    rfl
  rw [unpackSign_eq, BitVec.getElem_extractLsb']
  exact hlast

/-- Unpacking reads the fields that packing stores. -/
theorem unpack_packComponents (s : Sign) (exponent : BitVec 11) (mantissa : BitVec 52) :
    UnpackedFloat.unpack Format.binary64 (packComponents Format.binary64 s exponent mantissa) =
      if exponent = -1#11 then if mantissa = 0#52 then .infinity s else .notANumber
      else if exponent = 0#11 then
        if h : mantissa = 0#52 then .zero s
        else .finite s mantissa.toNat (-1074) (Nat.pos_of_ne_zero fun h' => h (BitVec.eq_of_toNat_eq h'))
      else .finite s (1#1 ++ mantissa).toNat (exponent.toNat - 1075)
        (toNat_append_one mantissa ▸ Nat.add_pos_left (by decide) _) := by
  have hsign := unpackSign_packComponents s exponent mantissa
  have hexponent : @unpackExponent Format.binary64 (packComponents Format.binary64 s exponent mantissa) =
    exponent := unpackExponent_packComponents
  have hmantissa : @unpackMantissa Format.binary64 (packComponents Format.binary64 s exponent mantissa) =
    mantissa := unpackMantissa_packComponents
  unfold UnpackedFloat.unpack
  dsimp only
  generalize packComponents Format.binary64 s exponent mantissa = b at hsign hexponent hmantissa
  subst hmantissa
  rw [hsign, sign_ofBitVec_toBitVec, hexponent]
  by_cases hlast : exponent = -1#11
  · rw [if_pos hlast, if_pos hlast]
  rw [if_neg hlast, if_neg hlast]
  by_cases hfirst : exponent = 0#11
  · subst hfirst
    rfl
  · rw [if_neg hfirst, if_neg hfirst]
    rfl

/-- Packing a mantissa and an exponent of doubles stores both in their fields. -/
theorem pack_finite (s : Sign) (hc : Canonical m e) (he : e ≤ 971) :
    UnpackedFloat.pack Format.binary64 (.finite s m e hc.pos) =
      packComponents Format.binary64 s
        (if 2 ^ 52 ≤ m then BitVec.ofNat 11 (e + 1075).toNat else 0#11) (BitVec.ofNat 52 m) := by
  have hbiased : (e + Format.binary64.exponentBias + (52 : ℕ)).toNat = (e + 1075).toNat := by
    have hbias : Format.binary64.exponentBias = 1023 := rfl
    rw [hbias]
    omega
  have hfits : ¬ 2 ^ 11 ≤ (e + 1075).toNat + 1 := by omega
  have hdigits : m.log2 + 1 = Format.binary64.mantissaBits ↔ 2 ^ 52 ≤ m := by
    have hlt : m.log2 < 53 := (Nat.log2_lt hc.pos.ne').mpr hc.lt
    have hle : 52 ≤ m.log2 ↔ 2 ^ 52 ≤ m := Nat.le_log2 hc.pos.ne'
    have hbits : Format.binary64.mantissaBits = 53 := rfl
    rw [← hle, hbits]
    omega
  unfold UnpackedFloat.pack
  dsimp only
  rw [hbiased, if_neg hfits, if_congr hdigits rfl rfl]
  split <;> rfl

/-- A mantissa and an exponent of doubles are not lost in packing. -/
theorem unpack_pack (s : Sign) (hc : Canonical m e) (he : e ≤ 971) :
    (Float.Model.pack (.finite s m e hc.pos)).unpack = .finite s m e hc.pos := by
  show UnpackedFloat.unpack _ (UnpackedFloat.pack _ _) = _
  have hleast := hc.least
  have hlt := hc.lt
  rw [pack_finite s hc he, unpack_packComponents]
  by_cases hm : 2 ^ 52 ≤ m
  · have hexponent : (BitVec.ofNat 11 (e + 1075).toNat).toNat = (e + 1075).toNat := by
      rw [BitVec.toNat_ofNat]
      omega
    have hlast : BitVec.ofNat 11 (e + 1075).toNat ≠ -1#11 := by
      rw [← BitVec.toNat_inj.ne, hexponent]
      show _ ≠ 2047
      omega
    have hfirst : BitVec.ofNat 11 (e + 1075).toNat ≠ 0#11 := by
      rw [← BitVec.toNat_inj.ne, hexponent]
      show _ ≠ 0
      omega
    rw [if_pos hm, if_neg hlast, if_neg hfirst]
    refine finite_congr ?_ (by omega)
    rw [toNat_append_one, BitVec.toNat_ofNat]
    omega
  · have hleast : e = -1074 := hc.normal.resolve_left hm
    have hmantissa : (BitVec.ofNat 52 m).toNat = m := by
      rw [BitVec.toNat_ofNat]
      omega
    have hzero : BitVec.ofNat 52 m ≠ 0#52 := by
      rw [← BitVec.toNat_inj.ne, hmantissa]
      exact hc.pos.ne'
    rw [if_neg hm, if_neg (by decide), if_pos rfl, dif_neg hzero]
    exact finite_congr hmantissa hleast.symm

theorem isNaN_pack (u : UnpackedFloat) : (Float.Model.pack u).unpack.isNaN = u.isNaN := by
  show (UnpackedFloat.unpack Format.binary64 (UnpackedFloat.pack Format.binary64 u)).isNaN = _
  have hnumber : ∀ (s : Sign) (exponent : BitVec 11) (mantissa : BitVec 52), exponent ≠ -1#11 →
      (UnpackedFloat.unpack Format.binary64
        (packComponents Format.binary64 s exponent mantissa)).isNaN = false := by
    intro s exponent mantissa h
    rw [unpack_packComponents, if_neg h]
    by_cases hfirst : exponent = 0#11
    · rw [if_pos hfirst]
      by_cases hzero : mantissa = 0#52
      · rw [dif_pos hzero]
        rfl
      · rw [dif_neg hzero]
        rfl
    · rw [if_neg hfirst]
      rfl
  cases u with
  | infinity s => cases s <;> rfl
  | notANumber => rfl
  | zero s => cases s <;> rfl
  | finite s m e hm =>
    change _ = false
    unfold UnpackedFloat.pack
    dsimp only
    split
    · cases s <;> rfl
    · rename_i hfits
      split
      · refine hnumber _ _ _ fun h => ?_
        have h' := congrArg BitVec.toNat h
        rw [BitVec.toNat_ofNat] at h'
        have hlast : (-1#11).toNat = 2047 := rfl
        omega
      · exact hnumber _ _ _ (by decide)

/-- Packing what a valid pattern unpacks to gives the pattern back. -/
theorem pack_unpack_components {s : Sign} {exponent : BitVec 11} {mantissa : BitVec 52}
    (hvalid : Format.binary64.Valid (packComponents Format.binary64 s exponent mantissa)) :
    UnpackedFloat.pack Format.binary64 (UnpackedFloat.unpack Format.binary64
      (packComponents Format.binary64 s exponent mantissa)) =
        packComponents Format.binary64 s exponent mantissa := by
  have hmantissa := mantissa.isLt
  have hexponent := exponent.isLt
  rw [unpack_packComponents]
  by_cases hlast : exponent = -1#11
  · rw [if_pos hlast]
    by_cases hzero : mantissa = 0#52
    · rw [if_pos hzero, hlast, hzero]
      rfl
    · rw [if_neg hzero]
      exact (hvalid.eq_packedNaN (unpackExponent_packComponents.trans hlast)
        (unpackMantissa_packComponents.trans_ne hzero)).symm
  · rw [if_neg hlast]
    have hlast : exponent.toNat ≠ 2047 := fun h => hlast (BitVec.eq_of_toNat_eq h)
    by_cases hfirst : exponent = 0#11
    · rw [if_pos hfirst]
      by_cases hzero : mantissa = 0#52
      · rw [dif_pos hzero, hfirst, hzero]
        rfl
      · have hpos : 0 < mantissa.toNat :=
          Nat.pos_of_ne_zero fun h => hzero (BitVec.eq_of_toNat_eq h)
        have hc : Canonical mantissa.toNat (-1074) := ⟨hpos, by omega, le_rfl, .inr rfl⟩
        rw [dif_neg hzero, pack_finite s hc (by decide), if_neg (by omega), hfirst,
          BitVec.ofNat_toNat, BitVec.setWidth_eq]
    · have hfirst' : exponent.toNat ≠ 0 := fun h => hfirst (BitVec.eq_of_toNat_eq h)
      have hone := toNat_append_one mantissa
      have hc : Canonical (1#1 ++ mantissa).toNat (exponent.toNat - 1075) :=
        ⟨by omega, by omega, by omega, .inl (by omega)⟩
      rw [if_neg hfirst, pack_finite s hc (by omega), if_pos (by omega), sub_add_cancel,
        Int.toNat_natCast, BitVec.ofNat_toNat, BitVec.setWidth_eq]
      congr 1
      apply BitVec.eq_of_toNat_eq
      rw [BitVec.toNat_ofNat]
      omega

/-- Packing what a double unpacks to gives the double back. -/
theorem pack_unpack (x : Float) : Float.ofModel (Float.Model.pack x.toModel.unpack) = x := by
  obtain ⟨⟨bits, hvalid⟩⟩ := x
  have hpack := packComponents_unpack bits.toBitVec
  have hbits := pack_unpack_components (hpack.symm ▸ hvalid)
  rw [hpack] at hbits
  have hmodel : ∀ {u v : UInt64} {hu hv}, u = v → Float.Model.mk u hu = Float.Model.mk v hv := by
    rintro _ _ _ _ rfl
    rfl
  exact congrArg Float.ofModel (hmodel (congrArg UInt64.ofBitVec hbits))

end Scalar
end FeatureSynth
