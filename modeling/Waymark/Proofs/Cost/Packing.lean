import Mathlib
import Waymark.Proofs.Cost.Rounding

namespace Waymark

namespace Binary64

open Float.Model Float.Model.UnpackedFloat

/-- Digits and exponent as a finite number is kept with them. -/
structure Normal (m : Nat) (e : Int) : Prop where
  digits : m < 2 ^ 53
  least : -1074 ≤ e
  full : e = -1074 ∨ 2 ^ 52 ≤ m

/-- What unpacking may give. -/
def Canonical : UnpackedFloat → Prop
  | .finite _ m e _ => Normal m e ∧ e ≤ 971
  | _ => True

theorem toNat_one_append (b : BitVec 52) : (1#1 ++ b).toNat = 2 ^ 52 + b.toNat := by
  rw [BitVec.toNat_append, ← Nat.shiftLeft_add_eq_or_of_lt b.isLt]
  rfl

theorem canonical_unpack (b : BitVec 64) : Canonical (unpack Format.binary64 b) := by
  have hm : (@unpackMantissa .binary64 b).toNat < 2 ^ 52 := BitVec.isLt _
  have he : (@unpackExponent .binary64 b).toNat < 2 ^ 11 := BitVec.isLt _
  have happend := toNat_one_append (@unpackMantissa .binary64 b)
  have hbias : (Format.binary64.exponentBias : Int) = 1023 := rfl
  have hplaces : (Format.binary64.mantissaBitsWithoutImplicit : Int) = 52 := rfl
  rw [UnpackedFloat.unpack]
  dsimp only
  rw [hbias, hplaces]
  split
  · split <;> trivial
  · rename_i hnotAll
    replace hnotAll : (@unpackExponent .binary64 b).toNat ≠ 2047 :=
      fun heq => hnotAll (BitVec.eq_of_toNat_eq heq)
    split
    · rename_i hzero
      replace hzero : (@unpackExponent .binary64 b).toNat = 0 := by rw [hzero]; rfl
      split
      · trivial
      · refine ⟨⟨?_, ?_, Or.inl ?_⟩, ?_⟩ <;> omega
    · rename_i hnotZero
      replace hnotZero : (@unpackExponent .binary64 b).toNat ≠ 0 :=
        fun heq => hnotZero (BitVec.eq_of_toNat_eq heq)
      refine ⟨⟨?_, ?_, Or.inr ?_⟩, ?_⟩ <;> omega

theorem unpack_pack_infinity (s : Sign) :
    unpack Format.binary64 (pack Format.binary64 (.infinity s)) = .infinity s := by
  cases s <;> rfl

theorem unpack_pack_zero (s : Sign) :
    unpack Format.binary64 (pack Format.binary64 (.zero s)) = .zero s :=
  unpack_packedZero

theorem pack_finite (s : Sign) {m : Nat} (e : Int) (hm : 0 < m) :
    pack Format.binary64 (.finite s m e hm) =
      if 2 ^ 11 ≤ (e + 1075).toNat + 1 then packedInfinity .binary64 s
      else if m.log2 + 1 = 53 then
        packComponents .binary64 s (BitVec.ofNat 11 (e + 1075).toNat) (BitVec.ofNat 52 m)
      else packComponents .binary64 s 0#11 (BitVec.ofNat 52 m) := by
  have hsum : e + (Format.binary64.exponentBias : Int) +
      (Format.binary64.mantissaBitsWithoutImplicit : Int) = e + 1075 := Int.add_assoc e 1023 52
  rw [UnpackedFloat.pack, hsum]
  rfl

/-- A number with all its digits loses the first one in its bits and gets it back. -/
theorem unpack_pack_full {m : Nat} {e : Int} (h : Normal m e) (hfull : 2 ^ 52 ≤ m) (he : e ≤ 971)
    (s : Sign) (hm : 0 < m) :
    unpack Format.binary64 (pack Format.binary64 (.finite s m e hm)) = .finite s m e hm := by
  have hlt := h.digits
  have hge := h.least
  have hbias : (Format.binary64.exponentBias : Int) = 1023 := rfl
  have hplaces : (Format.binary64.mantissaBitsWithoutImplicit : Int) = 52 := rfl
  have hlog : m.log2 = 52 := (Nat.log2_eq_iff hm.ne').mpr ⟨hfull, hlt⟩
  have hexponent : (BitVec.ofNat 11 (e + 1075).toNat).toNat = (e + 1075).toNat :=
    Nat.mod_eq_of_lt (by omega)
  have hnotAll : BitVec.ofNat 11 (e + 1075).toNat ≠ -1#11 := by
    intro heq
    have hall : (e + 1075).toNat = 2047 := hexponent.symm.trans (congrArg BitVec.toNat heq)
    omega
  have hnotZero : BitVec.ofNat 11 (e + 1075).toNat ≠ 0#11 := by
    intro heq
    have hzero : (e + 1075).toNat = 0 := hexponent.symm.trans (congrArg BitVec.toNat heq)
    omega
  have hmantissa : (1#1 ++ BitVec.ofNat 52 m).toNat = m := by
    rw [toNat_one_append, BitVec.toNat_ofNat]
    omega
  rw [pack_finite, if_neg (by omega), if_pos (by omega), UnpackedFloat.unpack]
  simp only [unpackMantissa_packComponents, unpackExponent_packComponents,
    unpackSign_packComponents, Sign.ofBitVec_toBitVec]
  rw [if_neg hnotAll, if_neg hnotZero]
  simp only [hmantissa, hexponent, hbias, hplaces]
  congr 1
  omega

/-- A number with fewer digits stands at the least exponent. -/
theorem unpack_pack_short {m : Nat} (hlt : m < 2 ^ 52) (s : Sign) (hm : 0 < m) :
    unpack Format.binary64 (pack Format.binary64 (.finite s m (-1074) hm)) =
      .finite s m (-1074) hm := by
  have hbias : (Format.binary64.exponentBias : Int) = 1023 := rfl
  have hplaces : (Format.binary64.mantissaBitsWithoutImplicit : Int) = 52 := rfl
  have hlog : m.log2 < 52 := (Nat.log2_lt hm.ne').mpr hlt
  have hmantissa : (BitVec.ofNat 52 m).toNat = m := Nat.mod_eq_of_lt hlt
  have hnotZero : BitVec.ofNat 52 m ≠ 0#52 := by
    intro heq
    have hzero : m = 0 := hmantissa.symm.trans (congrArg BitVec.toNat heq)
    omega
  rw [pack_finite, if_neg (by decide), if_neg (by omega), UnpackedFloat.unpack]
  simp only [unpackMantissa_packComponents, unpackExponent_packComponents,
    unpackSign_packComponents, Sign.ofBitVec_toBitVec]
  rw [if_neg (by decide), if_pos trivial, dif_neg hnotZero]
  simp only [hmantissa, hbias, hplaces]
  rfl

/-- A finite number within bounds comes out of its bits again. -/
theorem unpack_pack_finite {m : Nat} {e : Int} (h : Normal m e) (he : e ≤ 971) (s : Sign)
    (hm : 0 < m) :
    unpack Format.binary64 (pack Format.binary64 (.finite s m e hm)) = .finite s m e hm := by
  by_cases hfull : 2 ^ 52 ≤ m
  · exact unpack_pack_full h hfull he s hm
  · obtain rfl := h.full.resolve_right hfull
    exact unpack_pack_short (Nat.lt_of_not_le hfull) s hm

/-- A finite number out of bounds becomes an infinity. -/
theorem unpack_pack_overflow {e : Int} (he : 972 ≤ e) (s : Sign) {m : Nat} (hm : 0 < m) :
    unpack Format.binary64 (pack Format.binary64 (.finite s m e hm)) = .infinity s := by
  rw [pack_finite, if_pos (by omega)]
  exact unpack_pack_infinity s

/-- The exponent that a number of `j` places above the least exponent is rounded to. -/
theorem targetExponent_eq {m : Nat} (hm : m ≠ 0) (j : Nat) :
    Format.binary64.targetExponent (totalExponent m (j - 1074)) =
      ((m * 2 ^ j).log2 - 52 : Nat) - 1074 := by
  have hlog := log2_mul_pow hm j
  have hplaces : (Format.binary64.mantissaBits : Int) = 53 := rfl
  have hleast : Format.binary64.minExponent = -1074 := rfl
  rw [Format.targetExponent, totalExponent, hplaces, hleast]
  omega

theorem shiftToTargetExponent_eq {m : Nat} (hm : m ≠ 0) (j : Nat) :
    shiftToTargetExponent Format.binary64 m (j - 1074) .exact =
      ((⟨m, false, false⟩ : ExtendedMantissa) >>> ((m * 2 ^ j).log2 - 52 - j),
        ((j + ((m * 2 ^ j).log2 - 52 - j) : Nat) : Int) - 1074) := by
  have hshift : (((m * 2 ^ j).log2 - 52 : Nat) - 1074 - ((j : Int) - 1074)).toNat =
      (m * 2 ^ j).log2 - 52 - j := by omega
  have hexponent : (j : Int) - 1074 + ((m * 2 ^ j).log2 - 52 - j : Nat) =
      (j + ((m * 2 ^ j).log2 - 52 - j) : Nat) - 1074 := by omega
  unfold shiftToTargetExponent shiftToExponent
  dsimp only
  rw [targetExponent_eq hm, hshift, hexponent]
  rfl

/-- If rounding has carried into a digit too many, the last one is zero and goes. -/
theorem carry {r k : Nat} (hr : r ≠ 0) (hle : r ≤ 2 ^ 53) (hfull : k = 0 ∨ 2 ^ 52 ≤ r) :
    ∃ m j, (shiftToTargetExponent Format.binary64 r (k - 1074) .exact).1.mantissa = m ∧
      (shiftToTargetExponent Format.binary64 r (k - 1074) .exact).2 = (j : Nat) - 1074 ∧
      m ≠ 0 ∧ Normal m (j - 1074) ∧ m * 2 ^ j = r * 2 ^ k := by
  have hlog := log2_mul_pow hr k
  rw [shiftToTargetExponent_eq hr, shiftRight_exact]
  by_cases hcarry : r = 2 ^ 53
  · have hone : (r * 2 ^ k).log2 - 52 - k = 1 := by
      rw [hcarry, Nat.log2_two_pow, ← hcarry] at hlog
      omega
    rw [hone, hcarry]
    refine ⟨2 ^ 52, k + 1, rfl, rfl, by decide, ⟨by decide, by omega, Or.inr (Nat.le_refl _)⟩, ?_⟩
    have hdouble : 2 ^ (k + 1) = 2 ^ k * 2 := pow_succ 2 k
    omega
  · have hdigits := (Nat.log2_lt hr).mpr (Nat.lt_of_le_of_ne hle hcarry)
    have hnone : (r * 2 ^ k).log2 - 52 - k = 0 := by omega
    rw [hnone]
    refine ⟨r, k, Nat.div_one r, rfl, hr, ⟨by omega, by omega, ?_⟩, rfl⟩
    omega

/-- What a number of too many digits is rounded to. -/
theorem roundWithAccuracy_exact {m j : Nat} (hm : m ≠ 0) (hj : j ≤ (m * 2 ^ j).log2 - 52)
    (s : Sign) :
    ∃ m' j' hm', roundWithAccuracy Format.binary64 s m (j - 1074) .exact =
      .finite s m' ((j' : Nat) - 1074) hm' ∧
      Normal m' (j' - 1074) ∧ m' * 2 ^ j' = rounded (m * 2 ^ j) := by
  have hlower := pow_le_nearest (Nat.mul_ne_zero hm (Nat.two_pow_pos j).ne')
  have hupper := nearest_le_pow (m * 2 ^ j)
  have hscale := nearest_scale m ((m * 2 ^ j).log2 - 52 - j) j
  rw [Nat.sub_add_cancel hj] at hscale
  have hfirst := shiftToTargetExponent_eq hm j
  rw [Nat.add_sub_cancel' hj] at hfirst
  have hzero : nearest (m * 2 ^ j) ((m * 2 ^ j).log2 - 52) ≠ 0 := by
    have hpos := Nat.two_pow_pos ((m * 2 ^ j).log2 - ((m * 2 ^ j).log2 - 52))
    omega
  have hdigits : nearest (m * 2 ^ j) ((m * 2 ^ j).log2 - 52) ≤ 2 ^ 53 :=
    hupper.trans (Nat.pow_le_pow_right Nat.two_pos (by omega))
  have hfull : (m * 2 ^ j).log2 - 52 = 0 ∨
      2 ^ 52 ≤ nearest (m * 2 ^ j) ((m * 2 ^ j).log2 - 52) := by
    by_cases hk : (m * 2 ^ j).log2 - 52 = 0
    · exact Or.inl hk
    · exact Or.inr ((Nat.pow_le_pow_right Nat.two_pos (by omega)).trans hlower)
  obtain ⟨m', j', hmantissa, hexponent, hm', hnormal, hvalue⟩ := carry hzero hdigits hfull
  refine ⟨m', j', Nat.pos_of_ne_zero hm', ?_, hnormal, hvalue⟩
  unfold roundWithAccuracy
  rw [hfirst]
  change (let r := shiftToTargetExponent Format.binary64 (nearest m _) _ .exact;
    if h : r.1.mantissa = 0 then UnpackedFloat.zero s
    else .finite s r.1.mantissa r.2 (Nat.pos_of_ne_zero h)) = _
  rw [← hscale]
  dsimp only
  simp only [hmantissa, hexponent, hm', dite_false]

/-- What a number above zero is rounded to. -/
theorem round_eq {m : Nat} (hm : m ≠ 0) (j : Nat) (s : Sign) :
    ∃ m' j' hm', UnpackedFloat.round Format.binary64 s m (j - 1074) =
      .finite s m' ((j' : Nat) - 1074) hm' ∧
      Normal m' (j' - 1074) ∧ m' * 2 ^ j' = rounded (m * 2 ^ j) := by
  have hsplit : m * 2 ^ (j - ((m * 2 ^ j).log2 - 52)) * 2 ^ (j - (j - ((m * 2 ^ j).log2 - 52))) =
      m * 2 ^ j := by
    rw [Nat.mul_assoc, ← Nat.pow_add, Nat.add_sub_cancel' (Nat.sub_le _ _)]
  have hshift : ((j : Int) - 1074 - (((m * 2 ^ j).log2 - 52 : Nat) - 1074)).toNat =
      j - ((m * 2 ^ j).log2 - 52) := by omega
  have hexponent : (j : Int) - 1074 - (j - ((m * 2 ^ j).log2 - 52) : Nat) =
      (j - (j - ((m * 2 ^ j).log2 - 52)) : Nat) - 1074 := by omega
  have hround := roundWithAccuracy_exact
    (Nat.mul_ne_zero hm (Nat.two_pow_pos (j - ((m * 2 ^ j).log2 - 52))).ne')
    (j := j - (j - ((m * 2 ^ j).log2 - 52))) (by rw [hsplit]; omega) s
  rw [hsplit] at hround
  unfold UnpackedFloat.round decreaseExponent
  dsimp only
  rw [targetExponent_eq hm, hshift, hexponent, Nat.shiftLeft_eq]
  exact hround

end Binary64

end Waymark
