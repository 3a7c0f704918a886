import Waymark.Proofs.Cost.Lawful
import Waymark.Proofs.Cost.Packing

namespace Waymark

namespace Binary64

open Float.Model Float.Model.UnpackedFloat

/-- The value of a finite number, its sign apart, in units of the least one above zero. -/
def size (m : Nat) (e : Int) : Nat :=
  m * 2 ^ (e + 1074).toNat

/-- The least exponent that is too large for a finite number. It is not to be unfolded, or the value
below would be computed wherever two terms are compared. -/
@[irreducible] def overflow : Int :=
  972

theorem overflow_eq : overflow = 972 := by
  rw [overflow]

/-- The least value that is too large for a finite number. -/
def bound : Nat :=
  size (2 ^ 52) overflow

theorem size_pos {m : Nat} (hm : 0 < m) (e : Int) : 0 < size m e :=
  Nat.mul_pos hm (Nat.two_pow_pos _)

theorem bound_pos : 0 < bound :=
  size_pos (Nat.two_pow_pos 52) overflow

theorem normal_bound : Normal (2 ^ 52) overflow :=
  ⟨by decide, by rw [overflow_eq]; decide, Or.inr (Nat.le_refl _)⟩

namespace Normal

variable {m m' : Nat} {e e' : Int}

/-- Of two numbers the one with the larger exponent is the larger. -/
theorem lt_of_exponent_lt (h : Normal m e) (h' : Normal m' e') (hlt : e < e') :
    size m e < size m' e' := by
  have hleast := h.least
  have hfull : 2 ^ 52 ≤ m' := h'.full.resolve_left (by omega)
  calc size m e < 2 ^ 53 * 2 ^ (e + 1074).toNat :=
        Nat.mul_lt_mul_of_pos_right h.digits (Nat.two_pow_pos _)
    _ = 2 ^ (52 + ((e + 1074).toNat + 1)) := by rw [← Nat.pow_add]; congr 1; omega
    _ = 2 ^ 52 * 2 ^ ((e + 1074).toNat + 1) := Nat.pow_add _ _ _
    _ ≤ size m' e' := Nat.mul_le_mul hfull (Nat.pow_le_pow_right Nat.two_pos (by omega))

theorem lt_bound (h : Normal m e) (he : e ≤ 971) : size m e < bound :=
  h.lt_of_exponent_lt normal_bound (by rw [overflow_eq]; omega)

theorem bound_le (h : Normal m e) (he : 972 ≤ e) : bound ≤ size m e := by
  rw [← overflow_eq] at he
  obtain hlt | rfl := Int.lt_or_eq_of_le he
  · exact (normal_bound.lt_of_exponent_lt h hlt).le
  · exact Nat.mul_le_mul_right _ (h.full.resolve_left (by rw [overflow_eq]; decide))

theorem compare_eq (h : Normal m e) (h' : Normal m' e') :
    (compare e e').then (compare m m') = compare (size m e) (size m' e') := by
  obtain hlt | rfl | hgt := Int.lt_trichotomy e e'
  · rw [Int.compare_eq_lt.mpr hlt, Nat.compare_eq_lt.mpr (h.lt_of_exponent_lt h' hlt)]
    rfl
  · have hpos := Nat.two_pow_pos (e + 1074).toNat
    rw [Int.compare_eq_eq.mpr rfl, Ordering.eq_then, size, size]
    obtain hm | rfl | hm := Nat.lt_trichotomy m m'
    · rw [Nat.compare_eq_lt.mpr hm, Nat.compare_eq_lt.mpr (Nat.mul_lt_mul_of_pos_right hm hpos)]
    · rw [Nat.compare_eq_eq.mpr rfl, Nat.compare_eq_eq.mpr rfl]
    · rw [Nat.compare_eq_gt.mpr hm, Nat.compare_eq_gt.mpr (Nat.mul_lt_mul_of_pos_right hm hpos)]
  · rw [Int.compare_eq_gt.mpr hgt, Nat.compare_eq_gt.mpr (h'.lt_of_exponent_lt h hgt)]
    rfl

end Normal

/-- The value of a number in units of the least one above zero. An infinity is worth the bound. -/
def worth : UnpackedFloat → Int
  | .notANumber => 0
  | .zero _ => 0
  | .infinity s => s.apply bound
  | .finite s m e _ => s.apply (size m e)

theorem isLE_compare_sign (s s' : Sign) {n : Nat} (hn : 0 < n) :
    (compare s s').isLE = true ↔ s.apply n ≤ s'.apply n := by
  cases s <;> cases s'
  · exact iff_of_true rfl (Int.le_refl _)
  · refine iff_of_true rfl ?_
    simp only [Sign.apply]
    omega
  · refine iff_of_false (by decide) ?_
    simp only [Sign.apply]
    omega
  · exact iff_of_true rfl (Int.le_refl _)

/-- Numbers stand in the order of what they are worth. -/
theorem le_iff {x y : UnpackedFloat} (hx : Canonical x) (hy : Canonical y)
    (hnx : x ≠ .notANumber) (hny : y ≠ .notANumber) :
    x.le y = true ↔ worth x ≤ worth y := by
  have hbound := bound_pos
  cases x with
  | notANumber => exact (hnx rfl).elim
  | infinity s =>
    cases y with
    | notANumber => exact (hny rfl).elim
    | infinity s' => exact isLE_compare_sign s s' hbound
    | zero s' =>
      cases s <;> simp [UnpackedFloat.le, UnpackedFloat.compare, worth, Sign.apply]
      omega
    | finite s' m' e' hm' =>
      have hlt := hy.1.lt_bound hy.2
      cases s <;> cases s' <;>
        simp [UnpackedFloat.le, UnpackedFloat.compare, worth, Sign.apply]
      all_goals omega
  | zero s =>
    cases y with
    | notANumber => exact (hny rfl).elim
    | infinity s' =>
      cases s' <;> simp [UnpackedFloat.le, UnpackedFloat.compare, worth, Sign.apply]
      omega
    | zero s' => simp [UnpackedFloat.le, UnpackedFloat.compare, worth]
    | finite s' m' e' hm' =>
      have hpos := size_pos hm' e'
      cases s' <;> simp [UnpackedFloat.le, UnpackedFloat.compare, worth, Sign.apply]
      omega
  | finite s m e hm =>
    have hlt := hx.1.lt_bound hx.2
    have hpos := size_pos hm e
    cases y with
    | notANumber => exact (hny rfl).elim
    | infinity s' =>
      cases s <;> cases s' <;>
        simp [UnpackedFloat.le, UnpackedFloat.compare, worth, Sign.apply]
      all_goals omega
    | zero s' =>
      cases s <;> simp [UnpackedFloat.le, UnpackedFloat.compare, worth, Sign.apply]
      omega
    | finite s' m' e' hm' =>
      have hpos' := size_pos hm' e'
      have hcompare := hx.1.compare_eq hy.1
      cases s <;> cases s' <;>
        simp [UnpackedFloat.le, UnpackedFloat.compare, worth, Sign.apply, hcompare,
          Nat.compare_swap, Nat.isLE_compare]
      omega

theorem normalize_pos {m : Nat} (hm : 0 < m) (e : Int) (s : Sign) :
    UnpackedFloat.normalize Format.binary64 m e s =
      UnpackedFloat.round Format.binary64 .positive m e := by
  have hcompare : compare (m : Int) 0 = .gt := Int.compare_eq_gt.mpr (by omega)
  rw [UnpackedFloat.normalize, hcompare]
  rfl

theorem rounded_size {m : Nat} {e : Int} (h : Normal m e) : rounded (size m e) = size m e :=
  rounded_mul h.digits _

theorem bound_le_rounded {n : Nat} (h : bound ≤ n) : bound ≤ rounded n := by
  have hmono := rounded_mono h
  rwa [bound, rounded_size normal_bound] at hmono

/-- Once it has been packed a result is a number, worth `n` but no more than the bound. -/
structure Packs (x : UnpackedFloat) (n : Nat) : Prop where
  number : unpack Format.binary64 (pack Format.binary64 x) ≠ .notANumber
  worth_eq : worth (unpack Format.binary64 (pack Format.binary64 x)) = min n bound

theorem packs_infinity {n : Nat} (h : bound ≤ n) : Packs (.infinity .positive) n where
  number := by simp [unpack_pack_infinity]
  worth_eq := by
    rw [unpack_pack_infinity]
    simp only [worth, Sign.apply]
    omega

theorem packs_zero (s : Sign) : Packs (.zero s) (rounded 0) where
  number := by simp [unpack_pack_zero]
  worth_eq := by simp [unpack_pack_zero, worth, rounded_zero]

theorem packs_finite {m : Nat} {e : Int} (h : Normal m e) (hm : 0 < m) :
    Packs (.finite .positive m e hm) (size m e) := by
  obtain he | he : e ≤ 971 ∨ 972 ≤ e := by omega
  · have hlt := h.lt_bound he
    constructor <;> rw [unpack_pack_finite h he]
    · simp
    · simp only [worth, Sign.apply]
      omega
  · have hle := h.bound_le he
    constructor <;> rw [unpack_pack_overflow he]
    · simp
    · simp only [worth, Sign.apply]
      omega

theorem size_shiftLeft {e e' : Int} (h : -1074 ≤ e') (hle : e' ≤ e) (m : Nat) :
    (m <<< (e - e').toNat) * 2 ^ (e' + 1074).toNat = size m e := by
  rw [Nat.shiftLeft_eq, Nat.mul_assoc, ← Nat.pow_add, size]
  congr 2
  omega

theorem add_finite {m m' : Nat} {e e' : Int} (h : Normal m e) (h' : Normal m' e') (hm : 0 < m)
    (hm' : 0 < m') :
    ∃ n k hn, UnpackedFloat.add Format.binary64 (.finite .positive m e hm)
      (.finite .positive m' e' hm') = .finite .positive n k hn ∧
      Normal n k ∧ size n k = rounded (size m e + size m' e') := by
  have hleast : -1074 ≤ min e e' := le_min h.least h'.least
  have hsum : (m <<< (e - min e e').toNat + m' <<< (e' - min e e').toNat) *
      2 ^ (min e e' + 1074).toNat = size m e + size m' e' := by
    rw [Nat.add_mul, size_shiftLeft hleast (min_le_left e e'),
      size_shiftLeft hleast (min_le_right e e')]
  have hpos : 0 < m <<< (e - min e e').toNat + m' <<< (e' - min e e').toNat := by
    rw [Nat.shiftLeft_eq]
    exact Nat.add_pos_left (Nat.mul_pos hm (Nat.two_pow_pos _)) _
  obtain ⟨n, j, hn, hround, hnormal, hvalue⟩ :=
    round_eq hpos.ne' (min e e' + 1074).toNat .positive
  have hexponent : ((min e e' + 1074).toNat : Int) - 1074 = min e e' := by omega
  rw [hexponent, ← normalize_pos hpos _ .positive] at hround
  rw [hsum] at hvalue
  refine ⟨n, j - 1074, hn, hround, hnormal, ?_⟩
  have hplaces : ((j : Int) - 1074 + 1074).toNat = j := by omega
  rw [← hvalue, size, hplaces]

/-- The numbers not below zero. -/
theorem cases_of_nonneg {x : UnpackedFloat} (hx : Canonical x) (hnx : x ≠ .notANumber)
    (h : 0 ≤ worth x) :
    x = .infinity .positive ∨ (∃ s, x = .zero s) ∨
      ∃ m e hm, x = .finite .positive m e hm ∧ Normal m e := by
  cases x with
  | notANumber => exact (hnx rfl).elim
  | infinity s =>
    cases s with
    | negative =>
      have hbound := bound_pos
      simp only [worth, Sign.apply] at h
      omega
    | positive => exact Or.inl rfl
  | zero s => exact Or.inr (Or.inl ⟨s, rfl⟩)
  | finite s m e hm =>
    cases s with
    | negative =>
      have hpos := size_pos hm e
      simp only [worth, Sign.apply] at h
      omega
    | positive => exact Or.inr (Or.inr ⟨m, e, hm, rfl, hx.1⟩)

/-- A sum is worth what the numbers are worth together, to 53 digits. -/
theorem packs_add {x y : UnpackedFloat} (hx : Canonical x) (hy : Canonical y)
    (hnx : x ≠ .notANumber) (hny : y ≠ .notANumber) (h0x : 0 ≤ worth x) (h0y : 0 ≤ worth y) :
    Packs (x.add Format.binary64 y) (rounded (worth x + worth y).toNat) := by
  obtain rfl | ⟨s, rfl⟩ | ⟨m, e, hm, rfl, h⟩ := cases_of_nonneg hx hnx h0x
  · have hsum : Packs (.infinity .positive)
        (rounded (worth (.infinity .positive) + worth y).toNat) :=
      packs_infinity (bound_le_rounded (by simp only [worth, Sign.apply] at *; omega))
    obtain rfl | ⟨s', rfl⟩ | ⟨m', e', hm', rfl, h'⟩ := cases_of_nonneg hy hny h0y <;> exact hsum
  · obtain rfl | ⟨s', rfl⟩ | ⟨m', e', hm', rfl, h'⟩ := cases_of_nonneg hy hny h0y
    · exact packs_infinity (bound_le_rounded (by simp [worth, Sign.apply]))
    · cases s <;> cases s' <;> exact packs_zero _
    · have hsame : (worth (.zero s) + worth (.finite .positive m' e' hm')).toNat = size m' e' := by
        simp [worth, Sign.apply]
      rw [hsame, rounded_size h']
      exact packs_finite h' hm'
  · obtain rfl | ⟨s', rfl⟩ | ⟨m', e', hm', rfl, h'⟩ := cases_of_nonneg hy hny h0y
    · exact packs_infinity (bound_le_rounded (by simp only [worth, Sign.apply] at *; omega))
    · have hsame : (worth (.finite .positive m e hm) + worth (.zero s')).toNat = size m e := by
        simp [worth, Sign.apply]
      rw [hsame, rounded_size h]
      exact packs_finite h hm
    · obtain ⟨n, k, hn, hadd, hnormal, hsize⟩ := add_finite h h' hm hm'
      rw [hadd]
      have hpacks := packs_finite hnormal hn
      rw [hsize] at hpacks
      exact hpacks

/-- A floating-point cost apart. -/
def parts (a : Float) : UnpackedFloat :=
  a.toModel.unpack

theorem canonical_parts (a : Float) : Canonical (parts a) :=
  canonical_unpack a.toModel.toBits.toBitVec

theorem parts_zero : parts 0 = .zero .positive := by
  rfl

theorem parts_add (a b : Float) :
    parts (a + b) = unpack Format.binary64
      (pack Format.binary64 ((parts a).add Format.binary64 (parts b))) :=
  rfl

theorem number_of_le {x y : UnpackedFloat} (h : x.le y = true) :
    x ≠ .notANumber ∧ y ≠ .notANumber := by
  constructor
  · intro hx
    subst hx
    cases h
  · intro hy
    subst hy
    cases x <;> cases h

/-- Costs that are numbers stand in the order of what they are worth. -/
theorem float_le_iff {a b : Float} :
    a ≤ b ↔ (parts a ≠ .notANumber ∧ parts b ≠ .notANumber) ∧
      worth (parts a) ≤ worth (parts b) := by
  have hle : a ≤ b ↔ (parts a).le (parts b) = true := decide_eq_true_iff
  rw [hle]
  constructor
  · intro h
    obtain ⟨ha, hb⟩ := number_of_le h
    exact ⟨⟨ha, hb⟩, (le_iff (canonical_parts a) (canonical_parts b) ha hb).mp h⟩
  · intro hwhole
    obtain ⟨⟨ha, hb⟩, h⟩ := hwhole
    exact (le_iff (canonical_parts a) (canonical_parts b) ha hb).mpr h

theorem float_nonneg_iff {a : Float} :
    0 ≤ a ↔ parts a ≠ .notANumber ∧ 0 ≤ worth (parts a) := by
  rw [float_le_iff, parts_zero]
  simp [worth]

/-- What is kept of a number not below zero has no more than 53 digits. -/
theorem worth_eq_rounded {x : UnpackedFloat} (hx : Canonical x) (hnx : x ≠ .notANumber)
    (h : 0 ≤ worth x) : worth x = min (rounded (worth x).toNat) bound := by
  obtain rfl | ⟨s, rfl⟩ | ⟨m, e, hm, rfl, hnormal⟩ := cases_of_nonneg hx hnx h
  · have hle := bound_le_rounded (Nat.le_refl bound)
    simp only [worth, Sign.apply, Int.toNat_natCast]
    omega
  · simp [worth, rounded_zero]
  · have hlt := hnormal.lt_bound hx.2
    simp only [worth, Sign.apply, Int.toNat_natCast, rounded_size hnormal]
    omega

section Float

variable {a b c : Float}

theorem float_add (ha : 0 ≤ a) (hc : 0 ≤ c) :
    parts (a + c) ≠ .notANumber ∧
      worth (parts (a + c)) = min (rounded (worth (parts a) + worth (parts c)).toNat) bound := by
  obtain ⟨hna, h0a⟩ := float_nonneg_iff.mp ha
  obtain ⟨hnc, h0c⟩ := float_nonneg_iff.mp hc
  have hpacks := packs_add (canonical_parts a) (canonical_parts c) hna hnc h0a h0c
  rw [parts_add]
  exact ⟨hpacks.number, hpacks.worth_eq⟩

theorem float_le_trans (hab : a ≤ b) (hbc : b ≤ c) : a ≤ c := by
  obtain ⟨⟨ha, _⟩, hab⟩ := float_le_iff.mp hab
  obtain ⟨⟨_, hc⟩, hbc⟩ := float_le_iff.mp hbc
  exact float_le_iff.mpr ⟨⟨ha, hc⟩, hab.trans hbc⟩

theorem float_le_total (ha : 0 ≤ a) (hb : 0 ≤ b) : a ≤ b ∨ b ≤ a := by
  obtain ⟨hna, _⟩ := float_nonneg_iff.mp ha
  obtain ⟨hnb, _⟩ := float_nonneg_iff.mp hb
  obtain h | h := Int.le_total (worth (parts a)) (worth (parts b))
  · exact Or.inl (float_le_iff.mpr ⟨⟨hna, hnb⟩, h⟩)
  · exact Or.inr (float_le_iff.mpr ⟨⟨hnb, hna⟩, h⟩)

theorem float_add_le_add_right (ha : 0 ≤ a) (hc : 0 ≤ c) (hab : a ≤ b) : a + c ≤ b + c := by
  obtain ⟨hnac, hac⟩ := float_add ha hc
  obtain ⟨hnbc, hbc⟩ := float_add (float_le_trans ha hab) hc
  obtain ⟨_, hle⟩ := float_le_iff.mp hab
  have hmono := rounded_mono (Int.toNat_le_toNat (Int.add_le_add_right hle (worth (parts c))))
  exact float_le_iff.mpr ⟨⟨hnac, hnbc⟩, by omega⟩

theorem float_le_add_right (ha : 0 ≤ a) (hc : 0 ≤ c) : a ≤ a + c := by
  obtain ⟨hnac, hac⟩ := float_add ha hc
  obtain ⟨hna, h0a⟩ := float_nonneg_iff.mp ha
  obtain ⟨_, h0c⟩ := float_nonneg_iff.mp hc
  have hself := worth_eq_rounded (canonical_parts a) hna h0a
  have hle : (worth (parts a)).toNat ≤ (worth (parts a) + worth (parts c)).toNat := by omega
  have hmono := rounded_mono hle
  exact float_le_iff.mpr ⟨⟨hna, hnac⟩, by omega⟩

theorem float_nonneg_of_admissible (h : Cost.admissible c = true) : 0 ≤ c := by
  have hwhole : (c.isFinite && decide (0 ≤ c)) = true := h
  rw [Bool.and_eq_true, decide_eq_true_iff] at hwhole
  exact hwhole.2

/-- What is not admissible is not a number, or infinite, or below zero. -/
theorem float_not_admissible_iff :
    Cost.admissible c = false ↔ c.isNaN = true ∨ c.isInf = true ∨ c < 0 := by
  have hle : 0 ≤ c ↔ (parts 0).le (parts c) = true := decide_eq_true_iff
  have hadmissible : Cost.admissible c = ((parts c).isFinite && (parts 0).le (parts c)) := by
    show ((parts c).isFinite && decide (0 ≤ c)) = _
    simp [hle]
  have hnan : c.isNaN = (parts c).isNaN := rfl
  have hinf : c.isInf = (parts c).isInf := rfl
  have hlt : c < 0 ↔ (parts c).lt (parts 0) = true := decide_eq_true_iff
  rw [hadmissible, hnan, hinf, hlt, parts_zero]
  cases parts c with
  | notANumber => decide
  | infinity s => cases s <;> decide
  | zero s => cases s <;> decide
  | finite s m e hm =>
    cases s <;> simp [UnpackedFloat.isFinite, UnpackedFloat.isNaN, UnpackedFloat.isInf,
      UnpackedFloat.le, UnpackedFloat.lt, UnpackedFloat.compare]

end Float

/-- Floating-point costs keep to the laws, though their sums are rounded. -/
instance : LawfulCost Float where
  zero_le_zero := float_nonneg_iff.mpr ⟨by simp [parts_zero], by simp [parts_zero, worth]⟩
  le_trans := float_le_trans
  le_total := float_le_total
  add_le_add_right := float_add_le_add_right
  le_add_right := float_le_add_right
  nonneg_of_admissible := float_nonneg_of_admissible

end Binary64

end Waymark
