import Mathlib.Algebra.Order.Ring.Nat

namespace Waymark

namespace Binary64

open Float.Model Float.Model.UnpackedFloat

/-- The digits that a shift drops are told by where twice their value stands to one place. -/
theorem shiftRight_exact (m n : Nat) :
    (⟨m, false, false⟩ : ExtendedMantissa) >>> n =
      ⟨m / 2 ^ n, decide (2 ^ n ≤ 2 * (m % 2 ^ n)),
        decide (m % 2 ^ n ≠ 0 ∧ 2 * (m % 2 ^ n) ≠ 2 ^ n)⟩ := by
  induction n with
  | zero => simp [HShiftRight.hShiftRight, Nat.repeat, Nat.mod_one]
  | succ n ih =>
    have hstep : (⟨m, false, false⟩ : ExtendedMantissa) >>> (n + 1) =
        ((⟨m, false, false⟩ : ExtendedMantissa) >>> n).shiftRightOne := rfl
    have hlt : m % 2 ^ n < 2 ^ n := Nat.mod_lt m (Nat.two_pow_pos n)
    rw [hstep, ih, ExtendedMantissa.shiftRightOne, Nat.mod_pow_succ, Nat.pow_succ,
      ← Nat.div_div_eq_div_mul, ← Bool.decide_or]
    -- The last digit of the quotient is the first one of those that have gone.
    obtain hbit | hbit := Nat.mod_two_eq_zero_or_one (m / 2 ^ n)
    all_goals
      simp only [hbit, Nat.mul_zero, Nat.mul_one, Nat.add_zero, ExtendedMantissa.mk.injEq, true_and,
        bne_self_eq_false, Bool.true_eq, Bool.false_eq, decide_eq_decide, decide_eq_true_eq,
        decide_eq_false_iff_not, Nat.reduceBNe]
      generalize m % 2 ^ n = r at hlt
      generalize 2 ^ n = d at hlt
      omega

/-- What is left of `m` when its last `n` binary digits are rounded away, a tie to the even side. -/
def nearest (m n : Nat) : Nat :=
  ((⟨m, false, false⟩ : ExtendedMantissa) >>> n).roundedMantissa

theorem nearest_eq (m n : Nat) :
    nearest m n = m / 2 ^ n +
      if 2 * (m % 2 ^ n) < 2 ^ n then 0
      else if 2 * (m % 2 ^ n) = 2 ^ n then m / 2 ^ n % 2 else 1 := by
  rw [nearest, shiftRight_exact, ExtendedMantissa.roundedMantissa]
  generalize m % 2 ^ n = r
  obtain hless | hsame | hmore := Nat.lt_trichotomy (2 * r) (2 ^ n)
  · by_cases hzero : r = 0
    · simp [hzero, ExtendedMantissa.accuracy, Accuracy.roundToNearestEven]
    · simp [hless, hless.ne, Nat.not_le.mpr hless, hzero, ExtendedMantissa.accuracy,
        Accuracy.roundToNearestEven]
  · simp [hsame, ExtendedMantissa.accuracy, Accuracy.roundToNearestEven]
  · have hne : r ≠ 0 := by
      intro hzero
      simp [hzero] at hmore
    simp [hne, hmore.le, hmore.ne', Nat.not_lt.mpr hmore.le, ExtendedMantissa.accuracy,
      Accuracy.roundToNearestEven]

theorem le_nearest (m n : Nat) : m / 2 ^ n ≤ nearest m n := by
  rw [nearest_eq]
  exact Nat.le_add_right _ _

theorem nearest_le (m n : Nat) : nearest m n ≤ m / 2 ^ n + 1 := by
  rw [nearest_eq]
  split
  · omega
  · split <;> omega

theorem nearest_mono {m m' : Nat} (h : m ≤ m') (n : Nat) : nearest m n ≤ nearest m' n := by
  obtain hsame | hless := Nat.eq_or_lt_of_le (Nat.div_le_div_right (c := 2 ^ n) h)
  · have hm := Nat.div_add_mod m (2 ^ n)
    have hm' := Nat.div_add_mod m' (2 ^ n)
    rw [← hsame] at hm'
    have hrest : m % 2 ^ n ≤ m' % 2 ^ n := by omega
    rw [nearest_eq, nearest_eq, ← hsame]
    split <;> split <;> (try split) <;> (try split) <;> omega
  · exact (nearest_le m n).trans (Nat.le_trans hless (le_nearest m' n))

/-- Digits that are all zero go without rounding. -/
theorem nearest_mul (m n : Nat) : nearest (m * 2 ^ n) n = m := by
  rw [nearest_eq, Nat.mul_mod_left, Nat.mul_div_cancel m (Nat.two_pow_pos n)]
  simp

/-- Digits that are zero from the first can be left out beforehand. -/
theorem nearest_scale (m n k : Nat) : nearest (m * 2 ^ k) (n + k) = nearest m n := by
  have hk := Nat.two_pow_pos k
  have hrest : m * 2 ^ k % 2 ^ (n + k) = m % 2 ^ n * 2 ^ k := by
    rw [Nat.pow_add, Nat.mul_mod_mul_right]
  have hquot : m * 2 ^ k / 2 ^ (n + k) = m / 2 ^ n := by
    rw [Nat.pow_add, Nat.mul_div_mul_right _ _ hk]
  rw [nearest_eq, nearest_eq, hrest, hquot, Nat.pow_add, ← Nat.mul_assoc]
  simp only [Nat.mul_lt_mul_right hk, Nat.mul_left_inj hk.ne']

theorem log2_mul_pow {m : Nat} (hm : m ≠ 0) (k : Nat) : (m * 2 ^ k).log2 = m.log2 + k := by
  rw [Nat.log2_eq_iff (Nat.mul_ne_zero hm (Nat.two_pow_pos k).ne'), Nat.pow_add,
    Nat.add_right_comm, Nat.pow_add _ _ k]
  constructor
  · exact Nat.mul_le_mul_right _ (Nat.log2_self_le hm)
  · exact Nat.mul_lt_mul_of_pos_right Nat.lt_log2_self (Nat.two_pow_pos k)

/-- `n` to 53 binary digits. -/
def rounded (n : Nat) : Nat :=
  nearest n (n.log2 - 52) * 2 ^ (n.log2 - 52)

theorem nearest_le_pow (n : Nat) : nearest n (n.log2 - 52) ≤ 2 ^ (n.log2 + 1 - (n.log2 - 52)) := by
  have hquot : n / 2 ^ (n.log2 - 52) < 2 ^ (n.log2 + 1 - (n.log2 - 52)) := by
    rw [Nat.div_lt_iff_lt_mul (Nat.two_pow_pos _), ← Nat.pow_add, Nat.sub_add_cancel (by omega)]
    exact Nat.lt_log2_self
  exact (nearest_le _ _).trans hquot

theorem pow_le_nearest {n : Nat} (h : n ≠ 0) :
    2 ^ (n.log2 - (n.log2 - 52)) ≤ nearest n (n.log2 - 52) := by
  refine Nat.le_trans ?_ (le_nearest _ _)
  rw [Nat.le_div_iff_mul_le (Nat.two_pow_pos _), ← Nat.pow_add, Nat.sub_add_cancel (by omega)]
  exact Nat.log2_self_le h

/-- Rounding up goes no further than the next power of two. -/
theorem rounded_le_pow (n : Nat) : rounded n ≤ 2 ^ (n.log2 + 1) := by
  have hle := Nat.mul_le_mul_right (2 ^ (n.log2 - 52)) (nearest_le_pow n)
  rwa [← Nat.pow_add, Nat.sub_add_cancel (by omega)] at hle

theorem pow_le_rounded {n : Nat} (h : n ≠ 0) : 2 ^ n.log2 ≤ rounded n := by
  have hle := Nat.mul_le_mul_right (2 ^ (n.log2 - 52)) (pow_le_nearest h)
  rwa [← Nat.pow_add, Nat.sub_add_cancel (by omega)] at hle

theorem rounded_mono {n n' : Nat} (h : n ≤ n') : rounded n ≤ rounded n' := by
  by_cases hzero : n = 0
  · rw [hzero]
    exact Nat.zero_le _
  have hlog : n.log2 ≤ n'.log2 :=
    (Nat.le_log2 (by omega)).mpr ((Nat.log2_self_le hzero).trans h)
  obtain hsame | hless := Nat.eq_or_lt_of_le hlog
  · rw [rounded, rounded, ← hsame]
    exact Nat.mul_le_mul_right _ (nearest_mono h _)
  · calc rounded n ≤ 2 ^ (n.log2 + 1) := rounded_le_pow n
      _ ≤ 2 ^ n'.log2 := Nat.pow_le_pow_right Nat.two_pos hless
      _ ≤ rounded n' := pow_le_rounded (by omega)

theorem rounded_zero : rounded 0 = 0 := by
  simp [rounded, nearest_eq]

/-- What has no more than 53 digits before its zeros stays as it is. -/
theorem rounded_mul {m : Nat} (hm : m < 2 ^ 53) (k : Nat) : rounded (m * 2 ^ k) = m * 2 ^ k := by
  by_cases hzero : m = 0
  · rw [hzero, Nat.zero_mul, rounded_zero]
  have hlog := log2_mul_pow hzero k
  have hdigits := (Nat.log2_lt hzero).mpr hm
  obtain ⟨d, hd⟩ : ∃ d, k = d + ((m * 2 ^ k).log2 - 52) := ⟨k - ((m * 2 ^ k).log2 - 52), by omega⟩
  rw [rounded]
  generalize (m * 2 ^ k).log2 - 52 = t at hd
  rw [hd, Nat.pow_add, ← Nat.mul_assoc, nearest_mul]

end Binary64

end Waymark
