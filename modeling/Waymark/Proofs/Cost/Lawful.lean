import Waymark.Cost

namespace Waymark

/-- The laws of costs, asked only of costs not below zero. Neither need equal costs be the same nor
need sums cancel, so sums may be rounded. -/
class LawfulCost (κ : Type) [Cost κ] : Prop where
  zero_le_zero : (0 : κ) ≤ 0
  le_trans : ∀ {a b c : κ}, a ≤ b → b ≤ c → a ≤ c
  le_total : ∀ {a b : κ}, 0 ≤ a → 0 ≤ b → a ≤ b ∨ b ≤ a
  add_le_add_right : ∀ {a b c : κ}, 0 ≤ a → 0 ≤ c → a ≤ b → a + c ≤ b + c
  le_add_right : ∀ {a c : κ}, 0 ≤ a → 0 ≤ c → a ≤ a + c
  nonneg_of_admissible : ∀ {c : κ}, Cost.admissible c = true → 0 ≤ c

namespace LawfulCost

variable {κ : Type} [Cost κ] [LawfulCost κ] {a b c : κ}

theorem le_refl (ha : 0 ≤ a) : a ≤ a := (le_total ha ha).elim id id

theorem le_of_not_le (ha : 0 ≤ a) (hb : 0 ≤ b) (h : ¬ a ≤ b) : b ≤ a :=
  (le_total ha hb).resolve_left h

theorem add_nonneg (ha : 0 ≤ a) (hc : 0 ≤ c) : 0 ≤ a + c := le_trans ha (le_add_right ha hc)

end LawfulCost

/-- The laws that are asked where it does not matter whether sums keep to the order of costs, as long
as no cost gets less by adding to it. -/
class GrowingCost (κ : Type) [Cost κ] : Prop where
  zero_le_zero : (0 : κ) ≤ 0
  le_trans : ∀ {a b c : κ}, a ≤ b → b ≤ c → a ≤ c
  le_total : ∀ {a b : κ}, 0 ≤ a → 0 ≤ b → a ≤ b ∨ b ≤ a
  le_add_right : ∀ {a c : κ}, 0 ≤ a → 0 ≤ c → a ≤ a + c
  nonneg_of_admissible : ∀ {c : κ}, Cost.admissible c = true → 0 ≤ c

namespace GrowingCost

variable {κ : Type} [Cost κ]

instance [LawfulCost κ] : GrowingCost κ where
  zero_le_zero := LawfulCost.zero_le_zero
  le_trans := LawfulCost.le_trans
  le_total := LawfulCost.le_total
  le_add_right := LawfulCost.le_add_right
  nonneg_of_admissible := LawfulCost.nonneg_of_admissible

theorem add_nonneg [GrowingCost κ] {a c : κ} (ha : 0 ≤ a) (hc : 0 ≤ c) : 0 ≤ a + c :=
  le_trans ha (le_add_right ha hc)

end GrowingCost

end Waymark
