namespace Waymark

/-- What searching needs of costs. An evaluator's answer counts only if it is `admissible`. -/
class Cost (κ : Type) extends Zero κ, Add κ, LE κ where
  decidableLe : DecidableLE κ
  admissible : κ → Bool

namespace Cost

instance {κ : Type} [Cost κ] : DecidableLE κ := decidableLe

/-- A floating-point cost has to be finite and not below zero; negative zero is allowed. -/
instance : Cost Float where
  zero := 0
  decidableLe := inferInstance
  admissible x := x.isFinite && decide (0 ≤ x)

end Cost

end Waymark
