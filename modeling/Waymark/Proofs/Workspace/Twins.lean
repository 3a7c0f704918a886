import Waymark.Proofs.Workspace.Deed
import Waymark.Proofs.Workspace.Life
import Waymark.Proofs.Workspace.Registry

namespace Waymark

variable {V E κ : Type} {c : Channel}

/-- The same tenant on another channel. -/
def Tenant.on (c : Channel) : Tenant V E κ → Tenant V E κ
  | .overlay o => .overlay (o.on c)
  | .finder f => .finder (f.on c)
  | .search s => .search (s.on c)

theorem Tenant.toOverlay_on (t : Tenant V E κ) : (t.on c).toOverlay = t.toOverlay.on c := by
  cases t <;> rfl

namespace Workspace

/-- Two workspaces that the user of one place cannot tell apart but by the channel there. -/
structure Twins (n : Nat) (w w' : Workspace V E κ) : Prop where
  graph : w'.graph.bare = w.graph.bare
  lookup : ∃ c, w'.tenants.lookup n = (w.tenants.lookup n).map (Tenant.on c)
  unaware : ∀ t, w.tenants.lookup n = some t → t.toOverlay.appraiser.evaluator.Unaware

/-- Done in `w` and in `w'`, two acts end both well, as `Q` says, or both in trouble, as `R`
says. -/
def InStep {α : Type} (act act' : Act V E κ α) (w w' : Workspace V E κ)
    (Q : α → Workspace V E κ → α → Workspace V E κ → Prop)
    (R : Trouble κ → Workspace V E κ → Trouble κ → Workspace V E κ → Prop) : Prop :=
  match act w, act' w' with
  | .ok a v, .ok a' v' => Q a v a' v'
  | .error trouble v, .error trouble' v' => R trouble v trouble' v'
  | _, _ => False

/-- The same trouble apart from channels. -/
def SameTrouble (n : Nat) (trouble : Trouble κ) (v : Workspace V E κ) (trouble' : Trouble κ)
    (v' : Workspace V E κ) : Prop :=
  trouble'.on ⟨0⟩ = trouble.on ⟨0⟩ ∧ Twins n v v'

section Rules

variable {α β : Type} {w w' : Workspace V E κ} {n : Nat}
  {Q : α → Workspace V E κ → α → Workspace V E κ → Prop}
  {R : Trouble κ → Workspace V E κ → Trouble κ → Workspace V E κ → Prop}

theorem InStep.bind {act act' : Act V E κ β} {k k' : β → Act V E κ α}
    (h : InStep act act' w w' (fun b v b' v' => InStep (k b) (k' b') v v' Q R) R) :
    InStep (act >>= k) (act' >>= k') w w' Q R := by
  unfold InStep at h ⊢
  simp only [Bind.bind, EStateM.bind]
  cases hact : act w <;> cases hact' : act' w' <;> rw [hact, hact'] at h <;>
    first | exact h | exact h.elim

theorem InStep.imp {P : α → Workspace V E κ → α → Workspace V E κ → Prop} {act act' : Act V E κ α}
    (h : InStep act act' w w' P R) (hPQ : ∀ a v a' v', P a v a' v' → Q a v a' v') :
    InStep act act' w w' Q R := by
  unfold InStep at h ⊢
  cases hact : act w <;> cases hact' : act' w' <;> rw [hact, hact'] at h <;>
    first | exact hPQ _ _ _ _ h | exact h

theorem inStep_pure {a a' : α} (h : Q a w a' w') : InStep (pure a) (pure a') w w' Q R := h

theorem inStep_throw {trouble trouble' : Trouble κ} (h : R trouble w trouble' w') :
    InStep (throw trouble : Act V E κ α) (throw trouble') w w' Q R := h

theorem inStep_get {Q : Workspace V E κ → Workspace V E κ → Workspace V E κ → Workspace V E κ → Prop}
    (h : Q w w w' w') : InStep (get : Act V E κ (Workspace V E κ)) get w w' Q R := h

theorem inStep_modify {Q : Unit → Workspace V E κ → Unit → Workspace V E κ → Prop}
    {f f' : Workspace V E κ → Workspace V E κ} (h : Q () (f w) () (f' w')) :
    InStep (modify f : Act V E κ Unit) (modify f') w w' Q R := h

theorem inStep_put {Q : Unit → Workspace V E κ → Unit → Workspace V E κ → Prop}
    {t t' : Tenant V E κ} (h : Q () (w.placed n t) () (w'.placed n t')) :
    InStep (put n t) (put n t') w w' Q R := h

end Rules

namespace Twins

section Rules

variable {α β : Type} {w w' : Workspace V E κ} {n : Nat}
  {Q : α → Workspace V E κ → α → Workspace V E κ → Prop} (h : Twins n w w')

include h

theorem same_refusal (refusal : Refusal) :
    SameTrouble n (.refused refusal) w (.refused refusal) w' := ⟨rfl, h⟩

theorem same_failure {failure failure' : Failure κ} (hf : failure'.on ⟨0⟩ = failure.on ⟨0⟩) :
    SameTrouble n (.failed failure) w (.failed failure') w' :=
  ⟨congrArg Trouble.failed hf, h⟩

theorem placed {t : Tenant V E κ} (hu : t.toOverlay.appraiser.evaluator.Unaware) (c : Channel) :
    Twins n (w.placed n t) (w'.placed n (t.on c)) where
  graph := h.graph
  lookup := ⟨c, by simp [lookup_placed]⟩
  unaware t' ht' := by
    rw [lookup_placed, if_pos rfl] at ht'
    cases ht'
    exact hu

theorem inStep_tenant
    {Q : Tenant V E κ → Workspace V E κ → Tenant V E κ → Workspace V E κ → Prop}
    (hQ : ∀ t c, w.tenants.lookup n = some t → w'.tenants.lookup n = some (t.on c) →
      Q t w (t.on c) w') : InStep (tenant n) (tenant n) w w' Q (SameTrouble n) := by
  obtain ⟨c, hc⟩ := h.lookup
  refine InStep.bind (inStep_get ?_)
  cases hl : w.tenants.lookup n with
  | none =>
    rw [hl] at hc
    rw [hc]
    exact inStep_throw (h.same_refusal _)
  | some t =>
    rw [hl] at hc
    rw [hc]
    exact inStep_pure (hQ t c hl hc)

theorem inStep_idle
    {Q : Overlay V E κ → Workspace V E κ → Overlay V E κ → Workspace V E κ → Prop}
    (hQ : ∀ t c, w.tenants.lookup n = some t → w'.tenants.lookup n = some (t.on c) →
      Q t.toOverlay w (t.toOverlay.on c) w') :
    InStep (idle n) (idle n) w w' Q (SameTrouble n) := by
  refine InStep.bind (h.inStep_tenant fun t c ht ht' => ?_)
  cases t with
  | search s => exact inStep_throw (h.same_refusal _)
  | overlay o => exact inStep_pure (hQ _ c ht ht')
  | finder f => exact inStep_pure (hQ _ c ht ht')

theorem inStep_plain
    {Q : Overlay V E κ → Workspace V E κ → Overlay V E κ → Workspace V E κ → Prop}
    (hQ : ∀ o c, w.tenants.lookup n = some (.overlay o) →
      w'.tenants.lookup n = some (.overlay (o.on c)) → Q o w (o.on c) w') :
    InStep (plain n) (plain n) w w' Q (SameTrouble n) := by
  refine InStep.bind (h.inStep_tenant fun t c ht ht' => ?_)
  cases t with
  | overlay o => exact inStep_pure (hQ o c ht ht')
  | finder f => exact inStep_throw (h.same_refusal _)
  | search s => exact inStep_throw (h.same_refusal _)

theorem inStep_finder
    {Q : Finder V E κ → Workspace V E κ → Finder V E κ → Workspace V E κ → Prop}
    (hQ : ∀ f c, w.tenants.lookup n = some (.finder f) →
      w'.tenants.lookup n = some (.finder (f.on c)) → Q f w (f.on c) w') :
    InStep (finder n) (finder n) w w' Q (SameTrouble n) := by
  refine InStep.bind (h.inStep_tenant fun t c ht ht' => ?_)
  cases t with
  | finder f => exact inStep_pure (hQ f c ht ht')
  | overlay o => exact inStep_throw (h.same_refusal _)
  | search s => exact inStep_throw (h.same_refusal _)

theorem inStep_running
    {Q : Search V E κ → Workspace V E κ → Search V E κ → Workspace V E κ → Prop}
    (hQ : ∀ s c, w.tenants.lookup n = some (.search s) →
      w'.tenants.lookup n = some (.search (s.on c)) → Q s w (s.on c) w') :
    InStep (running n) (running n) w w' Q (SameTrouble n) := by
  refine InStep.bind (h.inStep_tenant fun t c ht ht' => ?_)
  cases t with
  | search s => exact inStep_pure (hQ s c ht ht')
  | overlay o => exact inStep_throw (h.same_refusal _)
  | finder f => exact inStep_throw (h.same_refusal _)

omit h in
theorem mapError_on {x x' : Except (Failure κ) α} {c : Channel} (hx : x' = x.mapError (.on c)) :
    x'.mapError (Failure.on ⟨0⟩) = x.mapError (Failure.on ⟨0⟩) := by
  rw [hx]
  cases x with
  | ok a => rfl
  | error failure => exact congrArg Except.error (failure.on_on c ⟨0⟩)

theorem inStep_attempt {x x' : Except (Failure κ) α}
    (hx : x'.mapError (Failure.on ⟨0⟩) = x.mapError (Failure.on ⟨0⟩)) (hQ : ∀ a, x = .ok a → Q a w a w') :
    InStep (attempt x) (attempt x') w w' Q (SameTrouble n) := by
  cases x with
  | ok a =>
    cases x' with
    | ok a' =>
      cases hx
      exact inStep_pure (hQ a rfl)
    | error failure' => cases hx
  | error failure =>
    cases x' with
    | ok a' => cases hx
    | error failure' => exact inStep_throw (h.same_failure (Except.error.inj hx))

end Rules

end Twins

end Workspace

end Waymark
