import Waymark.Proofs.Graph.Edit
import Waymark.Proofs.Overlay.Layout
import Waymark.Workspace

namespace Waymark

variable {V E κ : Type}

/-- An overlay whose evaluator has been asked about one more edge. -/
def Overlay.asked (o : Overlay V E κ) (g : Graph V E) (edge : Edge E) : Overlay V E κ :=
  { o with appraiser := (o.appraiser.ask g edge).2 }

def Step.failure? : Step → Option (Failure κ)
  | .limitReached limit => some (.expansionLimit limit)
  | _ => none

variable [Cost κ]

/-- What can become of a tenant over a graph at one request, with the failure reported if any. -/
inductive Tenant.Moves (g : Graph V E) :
    Tenant V E κ → Option (Failure κ) → Tenant V E κ → Prop
  | asked (o : Overlay V E κ) {e : EdgeId} {edge : Edge E} (h : g.edge e = .ok edge) :
    Moves g (.overlay o) none (.overlay (o.asked g edge))
  | finderAsked (f : Finder V E κ) {e : EdgeId} {edge : Edge E} (h : g.edge e = .ok edge) :
    Moves g (.finder f) none (.finder { f with overlay := f.overlay.asked g edge })
  | reset (o : Overlay V E κ) :
    Moves g (.overlay o) (failure? (o.reset g)) (.overlay (leftBehind (o.reset g)))
  | searched (o : Overlay V E κ) (a b : VertexId) (config : SearchConfig) :
    Moves g (.overlay o) (failure? (o.search g a b config))
      (.overlay (givenBack (o.search g a b config)))
  | found (f : Finder V E κ) (a b : VertexId) :
    Moves g (.finder f) (failure? (f.find g a b)) (.finder (givenBack (f.find g a b)))
  | begun {o : Overlay V E κ} {a b : VertexId} {config : SearchConfig} {s : Search V E κ}
    (h : Search.start o g a b config = .ok s) : Moves g (.overlay o) none (.search s)
  | notBegun {o o' : Overlay V E κ} {a b : VertexId} {config : SearchConfig}
    {failure : Failure κ} (h : Search.start o g a b config = .error (failure, o')) :
    Moves g (.overlay o) (some failure) (.overlay o')
  | stepped (s : Search V E κ) :
    Moves g (.search s) (s.step g).1.failure? (.search (s.step g).2)
  | ran (s : Search V E κ) :
    Moves g (.search s) (failure? (s.run g)) (.overlay (givenBack (s.run g)))
  | cancelled (s : Search V E κ) : Moves g (.search s) none (.overlay s.overlay)

omit [Cost κ] in
/-- The failures of questions that an overlay cannot answer. -/
inductive Overlay.Unanswered (o : Overlay V E κ) (g : Graph V E) : Failure κ → Prop
  | vertexMark {v : VertexId} {failure : Failure κ} (h : o.vertexMark g v = .error failure) :
    Unanswered o g failure
  | edgeMark {e : EdgeId} {failure : Failure κ} (h : o.edgeMark g e = .error failure) :
    Unanswered o g failure
  | pathTo {v : VertexId} {failure : Failure κ} (h : o.pathTo g v = .error failure) :
    Unanswered o g failure

namespace Workspace

omit [Cost κ] in
def placed (w : Workspace V E κ) (n : Nat) (t : Tenant V E κ) : Workspace V E κ :=
  { w with tenants := (n, t) :: w.tenants.filter (·.1 ≠ n) }

omit [Cost κ] in
/-- The overlay at a place is taken off the graph. -/
def vacated (w : Workspace V E κ) (n : Nat) (t : Tenant V E κ) : Workspace V E κ :=
  { w with graph := t.toOverlay.unmount w.graph, tenants := w.tenants.filter (·.1 ≠ n) }

/-- All that one request can make of a workspace, with the trouble reported if any. -/
inductive Turn (w : Workspace V E κ) : Option (Trouble κ) → Workspace V E κ → Prop
  | refused (refusal : Refusal) : Turn w (some (.refused refusal)) w
  | missing (m : Missing) : Turn w (some (.failed (.missing m.element))) w
  | answered : Turn w none w
  | unanswered {n : Nat} {t : Tenant V E κ} {failure : Failure κ}
    (hn : w.tenants.lookup n = some t) (h : t.toOverlay.Unanswered w.graph failure) :
    Turn w (some (.failed failure)) w
  | edited {g' : Graph V E} (hw : w.tenants = []) (h : w.graph.Edited g')
    (vertices : Array VertexId) (edges : Array EdgeId) :
    Turn w none { w with graph := g', vertices, edges }
  | mounted {n : Nat} {evaluator : Evaluator V E κ} {o : Overlay V E κ} {g' : Graph V E}
    {t : Tenant V E κ} (hn : w.tenants.lookup n = none)
    (h : w.graph.mount evaluator = (.ok o, g')) (ht : t.toOverlay = o)
    (hidle : ∀ s, t ≠ .search s) : Turn w none ({ w with graph := g' }.placed n t)
  | notMounted {evaluator : Evaluator V E κ} {failure : Failure κ} {a : Appraiser V E κ}
    {g' : Graph V E} (h : w.graph.mount evaluator = (.error (failure, a), g')) :
    Turn w (some (.failed failure)) { w with graph := g' }
  | unmounted {n : Nat} {t : Tenant V E κ} (hn : w.tenants.lookup n = some t) :
    Turn w none (w.vacated n t)
  | moved {n : Nat} {t t' : Tenant V E κ} {failure? : Option (Failure κ)}
    (hn : w.tenants.lookup n = some t) (h : t.Moves w.graph failure? t') :
    Turn w (failure?.map .failed) (w.placed n t')

/-! Acts -/

omit [Cost κ] in
/-- Done in `w`, an act ends as `Q` says or in trouble as `R` says. -/
def Ends {α : Type} (act : Act V E κ α) (w : Workspace V E κ)
    (Q : α → Workspace V E κ → Prop) (R : Trouble κ → Workspace V E κ → Prop) : Prop :=
  match act w with
  | .ok a w' => Q a w'
  | .error trouble w' => R trouble w'

section Ends

variable {α β : Type} {w : Workspace V E κ} {Q : α → Workspace V E κ → Prop}
  {R : Trouble κ → Workspace V E κ → Prop} {n : Nat}

omit [Cost κ]

theorem Ends.bind {act : Act V E κ β} {k : β → Act V E κ α}
    (h : Ends act w (fun b w' => Ends (k b) w' Q R) R) : Ends (act >>= k) w Q R := by
  unfold Ends at h ⊢
  show match EStateM.bind act k w with
    | .ok a w' => Q a w'
    | .error trouble w' => R trouble w'
  rw [EStateM.bind]
  cases hact : act w with
  | error trouble w' =>
    rw [hact] at h
    exact h
  | ok b w' =>
    rw [hact] at h
    exact h

theorem Ends.imp {P : α → Workspace V E κ → Prop} {act : Act V E κ α} (h : Ends act w P R)
    (hPQ : ∀ a w', P a w' → Q a w') : Ends act w Q R := by
  unfold Ends at h ⊢
  cases hact : act w with
  | error trouble w' =>
    rw [hact] at h
    exact h
  | ok a w' =>
    rw [hact] at h
    exact hPQ a w' h

theorem ends_pure {a : α} (h : Q a w) : Ends (pure a) w Q R := h

/-- What an act returns may be turned into something else. -/
theorem Ends.map {P : Workspace V E κ → Prop} {act : Act V E κ β} {f : β → α}
    (h : Ends act w (fun _ => P) R) : Ends (act >>= fun b => pure (f b)) w (fun _ => P) R :=
  Ends.bind (h.imp fun _ _ hw' => ends_pure hw')

theorem ends_get {Q : Workspace V E κ → Workspace V E κ → Prop} (h : Q w w) :
    Ends (get : Act V E κ (Workspace V E κ)) w Q R := h

theorem ends_modify {Q : Unit → Workspace V E κ → Prop}
    {f : Workspace V E κ → Workspace V E κ} (h : Q () (f w)) :
    Ends (modify f : Act V E κ Unit) w Q R := h

theorem ends_throw {trouble : Trouble κ} (h : R trouble w) :
    Ends (throw trouble : Act V E κ α) w Q R := h

theorem ends_put {Q : Unit → Workspace V E κ → Prop} {t : Tenant V E κ}
    (h : Q () (w.placed n t)) : Ends (put n t) w Q R := h

end Ends

section Tenants

variable {α β : Type} {w : Workspace V E κ} {Q : α → Workspace V E κ → Prop} {n : Nat}

section Lookup

variable {R : Trouble κ → Workspace V E κ → Prop} (hR : ∀ refusal, R (.refused refusal) w)

include hR

omit [Cost κ]

theorem ends_tenant {Q : Tenant V E κ → Workspace V E κ → Prop}
    (h : ∀ t, w.tenants.lookup n = some t → Q t w) : Ends (tenant n) w Q R := by
  refine Ends.bind (ends_get ?_)
  cases hl : w.tenants.lookup n with
  | none => exact ends_throw (hR _)
  | some t => exact ends_pure (h t hl)

theorem ends_idle {Q : Overlay V E κ → Workspace V E κ → Prop}
    (h : ∀ t, w.tenants.lookup n = some t → (∀ s, t ≠ .search s) → Q t.toOverlay w) :
    Ends (idle n) w Q R := by
  refine Ends.bind (ends_tenant hR fun t hl => ?_)
  cases t with
  | search s => exact ends_throw (hR _)
  | overlay o => exact ends_pure (h _ hl fun s hs => by cases hs)
  | finder f => exact ends_pure (h _ hl fun s hs => by cases hs)

theorem ends_plain {Q : Overlay V E κ → Workspace V E κ → Prop}
    (h : ∀ o, w.tenants.lookup n = some (.overlay o) → Q o w) : Ends (plain n) w Q R := by
  refine Ends.bind (ends_tenant hR fun t hl => ?_)
  cases t with
  | overlay o => exact ends_pure (h o hl)
  | finder f => exact ends_throw (hR _)
  | search s => exact ends_throw (hR _)

theorem ends_finder {Q : Finder V E κ → Workspace V E κ → Prop}
    (h : ∀ f, w.tenants.lookup n = some (.finder f) → Q f w) : Ends (finder n) w Q R := by
  refine Ends.bind (ends_tenant hR fun t hl => ?_)
  cases t with
  | finder f => exact ends_pure (h f hl)
  | overlay o => exact ends_throw (hR _)
  | search s => exact ends_throw (hR _)

theorem ends_running {Q : Search V E κ → Workspace V E κ → Prop}
    (h : ∀ s, w.tenants.lookup n = some (.search s) → Q s w) : Ends (running n) w Q R := by
  refine Ends.bind (ends_tenant hR fun t hl => ?_)
  cases t with
  | search s => exact ends_pure (h s hl)
  | overlay o => exact ends_throw (hR _)
  | finder f => exact ends_throw (hR _)

end Lookup

omit [Cost κ] in
theorem ends_found {R : Trouble κ → Workspace V E κ → Prop} {x : Except Missing α}
    (hR : ∀ m : Missing, R (.failed (.missing m.element)) w) (h : ∀ a, x = .ok a → Q a w) :
    Ends (found x) w Q R := by
  cases x with
  | ok a => exact ends_pure (h a rfl)
  | error m => exact ends_throw (hR _)

omit [Cost κ] in
theorem ends_attempt {R : Trouble κ → Workspace V E κ → Prop} {x : Except (Failure κ) α}
    (hR : ∀ failure, x = .error failure → R (.failed failure) w) (h : ∀ a, x = .ok a → Q a w) :
    Ends (attempt x) w Q R := by
  cases x with
  | ok a => exact ends_pure (h a rfl)
  | error failure => exact ends_throw (hR failure rfl)

/-- What a request that has changed nothing so far may report. -/
abbrev Troubled (w : Workspace V E κ) : Trouble κ → Workspace V E κ → Prop :=
  fun trouble w' => w.Turn (some trouble) w'

/-- An edit goes ahead only while nothing is mounted. -/
theorem ends_edit {f : Graph V E → Except Missing (α × Graph V E)}
    (h : ∀ a g', w.tenants = [] → f w.graph = .ok (a, g') → Q a { w with graph := g' }) :
    Ends (edit f) w Q w.Troubled := by
  refine Ends.bind (Ends.bind (ends_get ?_))
  cases hempty : w.tenants.isEmpty with
  | false => exact ends_throw (.refused _)
  | true =>
    refine ends_pure (Ends.bind (ends_get (Ends.bind (ends_found .missing fun p hp => ?_))))
    exact Ends.bind (ends_modify (ends_pure (h p.1 p.2 (List.isEmpty_iff.mp hempty) hp)))

/-- What an attempt on a tenant leaves behind goes to its place. -/
theorem ends_settle {t : Tenant V E κ} {wrap : β → Tenant V E κ}
    {r : Except (Failure κ × β) (α × β)} (hn : w.tenants.lookup n = some t)
    (h : t.Moves w.graph (failure? r) (wrap (givenBack r))) :
    Ends (settle n wrap r) w (fun _ w' => w.Turn none w') w.Troubled := by
  cases r with
  | ok p => exact Ends.bind (ends_put (ends_pure (Turn.moved hn h)))
  | error e => exact Ends.bind (ends_put (ends_throw (Turn.moved hn h)))

end Tenants

end Workspace

end Waymark
