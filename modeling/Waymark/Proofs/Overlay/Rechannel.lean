import Waymark.Proofs.Overlay.Alike
import Waymark.Proofs.Overlay.Entry
import Waymark.Proofs.Overlay.Registration

namespace Waymark

variable {V E κ : Type} {g g' : Graph V E} {c : Channel}

/-- The evaluator sees nothing of what is registered. While overlays are on a graph, that is all
that changes there. -/
def Evaluator.Unaware (evaluator : Evaluator V E κ) : Prop :=
  ∀ {n : Nat} {g g' : Graph V E} {edge edge' : Edge E}, g'.bare = g.bare → edge'.bare = edge.bare →
    evaluator.answer n g' edge' = evaluator.answer n g edge

theorem Evaluator.unaware_constant (cost : κ) : (constant cost : Evaluator V E κ).Unaware :=
  fun _ _ => rfl

/-- The same attempt made on another channel. -/
def attemptOn {σ α : Type} (c : Channel) (left : σ → σ) (result : α → α) :
    Except (Failure κ × σ) α → Except (Failure κ × σ) α
  | .ok a => .ok (result a)
  | .error (failure, s) => .error (failure.on c, left s)

/-- An attempt is told by what it reports and what it gives back. -/
theorem eq_attemptOn {σ α : Type} {left : σ → σ} {x x' : Except (Failure κ × σ) (α × σ)}
    (hr : reported x' = (reported x).mapError (.on c)) (hb : givenBack x' = left (givenBack x)) :
    x' = attemptOn c left (Prod.map id left) x := by
  obtain ⟨failure, s⟩ | ⟨a, s⟩ := x <;> obtain ⟨failure', s'⟩ | ⟨a', s'⟩ := x' <;>
    cases hr <;> cases hb <;> rfl

namespace Appraiser

variable {a : Appraiser V E κ} {edge edge' : Edge E}

theorem ask_of_bare (hu : a.evaluator.Unaware) (hb : g'.bare = g.bare)
    (he : edge'.bare = edge.bare) : a.ask g' edge' = a.ask g edge := by
  have hid := congrArg Edge.id he
  change edge'.id = edge.id at hid
  rw [Appraiser.ask, Appraiser.ask, hu hb he, hid]

theorem price_of_bare [Cost κ] (hu : a.evaluator.Unaware) (hb : g'.bare = g.bare)
    (he : edge'.bare = edge.bare) : a.price g' edge' = a.price g edge := by
  have hid := congrArg Edge.id he
  change edge'.id = edge.id at hid
  rw [Appraiser.price, Appraiser.price, ask_of_bare hu hb he, hid]

/-- No failure to price an edge has to do with channels. -/
theorem on_of_price [Cost κ] {a' : Appraiser V E κ} {failure : Failure κ}
    (h : a.price g edge = (.error failure, a')) (c : Channel) : failure.on c = failure := by
  rw [Appraiser.price] at h
  split at h
  · split at h
    · cases h
    · cases h
      rfl
  · cases h
    rfl

end Appraiser

namespace Overlay

variable {o o' : Overlay V E κ}

/-- The same overlay on another channel. -/
def on (c : Channel) (o : Overlay V E κ) : Overlay V E κ := { o with channel := c }

theorem SameLayout.on (h : SameLayout o o') (c : Channel) : SameLayout (o.on c) (o'.on c) :=
  ⟨rfl, h.vertices, h.edges⟩

theorem Alike.of_sameLayout (h : Alike g o g' (o.on c)) (hl : SameLayout o o') :
    Alike g o' g' (o'.on c) :=
  ⟨h.bare, hl.fits h.fits, (hl.on c).fits h.fits', h.listed.of_sameLayout hl, rfl, rfl⟩

/-- An overlay with equal marks that has the same history is the same one on its own channel. -/
theorem Alike.eq_on (h : Alike g o g' o') (ha : o'.appraiser = o.appraiser)
    (hu : o'.used = o.used) : o' = o.on o'.channel := by
  obtain ⟨channel, appraiser, vertices, edges, used⟩ := o
  obtain ⟨channel', appraiser', vertices', edges', used'⟩ := o'
  cases h.vertices
  cases h.edges
  cases ha
  cases hu
  rfl

variable [Cost κ]

theorem reprice_on (hu : o.appraiser.evaluator.Unaware) (hb : g'.bare = g.bare) (i : Nat) :
    (o.on c).reprice g' i = attemptOn c (on c) (on c) (o.reprice g i) := by
  rw [reprice, reprice, show (o.on c).edges[i]? = o.edges[i]? from rfl]
  cases o.edges[i]? with
  | none => rfl
  | some mark =>
    dsimp only
    cases he : g.edges.get? mark.edge with
    | none =>
      rw [Graph.edge_none_of_bare hb he]
      rfl
    | some edge =>
      obtain ⟨edge', he', hbare⟩ := Graph.edge_of_bare hb he
      have hprice : (o.on c).appraiser.price g' edge' = o.appraiser.price g edge :=
        Appraiser.price_of_bare hu hb hbare
      rw [he']
      dsimp only
      rw [hprice]
      cases hp : o.appraiser.price g edge with
      | mk priced appraiser =>
        cases priced with
        | ok cost => rfl
        | error failure =>
          simp only [attemptOn, Appraiser.on_of_price hp c]
          rfl

theorem repriceAll_on (hu : o.appraiser.evaluator.Unaware) (hb : g'.bare = g.bare)
    (is : List Nat) :
    is.foldlM (fun o i => o.reprice g' i) (o.on c) =
      attemptOn c (on c) (on c) (is.foldlM (fun o i => o.reprice g i) o) := by
  induction is generalizing o with
  | nil => rfl
  | cons i is ih =>
    have hevaluator := o.evaluator_reprice g i
    rw [List.foldlM_cons, List.foldlM_cons, reprice_on hu hb]
    cases hr : o.reprice g i with
    | error e => rfl
    | ok o₁ =>
      rw [hr] at hevaluator
      change o₁.appraiser.evaluator = _ at hevaluator
      exact ih (by rw [hevaluator]; exact hu)

/-- A reset comes to the same on every channel. -/
theorem reset_on (hu : o.appraiser.evaluator.Unaware) (hb : g'.bare = g.bare) :
    (o.on c).reset g' = attemptOn c (on c) (on c) (o.reset g) := by
  have hall := repriceAll_on (o := o.clearHops) (c := c) hu hb (List.range o.edges.size)
  rw [reset, reset]
  change (do
    let o ← (List.range o.edges.size).foldlM (fun (o : Overlay V E κ) i => o.reprice g' i)
      (o.clearHops.on c)
    return { o with used := false }) = _
  rw [hall]
  cases (List.range o.edges.size).foldlM (fun o i => o.reprice g i) o.clearHops <;> rfl

theorem beginRun_on (hu : o.appraiser.evaluator.Unaware) (hb : g'.bare = g.bare) :
    (o.on c).beginRun g' = attemptOn c (on c) (on c) (o.beginRun g) := by
  rw [beginRun, beginRun]
  rw [show (o.on c).used = o.used from rfl]
  cases o.used with
  | false => rfl
  | true =>
    rw [if_pos rfl, if_pos rfl, reset_on hu hb]
    cases o.reset g <;> rfl

end Overlay

/-! Mounting -/

namespace Mounting

variable {m m' m₁ m₁' : Mounting V E κ}

/-- What a mounting tells in the end. -/
def told : Except (Failure κ × Mounting V E κ) (Mounting V E κ) →
    Except (Failure κ × Appraiser V E κ) (Overlay V E κ)
  | .ok m => .ok m.overlay
  | .error (failure, m) => .error (failure, m.overlay.appraiser)

/-- Two mountings that have come equally far on graphs that are equal but for what is registered,
the second one on channel `c`. -/
structure Abreast (c : Channel) (m m' : Mounting V E κ) : Prop where
  overlay : m'.overlay = m.overlay.on c
  graph : m'.graph.bare = m.graph.bare

theorem Abreast.addVertices {xs xs' : List (Vertex V)} (h : Abreast c m m')
    (hxs : List.Forall₂ (fun x x' => x'.bare = x.bare) xs xs')
    (hok : xs.foldlM Mounting.addVertex m = .ok m₁)
    (hok' : xs'.foldlM Mounting.addVertex m' = .ok m₁') : Abreast c m₁ m₁' := by
  induction hxs generalizing m m' with
  | nil =>
    cases hok
    cases hok'
    exact h
  | @cons x x' _ _ hx _ ih =>
    obtain ⟨m₂, hadd, hrest⟩ := foldlM_cons_eq_ok hok
    obtain ⟨m₂', hadd', hrest'⟩ := foldlM_cons_eq_ok hok'
    refine ih ⟨?_, ?_⟩ hrest hrest'
    · have hid := congrArg Vertex.id hx
      change x'.id = x.id at hid
      rw [addVertex_eq_ok hadd, addVertex_eq_ok hadd', h.overlay, hid]
      rfl
    · rw [addVertex_eq_ok hadd, addVertex_eq_ok hadd']
      exact (m'.graph.bare_setVertexHandle _ _ _).trans
        (h.graph.trans (m.graph.bare_setVertexHandle _ _ _).symm)

variable [Cost κ]

/-- One edge is refused to both for the same reason, or entered for both. -/
theorem Abreast.addEdge {x x' : Edge E} (h : Abreast c m m') (hx : x'.bare = x.bare)
    (hu : m.overlay.appraiser.evaluator.Unaware)
    (hfree : x.handle? m.overlay.channel = none) (hfree' : x'.handle? c = none) :
    (∃ m₁ m₁', m.addEdge x = .ok m₁ ∧ m'.addEdge x' = .ok m₁' ∧ Abreast c m₁ m₁' ∧
      m₁.overlay.channel = m.overlay.channel ∧
      m₁.overlay.appraiser.evaluator = m.overlay.appraiser.evaluator) ∨
    ∃ failure m₁ m₁', m.addEdge x = .error (failure, m₁) ∧
      m'.addEdge x' = .error (failure.on c, m₁') ∧
      m₁'.overlay.appraiser = m₁.overlay.appraiser := by
  have hprice : m'.overlay.appraiser.price m'.graph x' = m.overlay.appraiser.price m.graph x := by
    rw [h.overlay]
    exact Appraiser.price_of_bare hu h.graph hx
  have hid := congrArg Edge.id hx
  change x'.id = x.id at hid
  have hevaluator := congrArg Appraiser.evaluator (m.overlay.appraiser.snd_price m.graph x)
  have hchannel : m'.overlay.channel = c := by rw [h.overlay]; rfl
  rw [Mounting.addEdge, Mounting.addEdge, hprice]
  cases hp : m.overlay.appraiser.price m.graph x with
  | mk priced appraiser =>
    rw [hp] at hevaluator
    dsimp only
    cases priced with
    | error failure =>
      refine Or.inr ⟨failure, _, { m' with overlay := { m'.overlay with appraiser } }, rfl, ?_, rfl⟩
      rw [Appraiser.on_of_price hp c]
    | ok cost =>
      dsimp only
      rw [hfree, hchannel, hfree']
      refine Or.inl ⟨_, _, rfl, rfl, ⟨?_, ?_⟩, rfl, hevaluator⟩
      · rw [h.overlay, hid]
        rfl
      · exact (m'.graph.bare_setEdgeHandle _ _ _).trans
          (h.graph.trans (m.graph.bare_setEdgeHandle _ _ _).symm)

theorem Abreast.addEdges {xs xs' : List (Edge E)} (h : Abreast c m m')
    (hxs : List.Forall₂ (fun x x' => x'.bare = x.bare) xs xs')
    (hu : m.overlay.appraiser.evaluator.Unaware)
    (hfree : ∀ x ∈ xs, x.handle? m.overlay.channel = none)
    (hfree' : ∀ x ∈ xs', x.handle? c = none) :
    told (xs'.foldlM Mounting.addEdge m') =
      attemptOn c id (Overlay.on c) (told (xs.foldlM Mounting.addEdge m)) := by
  induction hxs generalizing m m' with
  | nil => exact congrArg Except.ok h.overlay
  | @cons x x' xs xs' hx _ ih =>
    rw [List.foldlM_cons, List.foldlM_cons]
    obtain ⟨m₁, m₁', hok, hok', h₁, hchannel, hevaluator⟩ | ⟨failure, m₁, m₁', herr, herr', ha⟩ :=
      h.addEdge hx hu (hfree x List.mem_cons_self) (hfree' x' List.mem_cons_self)
    · rw [hok, hok']
      refine ih h₁ (by rw [hevaluator]; exact hu) (fun y hy => ?_) fun y hy =>
        hfree' y (List.mem_cons_of_mem x' hy)
      rw [hchannel]
      exact hfree y (List.mem_cons_of_mem x hy)
    · rw [herr, herr']
      exact congrArg (fun a => Except.error (failure.on c, a)) ha

end Mounting

theorem forall₂_bare {α : Type} {f : α → α} {xs xs' : List α} (h : xs'.map f = xs.map f) :
    List.Forall₂ (fun x x' => f x' = f x) xs xs' := by
  have heq : List.Forall₂ Eq (xs.map f) (xs'.map f) := by rw [h]; exact List.forall₂_refl _
  refine (List.forall₂_map_right_iff.mp (List.forall₂_map_left_iff.mp heq)).imp fun x x' hx => ?_
  exact hx.symm

/-- Mounting comes to the same on every channel that is vacant. -/
theorem Graph.mount_on [Cost κ] (hb : g'.bare = g.bare) (hv : g.Vacant g.acquireChannel.1)
    (hv' : g'.Vacant g'.acquireChannel.1) {evaluator : Evaluator V E κ}
    (hu : evaluator.Unaware) :
    (g'.mount evaluator).1 =
      attemptOn g'.acquireChannel.1 id (Overlay.on g'.acquireChannel.1) (g.mount evaluator).1 := by
  have htold (k : Graph V E) : (k.mount evaluator).1 =
      Mounting.told (Mounting.begin k evaluator).addAll := by
    rw [Graph.mount]
    cases (Mounting.begin k evaluator).addAll <;> rfl
  obtain ⟨m₁, hok, hedges, hchannel⟩ := Mounting.addVertices_eq_ok
    (m := Mounting.begin g evaluator) hv.handles.1
  obtain ⟨m₁', hok', hedges', _⟩ := Mounting.addVertices_eq_ok
    (m := Mounting.begin g' evaluator) hv'.handles.1
  have hvs := congrArg (fun k : Graph V E => k.vertices.values) hb
  have hes := congrArg (fun k : Graph V E => k.edges.values) hb
  simp only [Graph.bare, Arena.values_map] at hvs hes
  have hbegun : Mounting.Abreast g'.acquireChannel.1 (Mounting.begin g evaluator)
      (Mounting.begin g' evaluator) := ⟨rfl, hb⟩
  have habreast := hbegun.addVertices (forall₂_bare hvs) hok hok'
  have hevaluator := ((Mounting.Entered.begin g evaluator).addVertices hok).evaluator
  have hvalues : List.Forall₂ (fun x x' => x'.bare = x.bare) m₁.graph.edges.values
      m₁'.graph.edges.values := by
    rw [hedges, hedges']
    exact forall₂_bare hes
  have hrest := habreast.addEdges hvalues (by rw [hevaluator]; exact hu)
    (by rw [hedges, hchannel]; exact hv.handles.2) (by rw [hedges']; exact hv'.handles.2)
  rw [htold, htold, Mounting.addAll_eq hok, Mounting.addAll_eq hok']
  exact hrest

end Waymark
