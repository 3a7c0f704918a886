import Waymark.Proofs.Overlay.Alike
import Waymark.Proofs.Overlay.Entry
import Waymark.Proofs.Overlay.Registration

namespace Waymark

/-- What holds of the state before each step that then cannot fail lets the whole fold succeed. -/
theorem foldlM_eq_ok {ε σ α : Type} {f : σ → α → Except ε σ} {P : σ → Prop} {l : List α}
    (hf : ∀ s, ∀ a ∈ l, P s → ∃ s', f s a = .ok s' ∧ P s') {s : σ} (hs : P s) :
    ∃ s', l.foldlM f s = .ok s' := by
  induction l generalizing s with
  | nil => exact ⟨s, rfl⟩
  | cons a l ih =>
    obtain ⟨s₁, hok, hs₁⟩ := hf s a List.mem_cons_self hs
    rw [List.foldlM_cons, hok]
    exact ih (fun s' a' ha' => hf s' a' (List.mem_cons_of_mem a ha')) hs₁

variable {V E κ : Type} [Cost κ] {g g' : Graph V E} {price : EdgeId → κ}

/-- Asked about an edge of a graph, the evaluator always has a valid answer, whatever is registered
there meanwhile. -/
def Evaluator.Reliable (evaluator : Evaluator V E κ) (g : Graph V E) : Prop :=
  ∀ {e g' edge}, g.Shows e g' edge → ∀ k, ∃ cost, evaluator.answer k g' edge = .ok cost ∧
    Cost.admissible cost = true

theorem Evaluator.Reliable.of_bare {evaluator : Evaluator V E κ} (h : evaluator.Reliable g)
    (hb : g'.bare = g.bare) : evaluator.Reliable g' :=
  fun hs k => h (hs.of_bare hb.symm) k

/-- The evaluator has one valid price for each edge of a graph, however often it is asked and
whatever is registered there meanwhile. -/
structure Evaluator.Quotes (evaluator : Evaluator V E κ) (g : Graph V E) (price : EdgeId → κ) :
    Prop where
  answer : ∀ {e g' edge}, g.Shows e g' edge → ∀ k, evaluator.answer k g' edge = .ok (price e)
  admissible : ∀ {e}, g.edges.contains e = true → Cost.admissible (price e) = true

theorem Evaluator.Quotes.of_bare {evaluator : Evaluator V E κ} (h : evaluator.Quotes g price)
    (hb : g'.bare = g.bare) : evaluator.Quotes g' price where
  answer hs k := h.answer (hs.of_bare hb.symm) k
  admissible he := h.admissible ((Graph.contains_edges_of_bare hb _).symm.trans he)

theorem Evaluator.Quotes.reliable {evaluator : Evaluator V E κ} (h : evaluator.Quotes g price) :
    evaluator.Reliable g := by
  intro e g' edge hs k
  have hlive : g.edges.contains e = true := by
    rw [← Arena.contains_map Edge.bare]
    exact Arena.contains_iff.mpr ⟨_, hs.edge⟩
  exact ⟨price e, h.answer hs k, h.admissible hlive⟩

namespace Appraiser

variable {a : Appraiser V E κ} {e : EdgeId} {edge : Edge E}

theorem price_of_reliable (ha : a.evaluator.Reliable g) (hs : g.Shows e g' edge) :
    ∃ cost, a.price g' edge = (.ok cost, (a.ask g' edge).2) := by
  obtain ⟨cost, hanswer, hvalid⟩ := ha hs a.asked.size
  have hask : a.ask g' edge = (.ok cost, (a.ask g' edge).2) := Prod.ext hanswer rfl
  refine ⟨cost, ?_⟩
  rw [Appraiser.price, hask]
  dsimp only
  rw [if_pos hvalid]

/-- An admitted cost is the price quoted. -/
theorem Answered.eq_price {k : Nat} {cost : κ} (h : a.Answered g k e cost)
    (hq : a.evaluator.Quotes g price) : cost = price e := by
  obtain ⟨g', edge, hs, hanswer⟩ := h.answer
  rw [hq.answer hs] at hanswer
  exact (Except.ok.inj hanswer).symm

end Appraiser

/-! Mounting -/

namespace Mounting

variable {m : Mounting V E κ} {evaluator : Evaluator V E κ} {vs : List VertexId}
  {es : List EdgeId}

theorem Entered.addEdges_of_reliable (h : Entered g evaluator vs es m)
    (he : evaluator.Reliable g) {xs : List (Edge E)}
    (hxs : ∀ x ∈ xs, g.bare.edges.get? x.id = some x.bare)
    (hfree : ∀ x ∈ xs, x.handle? m.overlay.channel = none) :
    ∃ m', xs.foldlM Mounting.addEdge m = .ok m' := by
  refine foldlM_eq_ok (P := fun m' => m'.overlay.channel = m.overlay.channel ∧
    ∃ es', Entered g evaluator vs es' m') (fun s x hx hwhole => ?_) ⟨rfl, es, h⟩
  obtain ⟨hc, es', hs⟩ := hwhole
  obtain ⟨cost, hprice⟩ := Appraiser.price_of_reliable (a := s.overlay.appraiser)
    (by rw [hs.evaluator]; exact he) ⟨hs.bare, hxs x hx⟩
  have hnone := hfree x hx
  rw [← hc] at hnone
  have hok : ∃ m₁, s.addEdge x = .ok m₁ := by
    simp [Mounting.addEdge, hprice, hnone]
  obtain ⟨m₁, hok⟩ := hok
  refine ⟨m₁, hok, ?_, _, hs.addEdge (hxs x hx) hok⟩
  obtain ⟨appraiser, cost, _, rfl⟩ := addEdge_eq_ok hok
  exact hc

end Mounting

/-- On a vacant channel nothing but its evaluator can keep an overlay from being mounted. -/
theorem Graph.mount_of_reliable {es : List EdgeId} (hm : g.Mirrors es)
    (hv : g.Vacant g.acquireChannel.1) {evaluator : Evaluator V E κ}
    (he : evaluator.Reliable g) : ∃ o g', g.mount evaluator = (.ok o, g') := by
  obtain ⟨m₁, hok, hedges, hchannel⟩ := Mounting.addVertices_eq_ok
    (m := Mounting.begin g evaluator) hv.handles.1
  have hentered := (Mounting.Entered.begin g evaluator).addVertices hok
  obtain ⟨m, hrest⟩ := hentered.addEdges_of_reliable he
    (fun x hx => hm.bare_get? hentered.bare hx) (by rw [hedges, hchannel]; exact hv.handles.2)
  exact ⟨m.overlay, m.graph, by rw [Graph.mount, Mounting.addAll_eq hok, hrest]⟩

theorem Graph.mount_of_quotes {es : List EdgeId} (hm : g.Mirrors es)
    (hv : g.Vacant g.acquireChannel.1) {evaluator : Evaluator V E κ}
    (hq : evaluator.Quotes g price) : ∃ o g', g.mount evaluator = (.ok o, g') :=
  mount_of_reliable hm hv hq.reliable

/-! Resetting -/

namespace Overlay

variable {o o' : Overlay V E κ}

theorem reset_of_reliable (hl : o.Listed g) (ha : o.appraiser.evaluator.Reliable g) :
    ∃ o', o.reset g = .ok o' := by
  have hall : ∃ o', (List.range o.edges.size).foldlM (fun o i => o.reprice g i) o.clearHops
      = .ok o' := by
    refine foldlM_eq_ok (P := fun s => SameLayout o s ∧
      s.appraiser.evaluator = o.appraiser.evaluator) (fun s i hi hwhole => ?_)
      ⟨o.sameLayout_clearHops, rfl⟩
    obtain ⟨hlayout, hevaluator⟩ := hwhole
    have hsize : s.edges.size = o.edges.size := by simpa using congrArg Array.size hlayout.edges
    have hlt : i < s.edges.size := hsize.symm ▸ List.mem_range.mp hi
    obtain ⟨edge, he⟩ := (hl.of_sameLayout hlayout).edge_live (Array.getElem_mem hlt)
    obtain ⟨cost, hprice⟩ := Appraiser.price_of_reliable (a := s.appraiser)
      (by rw [hevaluator]; exact ha) (Graph.shows_of_get? rfl he)
    have hmark := Array.getElem?_eq_getElem hlt
    obtain ⟨cost, _, hr⟩ | ⟨failure, hp, _⟩ := reprice_of_live hmark he
    · exact ⟨_, hr, hlayout.trans ⟨rfl, rfl, map_setIfInBounds hmark rfl⟩, hevaluator⟩
    · rw [hprice] at hp
      cases hp
  obtain ⟨o', hall⟩ := hall
  exact ⟨_, by rw [reset, hall]; rfl⟩

theorem beginRun_of_reliable (hl : o.Listed g) (ha : o.appraiser.evaluator.Reliable g) :
    ∃ o', o.beginRun g = .ok o' := by
  rw [beginRun]
  cases o.used with
  | false => exact ⟨_, rfl⟩
  | true =>
    obtain ⟨o₁, hr⟩ := reset_of_reliable hl ha
    rw [if_pos rfl, hr]
    exact ⟨_, rfl⟩

/-- As every search finds it: nothing has been reached or seen, and each edge is at its price. -/
structure Prepared (g : Graph V E) (price : EdgeId → κ) (o : Overlay V E κ) : Prop where
  vertices : o.vertices.toList = g.vertices.ids.map fun v => { vertex := v }
  edges : o.edges.toList = g.edges.ids.map fun e => { edge := e, cost := price e }

omit [Cost κ] in
theorem Blank.prepared (h : o.Blank) (hl : o.Listed g)
    (hcost : ∀ mark ∈ o.edges, mark.cost = price mark.edge) : o.Prepared g price := by
  refine ⟨?_, ?_⟩
  · rw [← hl.vertices, List.map_map]
    refine (List.map_id _).symm.trans (List.map_congr_left fun mark hm => ?_)
    have hhop := h.vertices mark (Array.mem_toList_iff.mp hm)
    obtain ⟨v, hop?⟩ := mark
    exact congrArg (VertexMark.mk v) hhop
  · rw [← hl.edges, List.map_map]
    refine (List.map_id _).symm.trans (List.map_congr_left fun mark hm => ?_)
    have hmem := Array.mem_toList_iff.mp hm
    have hstate := h.edges mark hmem
    have hprice := hcost mark hmem
    obtain ⟨e, cost, state⟩ := mark
    exact congrArg₂ (EdgeMark.mk e) hprice hstate

omit [Cost κ] in
theorem Prepared.alike (h : o.Prepared g price) (h' : o'.Prepared g' price)
    (hb : g'.bare = g.bare) (hf : o.Fits g) (hf' : o'.Fits g') (hl : o.Listed g) :
    Alike g o g' o' := by
  refine ⟨hb, hf, hf', hl, Array.toList_inj.mp ?_, Array.toList_inj.mp ?_⟩
  · rw [h.vertices, h'.vertices, Graph.vertex_ids_of_bare hb]
  · rw [h.edges, h'.edges, Graph.edge_ids_of_bare hb]

end Overlay

end Waymark
