import Waymark.Proofs.Graph.Orientation
import Waymark.Proofs.Search.Orderly

namespace Waymark

namespace Ways

variable {V E κ : Type} [Cost κ] {w w' : Ways κ} {g : Graph V E} {source a b v : VertexId}
  {e : EdgeId} {price : κ}

theorem relax_source (w : Ways κ) (source a : VertexId) (e : EdgeId) (price : κ) :
    w.relax source a source e price = w := by
  rw [relax, if_pos rfl]

/-- Nothing would come of walking back to the source, so that it need not be left out. -/
theorem relaxEnds_eq (w : Ways κ) (source : VertexId) (edge : Edge E) (price : κ) :
    w.relaxEnds source edge price =
      let w' := w.relax source edge.tail edge.head edge.id price
      if edge.isBidirectional then w'.relax source edge.head edge.tail edge.id price else w' := by
  rw [relaxEnds]
  by_cases htail : edge.tail = source
  · simp [htail, relax_source]
  · simp [htail]

/-- No vertex has been reached at a cost below zero. -/
def Nonneg (w : Ways κ) : Prop := ∀ v hop, w v = some hop → 0 ≤ hop.cost

variable [GrowingCost κ]

namespace Nonneg

theorem total? (h : w.Nonneg) {total : κ} (hv : w.total? source v = some total) : 0 ≤ total := by
  by_cases hs : v = source
  · rw [hs, total?_source] at hv
    cases hv
    exact GrowingCost.zero_le_zero
  · rw [total?_of_ne _ hs] at hv
    obtain ⟨hop, hhop, rfl⟩ := Option.map_eq_some_iff.mp hv
    exact h v hop hhop

theorem relaxed (h : w.Nonneg) (hc : 0 ≤ price) (hr : Relaxed source a b e price w w') :
    w'.Nonneg := by
  cases hr with
  | toSource => exact h
  | unreached => exact h
  | known => exact h
  | improved hb ha hlt =>
    intro v hop hv
    obtain ⟨rfl, rfl⟩ | ⟨_, hv⟩ := reach_cases hv
    · exact GrowingCost.add_nonneg (h.total? ha) hc
    · exact h v hop hv

theorem explored (h : w.Nonneg) (hc : 0 ≤ price) (hx : Search.Explored g source e price w w') :
    w'.Nonneg := by
  cases hx with
  | oneWay _ _ hr => exact h.relaxed hc hr
  | bothWays _ _ _ hr hr' => exact (h.relaxed hc hr).relaxed hc hr'

/-- Of the two ends of an edge at most one is reached anew from the other. -/
theorem not_improves_back (h : w.Nonneg) (hc : 0 ≤ price)
    (hi : w.improves source a b price = true) : w.improves source b a price = false := by
  obtain ⟨hb, t, ha, hlt⟩ := improves_iff.mp hi
  refine Bool.eq_false_iff.mpr fun hback => ?_
  obtain ⟨hne, u, hu, hlt'⟩ := improves_iff.mp hback
  have ht₀ := h.total? ha
  have hu₀ := h.total? hu
  rw [total?_of_ne _ hb] at hu
  obtain ⟨hopb, hwb, rfl⟩ := Option.map_eq_some_iff.mp hu
  rw [total?_of_ne _ hne] at ha
  obtain ⟨hopa, hwa, rfl⟩ := Option.map_eq_some_iff.mp ha
  have htc := GrowingCost.le_add_right ht₀ hc
  have hdearer := (GrowingCost.le_total hu₀ (GrowingCost.add_nonneg ht₀ hc)).resolve_left
    (hlt hopb hwb)
  have hle := GrowingCost.le_trans (GrowingCost.le_trans htc hdearer)
    (GrowingCost.le_add_right hu₀ hc)
  exact hlt' hopa hwa hle

/-- From an end that has just been reached anew nothing comes of walking back. -/
theorem relax_back (h : w.Nonneg) (hc : 0 ≤ price) (hi : w.improves source a b price = true)
    (e : EdgeId) :
    (w.relax source a b e price).relax source b a e price = w.relax source a b e price := by
  obtain ⟨hb, t, ha, hlt⟩ := improves_iff.mp hi
  have ht₀ := h.total? ha
  have htc := GrowingCost.le_add_right ht₀ hc
  have hreach := relax_of_improves hi ha e
  refine relax_of_not_improves (Bool.eq_false_iff.mpr fun hback => ?_) e
  rw [hreach] at hback
  obtain ⟨hne, base, hbase, hlt'⟩ := improves_iff.mp hback
  rw [total?_reach_self w hb] at hbase
  cases hbase
  rw [total?_of_ne _ hne] at ha
  obtain ⟨hop, hwa, rfl⟩ := Option.map_eq_some_iff.mp ha
  have hab : a ≠ b := by
    intro heq
    subst heq
    exact hlt hop hwa htc
  have hle := GrowingCost.le_trans htc
    (GrowingCost.le_add_right (GrowingCost.add_nonneg ht₀ hc) hc)
  exact hlt' hop ((w.reach_of_ne hab _).trans hwa) hle

/-- It does not matter from which end an edge is walked first. -/
theorem relax_comm (h : w.Nonneg) (hc : 0 ≤ price) (source a b : VertexId) (e : EdgeId) :
    (w.relax source a b e price).relax source b a e price =
      (w.relax source b a e price).relax source a b e price := by
  cases hab : w.improves source a b price with
  | true =>
    rw [h.relax_back hc hab, relax_of_not_improves (h.not_improves_back hc hab)]
  | false =>
    rw [relax_of_not_improves hab]
    cases hba : w.improves source b a price with
    | true => rw [h.relax_back hc hba]
    | false => rw [relax_of_not_improves hba, relax_of_not_improves hab]

theorem relaxEnds_reoriented (h : w.Nonneg) (hc : 0 ≤ price) {x x' : Edge E}
    (hx : x.Reoriented x') : w.relaxEnds source x' price = w.relaxEnds source x price := by
  rw [relaxEnds_eq, relaxEnds_eq, hx.isBidirectional, hx.id]
  obtain ⟨htail, hhead⟩ | ⟨hboth, htail, hhead⟩ := hx.ends
  · rw [htail, hhead]
  · simp only [htail, hhead, hboth, if_true]
    exact h.relax_comm hc source x.head x.tail x.id

end Nonneg

end Ways

namespace Chart

variable {V E κ : Type} [Cost κ] {g g' : Graph V E} {cost : EdgeId → κ} {source : VertexId}
  {c : Chart κ} {es : List EdgeId} {x x' : Edge E} {e : EdgeId}

theorem expand_reoriented (h : g.Reoriented g') (c : Chart κ) (cost : EdgeId → κ)
    (source v : VertexId) : c.expand g' cost source v = c.expand g cost source v := by
  have hget := h.get?_vertices v
  rw [expand, expand]
  cases hx : g.vertices.get? v with
  | none =>
    have hx' : g'.vertices.get? v = none := by simpa [hx] using hget
    rw [hx']
  | some x =>
    rw [hx, Option.map_some, Option.map_eq_some_iff] at hget
    obtain ⟨x', hx', hbare⟩ := hget
    have hout := congrArg (fun y : Vertex V => y.outgoing.edges) hbare
    change x'.outgoing.edges = x.outgoing.edges at hout
    rw [hx']
    dsimp only
    rw [hout]

/-- At one end of an edge nothing is left to discover, so it does not matter where one begins. -/
theorem expandEnds_reoriented (h : g.Reoriented g') (hg : g.Mirrors es) (hx : x.Reoriented x')
    (hseen : x.isBidirectional = true → ∃ v, (v = x.tail ∨ v = x.head) ∧
      ∀ b d, g.leads v b d = true → c.states d ≠ .unexplored) :
    c.expandEnds g' cost source x' = c.expandEnds g cost source x := by
  rw [expandEnds, expandEnds, hx.isBidirectional]
  simp only [expand_reoriented h]
  obtain ⟨htail, hhead⟩ | ⟨hboth, htail, hhead⟩ := hx.ends
  · rw [htail, hhead]
  · rw [htail, hhead, hboth, if_pos rfl, if_pos rfl]
    obtain ⟨v, rfl | rfl, hseen⟩ := hseen hboth
    · rw [expand_of_seen hg cost source hseen, expand_of_seen hg cost source fun b d hl =>
        c.seen_expand g cost source _ (hseen b d hl)]
    · rw [expand_of_seen hg cost source hseen, expand_of_seen hg cost source fun b d hl =>
        c.seen_expand g cost source _ (hseen b d hl)]

/-- Exploring an edge that has been seen comes to the same on both graphs. -/
theorem explore_reoriented [GrowingCost κ] (h : g.Reoriented g') (hg : g.Mirrors es)
    (hc : ∀ e, 0 ≤ cost e) (hs : c.Spreads g source (fun _ => False)) (hn : c.ways.Nonneg)
    (hlive : g.edges.contains e = true) (hseen : c.states e ≠ .unexplored) :
    c.explore g' cost source e = c.explore g cost source e := by
  obtain ⟨x, hx⟩ := Arena.contains_iff.mp hlive
  obtain ⟨x', hx', hxx'⟩ := h.get?_edges hx
  have hrelax : c.relaxEnds source x' (cost e) = c.relaxEnds source x (cost e) := by
    rw [relaxEnds, hn.relaxEnds_reoriented (hc e) hxx']
    rfl
  rw [explore, explore, hx, hx']
  dsimp only
  rw [hrelax, expandEnds_reoriented h hg hxx']
  intro _
  obtain ⟨v, b, hl, hv⟩ := hs.origin hseen
  refine ⟨v, ?_, fun d f hf => (hs.closed hv hf).resolve_left id⟩
  obtain ⟨htail, _⟩ | ⟨_, hhead, _⟩ := Graph.leads_cases hx hl
  · exact Or.inl htail
  · exact Or.inr hhead

end Chart

end Waymark
