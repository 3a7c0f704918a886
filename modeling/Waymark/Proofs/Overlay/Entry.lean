import Waymark.Proofs.Overlay.Mounted
import Waymark.Proofs.Overlay.Round

namespace Waymark

variable {V E κ : Type} {g g' : Graph V E}

section Ids

variable {es : List EdgeId}

theorem Graph.Mirrors.map_vertex_id (h : g.Mirrors es) :
    g.vertices.values.map Vertex.id = g.vertices.ids := by
  rw [Arena.values, Arena.ids, List.map_map]
  refine List.map_congr_left fun p hp => ?_
  exact h.vertex_id (Arena.mem_toList.mp hp)

theorem Graph.Mirrors.map_edge_id (h : g.Mirrors es) :
    g.edges.values.map Edge.id = g.edges.ids := by
  rw [Arena.values, Arena.ids, List.map_map]
  refine List.map_congr_left fun p hp => ?_
  exact h.edge_id (Arena.mem_toList.mp hp)

theorem Graph.Mirrors.bare_get? (h : g.Mirrors es) (hb : g'.bare = g.bare) {x : Edge E}
    (hx : x ∈ g'.edges.values) : g.bare.edges.get? x.id = some x.bare := by
  obtain ⟨e, he⟩ := Arena.mem_values.mp hx
  rw [← hb, (Graph.mirrors_of_bare hb h).edge_id he]
  simp [Graph.bare, he]

end Ids

namespace Mounting

variable [Cost κ] {evaluator : Evaluator V E κ} {vs : List VertexId} {es : List EdgeId}
  {m m' : Mounting V E κ}

/-- A mounting that succeeds has come through all vertices and then through all edges. -/
theorem addAll_eq_ok (h : m.addAll = .ok m') :
    ∃ m₁, m.graph.vertices.values.foldlM Mounting.addVertex m = .ok m₁ ∧
      m₁.graph.edges.values.foldlM Mounting.addEdge m₁ = .ok m' := by
  rw [Mounting.addAll] at h
  cases hx : m.graph.vertices.values.foldlM Mounting.addVertex m with
  | error e =>
    rw [hx] at h
    cases h
  | ok m₁ =>
    rw [hx] at h
    exact ⟨m₁, rfl, h⟩

/-- What a mounting on `g` has entered so far: marks for these vertices and for these edges, and
with each edge the answer to one question. -/
structure Entered (g : Graph V E) (evaluator : Evaluator V E κ) (vs : List VertexId)
    (es : List EdgeId) (m : Mounting V E κ) : Prop where
  bare : m.graph.bare = g.bare
  evaluator : m.overlay.appraiser.evaluator = evaluator
  vertices : m.overlay.vertices.toList.map VertexMark.vertex = vs
  edges : m.overlay.edges.toList.map EdgeMark.edge = es
  asked : m.overlay.appraiser.asked.size = m.overlay.edges.size
  answered : ∀ {i mark}, m.overlay.edges[i]? = some mark →
    m.overlay.appraiser.Answered g i mark.edge mark.cost

namespace Entered

theorem begin (g : Graph V E) (evaluator : Evaluator V E κ) :
    Entered g evaluator [] [] (Mounting.begin g evaluator) :=
  ⟨rfl, rfl, rfl, rfl, rfl, fun hget => by simp [Mounting.begin] at hget⟩

theorem addVertex (h : Entered g evaluator vs es m) {x : Vertex V} (hok : m.addVertex x = .ok m') :
    Entered g evaluator (vs ++ [x.id]) es m' := by
  rw [addVertex_eq_ok hok]
  refine ⟨(m.graph.bare_setVertexHandle _ _ _).trans h.bare, h.evaluator, ?_, h.edges, h.asked,
    h.answered⟩
  simp [← h.vertices]

theorem addEdge (h : Entered g evaluator vs es m) {x : Edge E}
    (hx : g.bare.edges.get? x.id = some x.bare) (hok : m.addEdge x = .ok m') :
    Entered g evaluator vs (es ++ [x.id]) m' := by
  obtain ⟨appraiser, cost, hp, rfl⟩ := addEdge_eq_ok hok
  have ha : appraiser = (m.overlay.appraiser.ask m.graph x).2 := by
    rw [← Appraiser.snd_price, hp]
  have hanswered := Appraiser.answered_of_price ⟨h.bare, hx⟩ rfl hp
  refine ⟨(m.graph.bare_setEdgeHandle _ _ _).trans h.bare, ?_, h.vertices, ?_, ?_,
    fun {i mark} hget => ?_⟩
  · rw [ha]
    exact h.evaluator
  · simp [← h.edges]
  · rw [ha]
    simp [Appraiser.ask, h.asked]
  · simp only [Array.getElem?_push] at hget
    split at hget
    · cases hget
      rw [‹i = _›, ← h.asked]
      exact hanswered
    · have hcontinues := m.overlay.appraiser.continues_ask m.graph x
      rw [← ha] at hcontinues
      exact (h.answered hget).of_continues hcontinues

theorem addVertices (h : Entered g evaluator vs es m) {xs : List (Vertex V)}
    (hok : xs.foldlM Mounting.addVertex m = .ok m') :
    Entered g evaluator (vs ++ xs.map Vertex.id) es m' := by
  induction xs generalizing m vs with
  | nil =>
    cases hok
    simpa using h
  | cons x xs ih =>
    obtain ⟨m₁, hx, hrest⟩ := foldlM_cons_eq_ok hok
    simpa using ih (h.addVertex hx) hrest

theorem addEdges (h : Entered g evaluator vs es m) {xs : List (Edge E)}
    (hxs : ∀ x ∈ xs, g.bare.edges.get? x.id = some x.bare)
    (hok : xs.foldlM Mounting.addEdge m = .ok m') :
    Entered g evaluator vs (es ++ xs.map Edge.id) m' := by
  induction xs generalizing m es with
  | nil =>
    cases hok
    simpa using h
  | cons x xs ih =>
    obtain ⟨m₁, hx, hrest⟩ := foldlM_cons_eq_ok hok
    have hadd := h.addEdge (hxs x List.mem_cons_self) hx
    simpa using ih hadd (fun y hy => hxs y (List.mem_cons_of_mem x hy)) hrest

/-- A mounting that succeeds enters all elements in slot order. -/
theorem addAll (hm : g.Mirrors es) (hok : (Mounting.begin g evaluator).addAll = .ok m') :
    Entered g evaluator g.vertices.ids g.edges.ids m' := by
  obtain ⟨m₁, hx, hok⟩ := addAll_eq_ok hok
  have hvertices := (Entered.begin g evaluator).addVertices hx
  have hm₁ := Graph.mirrors_of_bare hvertices.bare hm
  have hedges := hvertices.addEdges (fun x hmem => hm.bare_get? hvertices.bare hmem) hok
  rw [hm₁.map_edge_id, Graph.edge_ids_of_bare hvertices.bare] at hedges
  have hids : (Mounting.begin g evaluator).graph.vertices.values.map Vertex.id =
      g.vertices.ids := hm.map_vertex_id
  rw [hids] at hedges
  exact hedges

end Entered

end Mounting

/-- A new overlay has its marks in slot order, each with the answer to the question of its own
number. -/
theorem Graph.mount_entered [Cost κ] {es : List EdgeId} (hm : g.Mirrors es)
    {evaluator : Evaluator V E κ} {o : Overlay V E κ} (h : g.mount evaluator = (.ok o, g')) :
    g'.bare = g.bare ∧ o.Listed g' ∧ o.appraiser.evaluator = evaluator ∧
      ∀ {i mark}, o.edges[i]? = some mark → o.appraiser.Answered g' i mark.edge mark.cost := by
  obtain ⟨m, hadd, ho, rfl⟩ | ⟨failure, m, hadd, ho, rfl⟩ := mount_cases h
  · cases ho
    have hentered := Mounting.Entered.addAll hm hadd
    refine ⟨hentered.bare, ?_, hentered.evaluator,
      fun hget => (hentered.answered hget).of_bare hentered.bare⟩
    exact Overlay.Listed.of_bare ⟨hentered.vertices, hentered.edges⟩ hentered.bare
  · cases ho

end Waymark
