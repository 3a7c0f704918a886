import Waymark.Proofs.Graph.Growth

namespace Waymark.Graph

variable {V E : Type} {g g' : Graph V E} {es : List EdgeId}

/-- Removes a vertex after its edges in some order of the caller's. -/
def removeVertexBy (g : Graph V E) (order : List EdgeId) (v : VertexId) :
    Except Missing (V × Graph V E) := do
  let vertex ← g.vertex v
  g.removeVertexAlong (if order.isPerm vertex.incident then order else vertex.incident) v

theorem removeVertexBy_eq_ok {order : List EdgeId} {v : VertexId} {data : V}
    (h : g.removeVertexBy order v = .ok (data, g')) :
    ∃ x order', g.vertex v = .ok x ∧ order'.Perm x.incident ∧
      g.removeVertexAlong order' v = .ok (data, g') := by
  rw [removeVertexBy] at h
  cases hx : g.vertex v with
  | error m =>
    rw [hx] at h
    cases h
  | ok x =>
    simp only [hx, bind, Except.bind] at h
    refine ⟨x, _, rfl, ?_, h⟩
    split
    · exact List.isPerm_iff.mp ‹_›
    · exact List.Perm.refl _

theorem removeEdges_cons_eq_ok {e : EdgeId} {order : List EdgeId}
    (h : g.removeEdges (e :: order) = .ok g') :
    ∃ data g₁, g.removeEdge e = .ok (data, g₁) ∧ g₁.removeEdges order = .ok g' := by
  rw [removeEdges, List.foldlM_cons] at h
  cases he : g.removeEdge e with
  | error m =>
    rw [he] at h
    cases h
  | ok p =>
    rw [he] at h
    exact ⟨p.1, p.2, rfl, h⟩

/-- What an edit that goes through makes of a graph. -/
inductive Edited (g : Graph V E) : Graph V E → Prop
  | addVertex (data : V) : Edited g (g.addVertex data).2
  | addVertices (data : List V) : Edited g (g.addVertices data).2
  | link {g' : Graph V E} {tail head : VertexId} {kind : EdgeKind} {data : E} {e : EdgeId}
    (h : g.link tail head kind data = .ok (e, g')) : Edited g g'
  | removeVertex {g' : Graph V E} {order : List EdgeId} {v : VertexId} {data : V}
    (h : g.removeVertexBy order v = .ok (data, g')) : Edited g g'
  | removeEdge {g' : Graph V E} {e : EdgeId} {data : E} (h : g.removeEdge e = .ok (data, g')) :
    Edited g g'
  | setVertexData {g' : Graph V E} {v : VertexId} {data old : V}
    (h : g.setVertexData v data = .ok (old, g')) : Edited g g'
  | setEdgeData {g' : Graph V E} {e : EdgeId} {data old : E}
    (h : g.setEdgeData e data = .ok (old, g')) : Edited g g'
  | clear : Edited g g.clear

theorem mirrors_removeVertexBy {order : List EdgeId} {v : VertexId} {data : V}
    (h : g.Mirrors es) (hr : g.removeVertexBy order v = .ok (data, g')) :
    ∃ es', g'.Mirrors es' := by
  obtain ⟨x, order', hx, hperm, hr⟩ := removeVertexBy_eq_ok hr
  obtain ⟨g₁, hok, hm, _⟩ := h.removeVertexAlong (vertex_eq_ok.mp hx) hperm
  rw [hok] at hr
  cases hr
  exact ⟨_, hm⟩

theorem mirrors_removeEdge {e : EdgeId} {data : E} (h : g.Mirrors es)
    (hr : g.removeEdge e = .ok (data, g')) : ∃ es', g'.Mirrors es' := by
  obtain ⟨edge, _, herase, _⟩ := removeEdge_eq_ok hr
  obtain ⟨g₁, hok, hm, _⟩ := h.removeEdge (Arena.erase?_eq_some herase)
  rw [hok] at hr
  cases hr
  exact ⟨_, hm⟩

theorem Edited.mirrors (h : g.Edited g') (hm : g.Mirrors es) : ∃ es', g'.Mirrors es' := by
  cases h with
  | addVertex data => exact ⟨es, hm.addVertex data⟩
  | addVertices data => exact ⟨es, hm.addVertices data⟩
  | link h => exact ⟨_, hm.link h⟩
  | removeVertex h => exact mirrors_removeVertexBy hm h
  | removeEdge h => exact mirrors_removeEdge hm h
  | setVertexData h => exact ⟨es, hm.setVertexData h⟩
  | setEdgeData h => exact ⟨es, hm.setEdgeData h⟩
  | clear => exact ⟨[], hm.clear⟩

end Waymark.Graph
