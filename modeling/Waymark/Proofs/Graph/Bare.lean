import Waymark.Graph.Channel
import Waymark.Proofs.Arena.Map
import Waymark.Proofs.Graph.Ledger

namespace Waymark

def Vertex.bare {V : Type} (x : Vertex V) : Vertex V := { x with slots := {} }

def Edge.bare {E : Type} (x : Edge E) : Edge E := { x with slots := {} }

namespace Graph

variable {V E : Type} {g g' : Graph V E} {es : List EdgeId}

/-- A graph with nothing registered in it. -/
def bare (g : Graph V E) : Graph V E where
  vertices := g.vertices.map Vertex.bare
  edges := g.edges.map Edge.bare

/-- Registering something is all that tells a graph from a redecorated one. -/
theorem Redecorated.bare_eq (h : g.Redecorated g') : g'.bare = g.bare := by
  induction h with
  | refl => rfl
  | @vertex g₁ _ v f ih =>
    rw [← ih]
    refine congrArg (fun vertices => ({ vertices, edges := _ } : Graph V E)) ?_
    refine Arena.map_modify ?_ g₁.vertices v
    intro x
    rfl
  | @edge g₁ _ e f ih =>
    rw [← ih]
    refine congrArg (fun edges => ({ vertices := _, edges } : Graph V E)) ?_
    refine Arena.map_modify ?_ g₁.edges e
    intro x
    rfl
  | channels _ table ih => exact ih

theorem bare_setVertexHandle (g : Graph V E) (v : VertexId) (c : Channel) (h : Handle) :
    (g.setVertexHandle v c h).bare = g.bare :=
  (Redecorated.refl.vertex v fun t => (t.set c.index h).2).bare_eq

theorem bare_setEdgeHandle (g : Graph V E) (e : EdgeId) (c : Channel) (h : Handle) :
    (g.setEdgeHandle e c h).bare = g.bare :=
  (Redecorated.refl.edge e fun t => (t.set c.index h).2).bare_eq

section SameBare

variable (h : g'.bare = g.bare)

include h

theorem vertex_of_bare {v : VertexId} {x : Vertex V} (hx : g.vertices.get? v = some x) :
    ∃ x', g'.vertices.get? v = some x' ∧ x'.bare = x.bare := by
  have hget := congrArg (fun k : Graph V E => k.vertices.get? v) h
  simp only [bare, Arena.get?_map, hx] at hget
  exact Option.map_eq_some_iff.mp hget

theorem edge_of_bare {e : EdgeId} {x : Edge E} (hx : g.edges.get? e = some x) :
    ∃ x', g'.edges.get? e = some x' ∧ x'.bare = x.bare := by
  have hget := congrArg (fun k : Graph V E => k.edges.get? e) h
  simp only [bare, Arena.get?_map, hx] at hget
  exact Option.map_eq_some_iff.mp hget

theorem contains_vertices_of_bare (v : VertexId) :
    g'.vertices.contains v = g.vertices.contains v := by
  simpa [bare] using congrArg (fun k : Graph V E => k.vertices.contains v) h

theorem contains_edges_of_bare (e : EdgeId) : g'.edges.contains e = g.edges.contains e := by
  simpa [bare] using congrArg (fun k : Graph V E => k.edges.contains e) h

theorem vertex_none_of_bare {v : VertexId} (hv : g.vertices.get? v = none) :
    g'.vertices.get? v = none := by
  have hget := congrArg (fun k : Graph V E => k.vertices.get? v) h
  simpa [bare, hv] using hget

theorem edge_none_of_bare {e : EdgeId} (he : g.edges.get? e = none) : g'.edges.get? e = none := by
  have hget := congrArg (fun k : Graph V E => k.edges.get? e) h
  simpa [bare, he] using hget

theorem vertex_ids_of_bare : g'.vertices.ids = g.vertices.ids := by
  simpa [bare] using congrArg (fun k : Graph V E => k.vertices.ids) h

theorem edge_ids_of_bare : g'.edges.ids = g.edges.ids := by
  simpa [bare] using congrArg (fun k : Graph V E => k.edges.ids) h

theorem sameShape_of_bare : g.SameShape g' where
  vertex {v x'} hx' := by
    obtain ⟨x, hx, hbare⟩ := vertex_of_bare h.symm hx'
    have hid := congrArg Vertex.id hbare.symm
    refine ⟨x, hx, hid, fun side => ?_⟩
    have hlist := congrArg (fun y : Vertex V => y.list side) hbare.symm
    cases side <;> exact hlist
  edge {e x'} hx' := by
    obtain ⟨x, hx, hbare⟩ := edge_of_bare h.symm hx'
    have hid := congrArg Edge.id hbare.symm
    have htail := congrArg Edge.tail hbare.symm
    have hhead := congrArg Edge.head hbare.symm
    have hkind := congrArg Edge.kind hbare.symm
    exact ⟨x, hx, hid, htail, hhead, hkind⟩
  contains_vertex := contains_vertices_of_bare h
  contains_edge := contains_edges_of_bare h

theorem mirrors_of_bare (hm : g.Mirrors es) : g'.Mirrors es := by
  have hvertices := congrArg (fun k : Graph V E => k.vertices.Valid) h
  have hedges := congrArg (fun k : Graph V E => k.edges.Valid) h
  simp only [bare, Arena.valid_map, eq_iff_iff] at hvertices hedges
  exact hm.of_sameShape (sameShape_of_bare h) (hvertices.mpr hm.vertices_valid)
    (hedges.mpr hm.edges_valid)

end SameBare

end Graph

end Waymark
