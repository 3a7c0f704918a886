import Waymark.Proofs.Graph.Bare

namespace Waymark

/-- The same edge, declared the other way round perhaps if it can be walked both ways. -/
structure Edge.Reoriented {E : Type} (x x' : Edge E) : Prop where
  id : x'.id = x.id
  kind : x'.kind = x.kind
  ends : x'.tail = x.tail ∧ x'.head = x.head ∨
    x.isBidirectional = true ∧ x'.tail = x.head ∧ x'.head = x.tail

namespace Edge.Reoriented

variable {E : Type} {x x' : Edge E}

theorem refl (x : Edge E) : x.Reoriented x := ⟨rfl, rfl, Or.inl ⟨rfl, rfl⟩⟩

instance (x x' : Edge E) : Decidable (x.Reoriented x') :=
  decidable_of_iff (x'.id = x.id ∧ x'.kind = x.kind ∧
    (x'.tail = x.tail ∧ x'.head = x.head ∨
      x.isBidirectional = true ∧ x'.tail = x.head ∧ x'.head = x.tail))
    ⟨fun h => ⟨h.1, h.2.1, h.2.2⟩, fun h => ⟨h.id, h.kind, h.ends⟩⟩

theorem isBidirectional (h : x.Reoriented x') : x'.isBidirectional = x.isBidirectional := by
  rw [Edge.isBidirectional, Edge.isBidirectional, h.kind]

end Edge.Reoriented

namespace Graph

variable {V E : Type} {g g' : Graph V E} {v : VertexId} {e : EdgeId}

/-- The same vertices, with the same lists, and the same edges, but that those which can be walked
both ways may be declared the other way round. What edges hold does not matter, and neither does
what is registered. -/
structure Reoriented (g g' : Graph V E) : Prop where
  vertices : g'.vertices.map Vertex.bare = g.vertices.map Vertex.bare
  edge : ∀ e, Option.Rel Edge.Reoriented (g.edges.get? e) (g'.edges.get? e)

namespace Reoriented

theorem refl (g : Graph V E) : g.Reoriented g := by
  refine ⟨rfl, fun e => ?_⟩
  cases g.edges.get? e with
  | none => exact .none
  | some x => exact .some (.refl x)

/-- It is enough to go through the edges that are there. -/
theorem of_ids (hvertices : g'.vertices.map Vertex.bare = g.vertices.map Vertex.bare)
    (hids : g'.edges.ids = g.edges.ids)
    (h : ∀ e ∈ g.edges.ids, (g.edges.get? e).any fun x => (g'.edges.get? e).any fun x' =>
      x.Reoriented x') : g.Reoriented g' := by
  refine ⟨hvertices, fun e => ?_⟩
  by_cases he : e ∈ g.edges.ids
  · obtain ⟨x, hx, hany⟩ := (Option.any_eq_true _ _).mp (h e he)
    obtain ⟨x', hx', hxx'⟩ := (Option.any_eq_true _ _).mp hany
    rw [hx, hx']
    exact .some (of_decide_eq_true hxx')
  · have hnone : g.edges.get? e = none := by
      simpa [Arena.contains] using fun hlive => he (Arena.mem_ids.mpr hlive)
    have hnone' : g'.edges.get? e = none := by
      rw [← hids] at he
      simpa [Arena.contains] using fun hlive => he (Arena.mem_ids.mpr hlive)
    rw [hnone, hnone']
    exact .none

theorem get?_vertices (h : g.Reoriented g') (v : VertexId) :
    (g'.vertices.get? v).map Vertex.bare = (g.vertices.get? v).map Vertex.bare := by
  rw [← Arena.get?_map, ← Arena.get?_map, h.vertices]

theorem contains_vertices (h : g.Reoriented g') (v : VertexId) :
    g'.vertices.contains v = g.vertices.contains v := by
  rw [← Arena.contains_map Vertex.bare, h.vertices, Arena.contains_map]

theorem get?_edges (h : g.Reoriented g') {x : Edge E} (hx : g.edges.get? e = some x) :
    ∃ x', g'.edges.get? e = some x' ∧ x.Reoriented x' := by
  have hrel := h.edge e
  rw [hx] at hrel
  generalize g'.edges.get? e = found at hrel ⊢
  cases hrel with
  | some hxx' => exact ⟨_, rfl, hxx'⟩

theorem contains_edges (h : g.Reoriented g') (e : EdgeId) :
    g'.edges.contains e = g.edges.contains e := by
  have hrel := h.edge e
  rw [Arena.contains, Arena.contains]
  generalize g.edges.get? e = found at hrel ⊢
  generalize g'.edges.get? e = found' at hrel ⊢
  cases hrel <;> rfl

end Reoriented

end Graph

end Waymark
