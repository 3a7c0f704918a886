import Mathlib.Logic.Relation
import Waymark.Proofs.Graph.Bare
import Waymark.Proofs.Graph.Removal
import Waymark.Proofs.Graph.Succession

namespace Waymark

namespace Vertex

variable {V E : Type} {x : Vertex V} {e : EdgeId}

/-! What is taken out of other lists of a vertex leaves the outgoing one as it is. -/

theorem outgoing_detach (he : e ∉ x.outgoing.edges) (u : VertexId) (r : Roles) :
    (x.detach e u r).outgoing.edges = x.outgoing.edges := by
  rw [detach]
  dsimp only
  split
  · exact List.erase_of_not_mem he
  · rfl

theorem outgoing_detachEnds {edge : Edge E} (he : edge.id ∉ x.outgoing.edges) (v : VertexId) :
    (x.detachEnds v edge).outgoing.edges = x.outgoing.edges := by
  have htail : (if v = edge.tail then x.detach edge.id edge.head edge.kind.tailRoles
      else x).outgoing.edges = x.outgoing.edges := by
    split
    · exact outgoing_detach he _ _
    · rfl
  rw [detachEnds]
  split
  · exact (outgoing_detach (by rwa [htail]) _ _).trans htail
  · exact htail

theorem outgoing_without {gone : List EdgeId} (hgone : ∀ e ∈ x.outgoing.edges, e ∉ gone)
    (v : VertexId) : (x.without v gone).outgoing.edges = x.outgoing.edges := by
  refine List.filter_eq_self.mpr fun e he => ?_
  simpa using hgone e he

end Vertex

namespace Graph

variable {V E : Type} {g g' g'' : Graph V E} {a b v : VertexId} {e : EdgeId} {es : List EdgeId}

/-- The edges out of a vertex, in the order in which they are tried. -/
def outgoing? (g : Graph V E) (v : VertexId) : Option (List EdgeId) :=
  (g.vertices.get? v).map fun x => x.outgoing.edges

/-- Whatever can be walked to from `a` looks the same on both graphs: the edges that lead on from
there are the same, in the same order and declared alike. -/
structure SameFrom (g g' : Graph V E) (a : VertexId) : Prop where
  outgoing : ∀ {v path}, g.Walk a v path → g'.outgoing? v = g.outgoing? v
  declaration : ∀ {v b e path}, g.Walk a v path → g.leads v b e = true →
    g'.declaration? e = g.declaration? e

theorem outgoing?_of_bare (h : g'.bare = g.bare) (v : VertexId) :
    g'.outgoing? v = g.outgoing? v := by
  have hget := congrArg (fun k : Graph V E => k.outgoing? v) h
  simp only [bare, outgoing?, Arena.get?_map, Option.map_map] at hget
  exact hget

theorem declaration?_of_bare (h : g'.bare = g.bare) (e : EdgeId) :
    g'.declaration? e = g.declaration? e := by
  have hget := congrArg (fun k : Graph V E => k.declaration? e) h
  simp only [bare, declaration?, Arena.get?_map, Option.map_map] at hget
  exact hget

/-- A vertex that no edge leads to cannot be walked to from another. -/
theorem not_walk_of_heads (hne : v ≠ a) (hv : ∀ edge ∈ g.edges.values, edge.head ≠ v ∧
    (edge.isBidirectional = true → edge.tail ≠ v)) (path : List EdgeId) : ¬ g.Walk a v path := by
  intro hw
  cases hw with
  | start => exact hne rfl
  | @along _ _ _ e _ he =>
    obtain ⟨edge, hedge, _⟩ := leads_iff.mp he
    obtain ⟨hhead, htail⟩ := hv edge (Arena.mem_values.mpr ⟨e, hedge⟩)
    obtain ⟨_, heq⟩ | ⟨hboth, _, heq⟩ := leads_cases hedge he
    · exact hhead heq.symm
    · exact htail hboth heq.symm

namespace SameFrom

theorem refl (g : Graph V E) (a : VertexId) : g.SameFrom g a := ⟨fun _ => rfl, fun _ _ => rfl⟩

theorem walk (h : g.SameFrom g' a) {path : List EdgeId} (hw : g.Walk a v path) :
    g'.Walk a v path := by
  induction hw with
  | start => exact .start
  | along hw he ih => exact ih.along ((leads_of_declaration? (h.declaration hw he) _ _).trans he)

theorem contains (h : g.SameFrom g' a) {path : List EdgeId} (hw : g.Walk a v path) :
    g'.vertices.contains v = g.vertices.contains v := by
  simpa [outgoing?, Arena.contains] using congrArg Option.isSome (h.outgoing hw)

theorem trans (h : g.SameFrom g' a) (h' : g'.SameFrom g'' a) : g.SameFrom g'' a where
  outgoing hw := (h'.outgoing (h.walk hw)).trans (h.outgoing hw)
  declaration hw he := by
    have hsame := h.declaration hw he
    rw [← leads_of_declaration? hsame] at he
    exact (h'.declaration (h.walk hw) he).trans hsame

theorem of_bare (h : g'.bare = g.bare) (a : VertexId) : g.SameFrom g' a :=
  ⟨fun _ => outgoing?_of_bare h _, fun _ _ => declaration?_of_bare h _⟩

/-- Edges that are out of sight can go. -/
theorem of_removeEdge (hm : g.Mirrors es) {data : E} (hr : g.removeEdge e = .ok (data, g'))
    (haway : ∀ v x path, g.Walk a v path → g.vertex v = .ok x → e ∉ x.outgoing.edges) :
    g.SameFrom g' a := by
  obtain ⟨edge, _, herase, _⟩ := removeEdge_eq_ok hr
  have hedge := Arena.erase?_eq_some herase
  obtain ⟨g₁, hok, _, hvertices, hedges⟩ := hm.removeEdge hedge
  rw [hok] at hr
  cases hr
  refine ⟨fun {v path} hw => ?_, fun {v b d path} hw hl => declaration?_of_get? ?_⟩
  · rw [outgoing?, outgoing?, hvertices]
    cases hx : g.vertices.get? v with
    | none => rfl
    | some x =>
      refine congrArg some (Vertex.outgoing_detachEnds ?_ v)
      rw [hm.edge_id hedge]
      exact haway v x path hw (vertex_eq_ok.mpr hx)
  · rw [hedges, if_neg]
    intro hde
    obtain ⟨x, hx⟩ := Arena.contains_iff.mp (hm.live_of_leads hl).1
    refine haway v x path hw (vertex_eq_ok.mpr hx) ?_
    rw [← hde, hm.mem_outgoing hx]
    exact ⟨b, hl⟩

/-- So can a vertex with all its edges. -/
theorem of_removeVertexBy (hm : g.Mirrors es) {order : List EdgeId} {data : V}
    (hr : g.removeVertexBy order v = .ok (data, g')) (haway : ∀ path, ¬ g.Walk a v path) :
    g.SameFrom g' a := by
  obtain ⟨x, order', hx, hperm, hr⟩ := removeVertexBy_eq_ok hr
  have hx := vertex_eq_ok.mp hx
  obtain ⟨hvertices, _⟩ := hm.removeVertexAlong_eq hx hperm hr
  obtain ⟨g₁, hok, _, hedges⟩ := hm.removeVertexAlong hx hperm
  rw [hok] at hr
  cases hr
  have hgone {u b : VertexId} {d : EdgeId} {path : List EdgeId} (hw : g.Walk a u path)
      (hl : g.leads u b d = true) : d ∉ x.incident := by
    rw [hm.mem_incident hx]
    intro hends
    obtain ⟨edge, hedge, hv⟩ := hends
    have hv' : v = u ∨ v = b := by
      obtain ⟨rfl, rfl⟩ | ⟨_, rfl, rfl⟩ := leads_cases hedge hl
      · exact hv.imp Eq.symm Eq.symm
      · exact hv.symm.imp Eq.symm Eq.symm
    obtain rfl | rfl := hv'
    · exact haway _ hw
    · exact haway _ (hw.along hl)
  refine ⟨fun {u path} hw => ?_, fun {u b d path} hw hl => declaration?_of_get? ?_⟩
  · have hu : u ≠ v := by
      intro huv
      rw [huv] at hw
      exact haway path hw
    rw [outgoing?, outgoing?, hvertices, if_neg hu]
    cases hy : g.vertices.get? u with
    | none => rfl
    | some y =>
      refine congrArg some (Vertex.outgoing_without (fun d hd => ?_) v)
      obtain ⟨b, hb⟩ := (hm.mem_outgoing hy).mp hd
      exact hgone hw hb
  · rw [hedges, if_neg]
    intro hd
    exact hgone hw hl (hperm.mem_iff.mp hd)

end SameFrom

/-- Takes out of a graph what cannot be walked to from `a`: a vertex other than `b`, or an edge that
leads on from no vertex that can be walked to. -/
inductive Prunes (a b : VertexId) (g : Graph V E) : Graph V E → Prop
  | vertex {g' : Graph V E} {order : List EdgeId} {v : VertexId} {data : V}
    (hr : g.removeVertexBy order v = .ok (data, g')) (hb : v ≠ b)
    (haway : ∀ path, ¬ g.Walk a v path) : Prunes a b g g'
  | edge {g' : Graph V E} {e : EdgeId} {data : E} (hr : g.removeEdge e = .ok (data, g'))
    (haway : ∀ v x path, g.Walk a v path → g.vertex v = .ok x → e ∉ x.outgoing.edges) :
    Prunes a b g g'

namespace Prunes

theorem edited (h : Prunes a b g g') : g.Edited g' := by
  cases h with
  | vertex hr => exact .removeVertex hr
  | edge hr => exact .removeEdge hr

theorem sameFrom (h : Prunes a b g g') (hm : g.Mirrors es) : g.SameFrom g' a := by
  cases h with
  | vertex hr _ haway => exact .of_removeVertexBy hm hr haway
  | edge hr haway => exact .of_removeEdge hm hr haway

theorem contains (h : Prunes a b g g') (hm : g.Mirrors es) :
    g'.vertices.contains b = g.vertices.contains b := by
  cases h with
  | vertex hr hb =>
    obtain ⟨x, order', hx, hperm, hr⟩ := removeVertexBy_eq_ok hr
    obtain ⟨hvertices, _⟩ := hm.removeVertexAlong_eq (vertex_eq_ok.mp hx) hperm hr
    rw [Arena.contains, Arena.contains, hvertices, if_neg hb.symm, Option.isSome_map]
  | edge hr =>
    obtain ⟨edge, _, herase, _⟩ := removeEdge_eq_ok hr
    obtain ⟨g₁, hok, _, hvertices, _⟩ := hm.removeEdge (Arena.erase?_eq_some herase)
    rw [hok] at hr
    cases hr
    rw [Arena.contains, Arena.contains, hvertices, Option.isSome_map]

/-- However often something is taken out, nothing of it was in sight. -/
theorem sameFrom_of_all (h : Relation.ReflTransGen (Prunes a b) g g') (hm : g.Mirrors es) :
    (∃ es', g'.Mirrors es') ∧ g.SameFrom g' a ∧
      g'.vertices.contains b = g.vertices.contains b := by
  induction h with
  | refl => exact ⟨⟨es, hm⟩, .refl g a, rfl⟩
  | tail _ hlast ih =>
    obtain ⟨⟨es', hm'⟩, hsame, hb⟩ := ih
    exact ⟨hlast.edited.mirrors hm', hsame.trans (hlast.sameFrom hm'), (hlast.contains hm').trans hb⟩

end Prunes

end Graph

end Waymark
