import Mathlib.Data.List.Perm.Subperm
import Waymark.Proofs.Arena.Count
import Waymark.Proofs.Workspace.Issue

namespace Waymark

variable {V E : Type}

namespace Graph

variable {g g' : Graph V E} {l : Ledger V E} {es : List EdgeId} {e : EdgeId}

/-- Both counts are kept right. -/
structure Sized (g : Graph V E) : Prop where
  vertices : g.vertices.Sized
  edges : g.edges.Sized

namespace Sized

theorem removeEdge (h : g.Sized) (hm : g.Mirrors es) {data : E}
    (hr : g.removeEdge e = .ok (data, g')) : g'.Sized := by
  obtain ⟨edge, edges, herase, _, rfl⟩ := removeEdge_eq_ok hr
  exact ⟨(h.vertices.modify _ _).modify _ _, h.edges.erase? hm.edges_valid herase⟩

theorem removeEdges (h : g.Sized) (hm : g.Mirrors es) {order : List EdgeId}
    (hr : g.removeEdges order = .ok g') : g'.Sized ∧ ∃ es', g'.Mirrors es' := by
  induction order generalizing g es with
  | nil =>
    cases hr
    exact ⟨h, es, hm⟩
  | cons e rest ih =>
    obtain ⟨data, g₁, he, hr₁⟩ := removeEdges_cons_eq_ok hr
    obtain ⟨es₁, hm₁⟩ := mirrors_removeEdge hm he
    exact ih (h.removeEdge hm he) hm₁ hr₁

theorem removeVertexBy (h : g.Sized) (hm : g.Mirrors es) {order : List EdgeId} {v : VertexId}
    {data : V} (hr : g.removeVertexBy order v = .ok (data, g')) : g'.Sized := by
  obtain ⟨x, order', _, _, hr⟩ := removeVertexBy_eq_ok hr
  obtain ⟨g₁, y, vertices, ho, herase, _, rfl⟩ := removeVertexAlong_eq_ok hr
  obtain ⟨h₁, es₁, hm₁⟩ := h.removeEdges hm ho
  exact ⟨h₁.vertices.erase? hm₁.vertices_valid herase, h₁.edges⟩

theorem setVertexData (h : g.Sized) {v : VertexId} {data old : V}
    (hs : g.setVertexData v data = .ok (old, g')) : g'.Sized := by
  obtain ⟨_, _, _, rfl⟩ := setVertexData_eq_ok hs
  exact ⟨h.vertices.modify _ _, h.edges⟩

theorem setEdgeData (h : g.Sized) {data old : E} (hs : g.setEdgeData e data = .ok (old, g')) :
    g'.Sized := by
  obtain ⟨_, _, _, rfl⟩ := setEdgeData_eq_ok hs
  exact ⟨h.vertices, h.edges.modify _ _⟩

theorem link (h : g.Sized) {tail head : VertexId} {kind : EdgeKind} {data : E}
    (hl : g.link tail head kind data = .ok (e, g')) : g'.Sized := by
  obtain ⟨_, _, ⟨_, rfl⟩ | ⟨_, hadd⟩⟩ := link_eq_ok hl
  · exact h
  · have hg : g' = (g.addEdge tail head kind data).2 := by rw [hadd]
    rw [hg]
    refine ⟨(h.vertices.modify _ _).modify _ _, ?_⟩
    rw [Mirrors.edges_addEdge]
    exact h.edges.insertWith _

theorem redecorated (h : g.Sized) (hd : g.Redecorated g') : g'.Sized := by
  induction hd with
  | refl => exact h
  | vertex _ v f ih => exact ⟨ih.vertices.modify _ _, ih.edges⟩
  | edge _ e f ih => exact ⟨ih.vertices, ih.edges.modify _ _⟩
  | channels _ table ih => exact ⟨ih.vertices, ih.edges⟩

end Sized

theorem Recorded.sized (h : g.Recorded l) : g.Sized := by
  induction h with
  | empty => exact ⟨Arena.sized_empty, Arena.sized_empty⟩
  | addVertex _ data ih =>
    refine ⟨?_, ih.edges⟩
    rw [Mirrors.vertices_addVertex]
    exact ih.vertices.insertWith _
  | setVertexData _ hs ih => exact ih.setVertexData hs
  | setEdgeData _ hs ih => exact ih.setEdgeData hs
  | link _ hl ih => exact ih.link hl
  | removeEdge h hr ih =>
    obtain ⟨es, hm⟩ := h.mirrors
    exact ih.removeEdge hm hr
  | removeVertex h hr ih =>
    obtain ⟨es, hm⟩ := h.mirrors
    exact ih.removeVertexBy hm hr
  | clear h _ =>
    obtain ⟨es, hm⟩ := h.mirrors
    exact ⟨Arena.sized_clear hm.vertices_valid, Arena.sized_clear hm.edges_valid⟩
  | redecorated _ hd ih => exact ih.redecorated hd

end Graph

/-- The counts of a graph are the numbers of its vertices and edges. -/
theorem Workspace.Reachable.counts {κ : Type} [Cost κ] {w : Workspace V E κ} (h : w.Reachable) :
    w.graph.vertexCount = w.graph.vertices.ids.length ∧
      w.graph.edgeCount = w.graph.edges.ids.length := by
  obtain ⟨l, hl⟩ := h.recorded
  obtain ⟨es, hm⟩ := hl.mirrors
  exact ⟨hl.sized.vertices.size_eq hm.vertices_valid, hl.sized.edges.size_eq hm.edges_valid⟩

/-- Edges that are live and distinct are no more than the graph counts. -/
theorem Graph.Hosts.length_le_edgeCount {κ : Type} [Cost κ] {g : Graph V E} {o : Overlay V E κ}
    (h : g.Hosts o) {es : List EdgeId} (hn : es.Nodup)
    (hlive : ∀ e ∈ es, g.edges.contains e = true) : es.length ≤ g.edgeCount := by
  obtain ⟨w, hw, rfl, _⟩ := h
  rw [hw.counts.2]
  exact (hn.subperm fun e he => Arena.mem_ids.mpr (hlive e he)).length_le

end Waymark
