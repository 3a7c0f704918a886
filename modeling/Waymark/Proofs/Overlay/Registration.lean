import Waymark.Proofs.Graph.Registry
import Waymark.Proofs.Overlay.Mounted

namespace Waymark

/-- The failure tells of what an element carries under a channel. -/
def Failure.OfRegistry {κ : Type} : Failure κ → Prop
  | alreadyDecorated _ _ => True
  | undecorated _ _ => True
  | _ => False

theorem Appraiser.not_ofRegistry_of_price {V E κ : Type} [Cost κ] {a a' : Appraiser V E κ}
    {g : Graph V E} {edge : Edge E} {failure : Failure κ}
    (h : a.price g edge = (.error failure, a')) : ¬ failure.OfRegistry := by
  rw [price] at h
  split at h
  · split at h
    · cases h
    · cases h
      exact id
  · cases h
    exact id

namespace Overlay

variable {V E κ : Type} {o : Overlay V E κ} {g : Graph V E} {c : Channel}

/-- What carries a handle under the overlay's channel has a mark. -/
structure Covers (o : Overlay V E κ) (g : Graph V E) : Prop where
  vertex : ∀ {v x}, g.vertices.get? v = some x → x.handle? o.channel ≠ none →
    ∃ mark ∈ o.vertices, mark.vertex = v
  edge : ∀ {e x}, g.edges.get? e = some x → x.handle? o.channel ≠ none →
    ∃ mark ∈ o.edges, mark.edge = e

theorem Fits.covers (h : o.Fits g) : o.Covers g where
  vertex {v x} hx _ := by
    obtain ⟨i, mark, hm⟩ := h.vertex (Arena.contains_iff.mpr ⟨x, hx⟩)
    obtain ⟨_, hi, hv⟩ := findVertex_eq_ok.mp hm
    exact ⟨mark, Array.mem_of_getElem? hi, hv⟩
  edge {e x} hx _ := by
    obtain ⟨i, mark, hm⟩ := h.edge (Arena.contains_iff.mpr ⟨x, hx⟩)
    obtain ⟨_, hi, he⟩ := findEdge_eq_ok.mp hm
    exact ⟨mark, Array.mem_of_getElem? hi, he⟩

/-! Unmounting -/

theorem handle?_resetVertexHandles (l : List (VertexMark κ)) (hl : ∀ {v x},
      g.vertices.get? v = some x → x.handle? c ≠ none → ∃ mark ∈ l, mark.vertex = v)
    {v : VertexId} {x : Vertex V}
    (hx : (l.foldl (fun g mark => g.resetVertexHandle mark.vertex c) g).vertices.get? v = some x) :
    x.handle? c = none := by
  induction l generalizing g with
  | nil =>
    by_contra hne
    obtain ⟨mark, hm, _⟩ := hl hx hne
    cases hm
  | cons m l ih =>
    refine ih (fun {u y} hy hne => ?_) hx
    change (g.vertices.modify m.vertex _).get? u = some y at hy
    rw [Arena.get?_modify_eq_map] at hy
    obtain ⟨z, hz, rfl⟩ := Option.map_eq_some_iff.mp hy
    by_cases hu : u = m.vertex
    · simp [hu, Vertex.handle?, SlotTable.get?_reset] at hne
    · rw [if_neg hu] at hne
      obtain ⟨mark, hm, hmu⟩ := hl hz hne
      obtain rfl | hm := List.mem_cons.mp hm
      · exact (hu hmu.symm).elim
      · exact ⟨mark, hm, hmu⟩

theorem handle?_resetEdgeHandles (l : List (EdgeMark κ)) (hl : ∀ {e x},
      g.edges.get? e = some x → x.handle? c ≠ none → ∃ mark ∈ l, mark.edge = e)
    {e : EdgeId} {x : Edge E}
    (hx : (l.foldl (fun g mark => g.resetEdgeHandle mark.edge c) g).edges.get? e = some x) :
    x.handle? c = none := by
  induction l generalizing g with
  | nil =>
    by_contra hne
    obtain ⟨mark, hm, _⟩ := hl hx hne
    cases hm
  | cons m l ih =>
    refine ih (fun {d y} hy hne => ?_) hx
    change (g.edges.modify m.edge _).get? d = some y at hy
    rw [Arena.get?_modify_eq_map] at hy
    obtain ⟨z, hz, rfl⟩ := Option.map_eq_some_iff.mp hy
    by_cases hd : d = m.edge
    · simp [hd, Edge.handle?, SlotTable.get?_reset] at hne
    · rw [if_neg hd] at hne
      obtain ⟨mark, hm, hmd⟩ := hl hz hne
      obtain rfl | hm := List.mem_cons.mp hm
      · exact (hd hmd.symm).elim
      · exact ⟨mark, hm, hmd⟩

theorem edges_resetVertexHandles (l : List (VertexMark κ)) (c : Channel) (g : Graph V E) :
    (l.foldl (fun g mark => g.resetVertexHandle mark.vertex c) g).edges = g.edges := by
  induction l generalizing g with
  | nil => rfl
  | cons m l ih => exact ih _

theorem vertices_resetEdgeHandles (l : List (EdgeMark κ)) (c : Channel) (g : Graph V E) :
    (l.foldl (fun g mark => g.resetEdgeHandle mark.edge c) g).vertices = g.vertices := by
  induction l generalizing g with
  | nil => rfl
  | cons m l ih => exact ih _

/-- An overlay that covers what is registered leaves nothing behind. -/
theorem Covers.unmount (h : o.Covers g) : (o.unmount g).Vacant o.channel := by
  simp only [Overlay.unmount, ← Array.foldl_toList]
  refine ⟨?_, fun {v x} hx => ?_, fun {e x} hx => ?_⟩
  · simp [Graph.channelInUse, Graph.releaseChannel, SlotTable.contains_reset]
  · simp only [Graph.releaseChannel, vertices_resetEdgeHandles] at hx
    refine handle?_resetVertexHandles o.vertices.toList (fun {u y} hy hne => ?_) hx
    obtain ⟨mark, hm, hmu⟩ := h.vertex hy hne
    exact ⟨mark, Array.mem_toList_iff.mpr hm, hmu⟩
  · simp only [Graph.releaseChannel] at hx
    refine handle?_resetEdgeHandles o.edges.toList (fun {d y} hy hne => ?_) hx
    rw [edges_resetVertexHandles] at hy
    obtain ⟨mark, hm, hmd⟩ := h.edge hy hne
    exact ⟨mark, Array.mem_toList_iff.mpr hm, hmd⟩

theorem counted_unmount (o : Overlay V E κ) (h : g.Counted) : (o.unmount g).Counted := by
  simp only [Overlay.unmount, ← Array.foldl_toList]
  refine Graph.Counted.releaseChannel ?_ o.channel
  refine List.foldlRecOn _ _ (List.foldlRecOn _ _ h fun g hg mark _ => ?_) fun g hg mark _ => ?_
  · exact hg.resetVertexHandle mark.vertex o.channel
  · exact hg.resetEdgeHandle mark.edge o.channel

end Overlay

/-! Mounting -/

namespace Mounting

variable {V E κ : Type} {g : Graph V E} {m m' : Mounting V E κ} {c : Channel}

/-- However far a mounting comes, its overlay covers what it has registered. -/
structure Tracked (c : Channel) (m : Mounting V E κ) : Prop where
  channel : m.overlay.channel = c
  counted : m.graph.Counted
  covers : m.overlay.Covers m.graph

theorem Tracked.addVertex (h : Tracked c m) (x : Vertex V) :
    Tracked c (leftBehind (m.addVertex x)) := by
  cases hx : m.addVertex x with
  | error e =>
    obtain ⟨failure, m₁⟩ := e
    rw [leftBehind, addVertex_eq_error hx]
    exact h
  | ok m₁ =>
    rw [leftBehind, addVertex_eq_ok hx]
    refine ⟨h.channel, h.counted.setVertexHandle _ _ _, fun {v y} hy hne => ?_, h.covers.edge⟩
    by_cases hv : v = x.id
    · exact ⟨{ vertex := x.id }, Array.mem_push_self, hv.symm⟩
    · rw [Graph.setVertexHandle, Arena.get?_modify, if_neg hv] at hy
      obtain ⟨mark, hm, hmv⟩ := h.covers.vertex hy hne
      exact ⟨mark, Array.mem_push_of_mem _ hm, hmv⟩

variable [Cost κ]

theorem Tracked.addEdge (h : Tracked c m) (x : Edge E) :
    Tracked c (leftBehind (m.addEdge x)) := by
  cases hx : m.addEdge x with
  | error e =>
    obtain ⟨failure, m₁⟩ := e
    obtain ⟨appraiser, rfl⟩ := addEdge_eq_error hx
    exact ⟨h.channel, h.counted, h.covers.vertex, h.covers.edge⟩
  | ok m₁ =>
    obtain ⟨appraiser, cost, _, rfl⟩ := addEdge_eq_ok hx
    refine ⟨h.channel, h.counted.setEdgeHandle _ _ _, h.covers.vertex, fun {e y} hy hne => ?_⟩
    by_cases he : e = x.id
    · exact ⟨{ edge := x.id, cost }, Array.mem_push_self, he.symm⟩
    · change (m.graph.edges.modify x.id _).get? e = some y at hy
      rw [Arena.get?_modify, if_neg he] at hy
      obtain ⟨mark, hm, hme⟩ := h.covers.edge hy hne
      exact ⟨mark, Array.mem_push_of_mem _ hm, hme⟩

theorem Tracked.addAll (h : Tracked c m) : Tracked c (leftBehind m.addAll) :=
  leftBehind_addAll (fun _ x h => h.addVertex x) (fun _ x h => h.addEdge x) h

omit [Cost κ] in
theorem tracked_begin (hg : g.Counted) (hv : g.Vacant g.acquireChannel.1)
    (evaluator : Evaluator V E κ) : Tracked g.acquireChannel.1 (begin g evaluator) where
  channel := rfl
  counted := hg.acquireChannel
  covers := ⟨fun hx hne => (hne (hv.handle?_vertex hx)).elim,
    fun hx hne => (hne (hv.handle?_edge hx)).elim⟩

omit [Cost κ] in
/-- Vertices without a handle get one, and edges are not concerned. -/
theorem addVertices_eq_ok {xs : List (Vertex V)}
    (hx : ∀ x ∈ xs, x.handle? m.overlay.channel = none) :
    ∃ m', xs.foldlM Mounting.addVertex m = .ok m' ∧ m'.graph.edges = m.graph.edges ∧
      m'.overlay.channel = m.overlay.channel := by
  induction xs generalizing m with
  | nil => exact ⟨m, rfl, rfl, rfl⟩
  | cons x xs ih =>
    have hok : ∃ m₁, m.addVertex x = .ok m₁ := by
      simp [Mounting.addVertex, hx x (.head xs)]
    obtain ⟨m₁, hok⟩ := hok
    have hsame : m₁.graph.edges = m.graph.edges ∧ m₁.overlay.channel = m.overlay.channel := by
      rw [addVertex_eq_ok hok]
      exact ⟨rfl, rfl⟩
    obtain ⟨m₂, hrest, hedges, hchannel⟩ := ih (m := m₁) fun y hy => by
      rw [hsame.2]
      exact hx y (.tail x hy)
    refine ⟨m₂, ?_, hedges.trans hsame.1, hchannel.trans hsame.2⟩
    rw [List.foldlM_cons, hok]
    exact hrest

/-- Of edges without a handle one can only fail to be priced. -/
theorem not_ofRegistry_addEdges {xs : List (Edge E)} {failure : Failure κ}
    (hx : ∀ x ∈ xs, x.handle? m.overlay.channel = none)
    (h : xs.foldlM Mounting.addEdge m = .error (failure, m')) : ¬ failure.OfRegistry := by
  induction xs generalizing m with
  | nil => cases h
  | cons x xs ih =>
    rw [List.foldlM_cons] at h
    cases hadd : m.addEdge x with
    | ok m₁ =>
      have hchannel : m₁.overlay.channel = m.overlay.channel := by
        obtain ⟨appraiser, cost, _, rfl⟩ := addEdge_eq_ok hadd
        rfl
      rw [hadd] at h
      refine ih (fun y hy => ?_) h
      rw [hchannel]
      exact hx y (.tail x hy)
    | error e =>
      rw [hadd] at h
      cases h
      rw [Mounting.addEdge] at hadd
      cases hp : m.overlay.appraiser.price m.graph x with
      | mk priced appraiser =>
        rw [hp] at hadd
        dsimp only at hadd
        cases priced with
        | error failure =>
          cases hadd
          exact Appraiser.not_ofRegistry_of_price hp
        | ok cost => simp [hx x (.head xs)] at hadd

theorem not_ofRegistry_addAll (hv : g.Vacant g.acquireChannel.1) {evaluator : Evaluator V E κ}
    {failure : Failure κ} (h : (begin g evaluator).addAll = .error (failure, m')) :
    ¬ failure.OfRegistry := by
  obtain ⟨m₁, hok, hedges, hchannel⟩ := addVertices_eq_ok (m := begin g evaluator) hv.handles.1
  rw [addAll_eq hok] at h
  refine not_ofRegistry_addEdges ?_ h
  rw [hedges, hchannel]
  exact hv.handles.2

end Mounting

/-- Mounting keeps all counts right. If it fails, which it never does over what is registered, its
channel is vacant again. -/
theorem Graph.mount_registry {V E κ : Type} [Cost κ] {g g' : Graph V E} (hg : g.Counted)
    (hv : g.Vacant g.acquireChannel.1) {evaluator : Evaluator V E κ}
    {mounted : Except (Failure κ × Appraiser V E κ) (Overlay V E κ)}
    (h : g.mount evaluator = (mounted, g')) :
    g'.Counted ∧ ∀ failure appraiser, mounted = .error (failure, appraiser) →
      g'.Vacant g.acquireChannel.1 ∧ ¬ failure.OfRegistry := by
  have htracked := (Mounting.tracked_begin hg hv evaluator).addAll
  obtain ⟨m, hadd, rfl, rfl⟩ | ⟨failure, m, hadd, rfl, rfl⟩ := mount_cases h
  · rw [hadd] at htracked
    exact ⟨htracked.counted, fun failure appraiser he => by cases he⟩
  · rw [hadd] at htracked
    refine ⟨m.overlay.counted_unmount htracked.counted, fun failure appraiser he => ?_⟩
    cases he
    have hvacant := htracked.covers.unmount
    rw [htracked.channel] at hvacant
    exact ⟨hvacant, Mounting.not_ofRegistry_addAll hv hadd⟩

end Waymark
