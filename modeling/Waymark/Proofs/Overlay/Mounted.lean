import Waymark.Overlay.Mount
import Waymark.Proofs.Graph.Decoration
import Waymark.Proofs.Overlay.Renewal

namespace Waymark

open Waymark.Graph (OnlyOn)

namespace Overlay

variable {V E κ : Type} {o : Overlay V E κ} {g g' : Graph V E} {c : Channel}

/-- What is registered under another channel does not concern an overlay. -/
theorem Fits.of_onlyOn (h : o.Fits g) (ho : OnlyOn c g g') (hc : o.channel ≠ c) : o.Fits g' where
  vertex {v} hv := by
    have hmap := ho.vertices v hc
    obtain ⟨y, hy⟩ := Arena.contains_iff.mp hv
    rw [hy] at hmap
    obtain ⟨x, hx, hxy⟩ := Option.map_eq_some_iff.mp hmap.symm
    obtain ⟨i, mark, hm⟩ := h.vertex (Arena.contains_iff.mpr ⟨x, hx⟩)
    obtain ⟨⟨z, hz, hi⟩, hrest⟩ := findVertex_eq_ok.mp hm
    rw [hx] at hz
    cases hz
    have hsame : x.handle? o.channel = y.handle? o.channel := hxy
    exact ⟨i, mark, findVertex_eq_ok.mpr ⟨⟨y, hy, by rw [← hsame]; exact hi⟩, hrest⟩⟩
  edge {e} he := by
    have hmap := ho.edges e hc
    obtain ⟨y, hy⟩ := Arena.contains_iff.mp he
    rw [hy] at hmap
    obtain ⟨x, hx, hxy⟩ := Option.map_eq_some_iff.mp hmap.symm
    obtain ⟨i, mark, hm⟩ := h.edge (Arena.contains_iff.mpr ⟨x, hx⟩)
    obtain ⟨⟨z, hz, hi⟩, hrest⟩ := findEdge_eq_ok.mp hm
    rw [hx] at hz
    cases hz
    have hsame : x.handle? o.channel = y.handle? o.channel := hxy
    exact ⟨i, mark, findEdge_eq_ok.mpr ⟨⟨y, hy, by rw [← hsame]; exact hi⟩, hrest⟩⟩

theorem Sound.of_onlyOn [Cost κ] (h : o.Sound g) (ho : OnlyOn c g g') (hc : o.channel ≠ c) :
    o.Sound g' :=
  ⟨h.fits.of_onlyOn ho hc, h.priced, h.tidy⟩

theorem unmount_onlyOn (o : Overlay V E κ) (g : Graph V E) :
    OnlyOn o.channel g (o.unmount g) := by
  simp only [unmount, ← Array.foldl_toList]
  have hv := OnlyOn.foldl (c := o.channel) (f := fun g (mark : VertexMark κ) =>
    g.resetVertexHandle mark.vertex o.channel)
    (fun g mark => g.resetVertexHandle_onlyOn mark.vertex o.channel) o.vertices.toList g
  refine (hv.trans (OnlyOn.foldl (fun g mark => ?_) o.edges.toList _)).trans
    (Graph.releaseChannel_onlyOn _ _)
  exact g.resetEdgeHandle_onlyOn mark.edge o.channel

end Overlay

namespace Mounting

variable {V E κ : Type} {g : Graph V E} {m m' : Mounting V E κ} {c : Channel}

/-- How far a mounting has come: these vertices and edges have their marks. -/
structure Progress [Cost κ] (g : Graph V E) (c : Channel) (vs : VertexId → Prop)
    (es : EdgeId → Prop) (m : Mounting V E κ) : Prop where
  channel : m.overlay.channel = c
  onlyOn : OnlyOn c g m.graph
  held : m.graph.channelInUse c = true
  vertex : ∀ v, vs v → m.graph.vertices.contains v = true →
    ∃ i mark, m.overlay.findVertex m.graph v = .ok (i, mark)
  edge : ∀ e, es e → m.graph.edges.contains e = true →
    ∃ i mark, m.overlay.findEdge m.graph e = .ok (i, mark)
  priced : m.overlay.Priced
  blank : m.overlay.Blank

theorem addVertex_eq_ok {vertex : Vertex V} (h : m.addVertex vertex = .ok m') :
    m' = {
      graph := m.graph.setVertexHandle vertex.id m.overlay.channel (.vertex m.overlay.vertices.size)
      overlay := { m.overlay with
        vertices := m.overlay.vertices.push { vertex := vertex.id } } } := by
  unfold addVertex at h
  dsimp only at h
  split at h
  · cases h
  · exact (Except.ok.inj h).symm

theorem addVertex_eq_error {vertex : Vertex V} {failure : Failure κ}
    (h : m.addVertex vertex = .error (failure, m')) : m' = m := by
  unfold addVertex at h
  dsimp only at h
  split at h
  · cases h
    rfl
  · cases h

theorem handle?_setVertexHandle {v u : VertexId} {x : Vertex V} (h : Handle)
    (hx : g.vertices.get? u = some x) :
    ∃ y, (g.setVertexHandle v c h).vertices.get? u = some y ∧
      y.handle? c = if u = v then some h else x.handle? c := by
  rw [Graph.setVertexHandle]
  rw [Arena.get?_modify_eq_map, hx]
  refine ⟨_, rfl, ?_⟩
  by_cases hu : u = v
  · simp [hu, Vertex.handle?, SlotTable.get?_set]
  · simp [hu]

theorem handle?_setEdgeHandle {e d : EdgeId} {x : Edge E} (h : Handle)
    (hx : g.edges.get? d = some x) :
    ∃ y, (g.setEdgeHandle e c h).edges.get? d = some y ∧
      y.handle? c = if d = e then some h else x.handle? c := by
  rw [Graph.setEdgeHandle]
  rw [Arena.get?_modify_eq_map, hx]
  refine ⟨_, rfl, ?_⟩
  by_cases hd : d = e
  · simp [hd, Edge.handle?, SlotTable.get?_set]
  · simp [hd]

theorem Progress.addVertex [Cost κ] {vs : VertexId → Prop} {es : EdgeId → Prop}
    (h : Progress g c vs es m) {vertex : Vertex V} (hok : m.addVertex vertex = .ok m') :
    Progress g c (fun v => vs v ∨ v = vertex.id) es m' := by
  rw [addVertex_eq_ok hok]
  refine ⟨h.channel, h.onlyOn.trans ?_, h.held, ?_, ?_, h.priced, ?_, h.blank.edges⟩
  · rw [h.channel]
    exact m.graph.setVertexHandle_onlyOn _ _ _
  · intro v hv hlive
    have hlive : m.graph.vertices.contains v = true := by simpa [Graph.setVertexHandle] using hlive
    obtain ⟨x, hx⟩ := Arena.contains_iff.mp hlive
    obtain ⟨y, hy, hh⟩ := handle?_setVertexHandle (v := vertex.id) (c := m.overlay.channel)
      (.vertex m.overlay.vertices.size) hx
    by_cases he : v = vertex.id
    · rw [if_pos he] at hh
      refine ⟨m.overlay.vertices.size, { vertex := vertex.id }, Overlay.findVertex_eq_ok.mpr
        ⟨⟨y, hy, by rw [hh]; rfl⟩, by simp, he.symm⟩⟩
    · rw [if_neg he] at hh
      obtain ⟨i, mark, hm⟩ := h.vertex v (hv.resolve_right he) hlive
      obtain ⟨⟨z, hz, hi⟩, hmark, hmv⟩ := Overlay.findVertex_eq_ok.mp hm
      rw [hx] at hz
      cases hz
      have hlt := (Array.getElem?_eq_some_iff.mp hmark).1
      refine ⟨i, mark, Overlay.findVertex_eq_ok.mpr ⟨⟨y, hy, by rw [hh]; exact hi⟩, ?_, hmv⟩⟩
      rw [Array.getElem?_push, if_neg (by omega)]
      exact hmark
  · intro e he hlive
    obtain ⟨i, mark, hm⟩ := h.edge e he hlive
    exact ⟨i, mark, hm⟩
  · intro mark hm
    obtain hm | rfl := Array.mem_push.mp hm
    · exact h.blank.vertices mark hm
    · rfl

theorem addEdge_eq_ok [Cost κ] {edge : Edge E} (h : m.addEdge edge = .ok m') :
    ∃ appraiser cost, m.overlay.appraiser.price m.graph edge = (.ok cost, appraiser) ∧ m' = {
      graph := m.graph.setEdgeHandle edge.id m.overlay.channel (.edge m.overlay.edges.size)
      overlay := { m.overlay with
        appraiser, edges := m.overlay.edges.push { edge := edge.id, cost } } } := by
  rw [addEdge] at h
  cases hp : m.overlay.appraiser.price m.graph edge with
  | mk priced appraiser =>
    rw [hp] at h
    dsimp only at h
    cases priced with
    | error failure => cases h
    | ok cost =>
      dsimp only at h
      split at h
      · cases h
      · exact ⟨appraiser, cost, rfl, (Except.ok.inj h).symm⟩

theorem addEdge_eq_error [Cost κ] {edge : Edge E} {failure : Failure κ}
    (h : m.addEdge edge = .error (failure, m')) :
    ∃ appraiser, m' = { m with overlay := { m.overlay with appraiser } } := by
  rw [addEdge] at h
  cases hp : m.overlay.appraiser.price m.graph edge with
  | mk priced appraiser =>
    rw [hp] at h
    dsimp only at h
    cases priced with
    | error failure =>
      cases h
      exact ⟨appraiser, rfl⟩
    | ok cost =>
      dsimp only at h
      split at h
      · cases h
        exact ⟨appraiser, rfl⟩
      · cases h

theorem Progress.addEdge [Cost κ] {vs : VertexId → Prop} {es : EdgeId → Prop}
    (h : Progress g c vs es m) {edge : Edge E} (hok : m.addEdge edge = .ok m') :
    Progress g c vs (fun e => es e ∨ e = edge.id) m' := by
  obtain ⟨appraiser, cost, hprice, rfl⟩ := addEdge_eq_ok hok
  refine ⟨h.channel, h.onlyOn.trans ?_, h.held, ?_, ?_, ?_, h.blank.vertices, ?_⟩
  · rw [h.channel]
    exact m.graph.setEdgeHandle_onlyOn _ _ _
  · intro v hv hlive
    obtain ⟨i, mark, hm⟩ := h.vertex v hv hlive
    exact ⟨i, mark, hm⟩
  · intro e he hlive
    have hlive : m.graph.edges.contains e = true := by simpa [Graph.setEdgeHandle] using hlive
    obtain ⟨x, hx⟩ := Arena.contains_iff.mp hlive
    obtain ⟨y, hy, hh⟩ := handle?_setEdgeHandle (e := edge.id) (c := m.overlay.channel)
      (.edge m.overlay.edges.size) hx
    by_cases hd : e = edge.id
    · rw [if_pos hd] at hh
      refine ⟨m.overlay.edges.size, { edge := edge.id, cost }, Overlay.findEdge_eq_ok.mpr
        ⟨⟨y, hy, by rw [hh]; rfl⟩, by simp, hd.symm⟩⟩
    · rw [if_neg hd] at hh
      obtain ⟨i, mark, hm⟩ := h.edge e (he.resolve_right hd) hlive
      obtain ⟨⟨z, hz, hi⟩, hmark, hme⟩ := Overlay.findEdge_eq_ok.mp hm
      rw [hx] at hz
      cases hz
      have hlt := (Array.getElem?_eq_some_iff.mp hmark).1
      refine ⟨i, mark, Overlay.findEdge_eq_ok.mpr ⟨⟨y, hy, by rw [hh]; exact hi⟩, ?_, hme⟩⟩
      rw [Array.getElem?_push, if_neg (by omega)]
      exact hmark
  · intro mark hm
    obtain hm | rfl := Array.mem_push.mp hm
    · exact h.priced mark hm
    · exact Appraiser.admissible_of_price hprice
  · intro mark hm
    obtain hm | rfl := Array.mem_push.mp hm
    · exact h.blank.edges mark hm
    · rfl

theorem Progress.addVertices [Cost κ] {vs : VertexId → Prop} {es : EdgeId → Prop}
    (h : Progress g c vs es m) {xs : List (Vertex V)}
    (hok : xs.foldlM Mounting.addVertex m = .ok m') :
    Progress g c (fun v => vs v ∨ ∃ x ∈ xs, x.id = v) es m' := by
  induction xs generalizing m vs with
  | nil =>
    cases hok
    exact { h with vertex := fun v hv => h.vertex v (hv.resolve_right (by simp)) }
  | cons x xs ih =>
    obtain ⟨m₁, hx, hxs⟩ := foldlM_cons_eq_ok hok
    have hrest := ih (h.addVertex hx) hxs
    refine { hrest with vertex := fun v hv => hrest.vertex v ?_ }
    obtain hv | ⟨y, hy, rfl⟩ := hv
    · exact Or.inl (Or.inl hv)
    · obtain rfl | hy := List.mem_cons.mp hy
      · exact Or.inl (Or.inr rfl)
      · exact Or.inr ⟨y, hy, rfl⟩

theorem Progress.addEdges [Cost κ] {vs : VertexId → Prop} {es : EdgeId → Prop}
    (h : Progress g c vs es m) {xs : List (Edge E)}
    (hok : xs.foldlM Mounting.addEdge m = .ok m') :
    Progress g c vs (fun e => es e ∨ ∃ x ∈ xs, x.id = e) m' := by
  induction xs generalizing m es with
  | nil =>
    cases hok
    exact { h with edge := fun e he => h.edge e (he.resolve_right (by simp)) }
  | cons x xs ih =>
    obtain ⟨m₁, hx, hxs⟩ := foldlM_cons_eq_ok hok
    have hrest := ih (h.addEdge hx) hxs
    refine { hrest with edge := fun e he => hrest.edge e ?_ }
    obtain he | ⟨y, hy, rfl⟩ := he
    · exact Or.inl (Or.inl he)
    · obtain rfl | hy := List.mem_cons.mp hy
      · exact Or.inl (Or.inr rfl)
      · exact Or.inr ⟨y, hy, rfl⟩

theorem addAll_eq [Cost κ]
    (h : m.graph.vertices.values.foldlM Mounting.addVertex m = .ok m') :
    m.addAll = m'.graph.edges.values.foldlM Mounting.addEdge m' := by
  rw [addAll, h]
  rfl

/-- What each mark added preserves is preserved however a mounting ends. -/
theorem leftBehind_addAll [Cost κ] {P : Mounting V E κ → Prop}
    (hvertex : ∀ m (x : Vertex V), P m → P (leftBehind (m.addVertex x)))
    (hedge : ∀ m (x : Edge E), P m → P (leftBehind (m.addEdge x))) (hm : P m) :
    P (leftBehind m.addAll) := by
  have hfirst := leftBehind_foldlM hvertex m.graph.vertices.values hm
  rw [addAll]
  cases hx : m.graph.vertices.values.foldlM Mounting.addVertex m with
  | error e =>
    rw [hx] at hfirst
    exact hfirst
  | ok m₁ =>
    rw [hx] at hfirst
    exact leftBehind_foldlM hedge m₁.graph.edges.values hfirst

/-- However a mounting ends, only its own channel is concerned. -/
theorem onlyOn_addAll [Cost κ] (hm : OnlyOn c g m.graph ∧ m.overlay.channel = c) :
    OnlyOn c g (leftBehind m.addAll).graph ∧ (leftBehind m.addAll).overlay.channel = c := by
  refine leftBehind_addAll (P := fun m => OnlyOn c g m.graph ∧ m.overlay.channel = c) ?_ ?_ hm
  · intro m x hwhole
    obtain ⟨ho, hc⟩ := hwhole
    cases hx : m.addVertex x with
    | error e =>
      obtain ⟨failure, m₁⟩ := e
      rw [leftBehind, addVertex_eq_error hx]
      exact ⟨ho, hc⟩
    | ok m₁ =>
      rw [leftBehind, addVertex_eq_ok hx]
      refine ⟨ho.trans ?_, hc⟩
      rw [hc]
      exact m.graph.setVertexHandle_onlyOn _ _ _
  · intro m x hwhole
    obtain ⟨ho, hc⟩ := hwhole
    cases hx : m.addEdge x with
    | error e =>
      obtain ⟨failure, m₁⟩ := e
      obtain ⟨appraiser, rfl⟩ := addEdge_eq_error hx
      exact ⟨ho, hc⟩
    | ok m₁ =>
      obtain ⟨appraiser, cost, _, rfl⟩ := addEdge_eq_ok hx
      refine ⟨ho.trans ?_, hc⟩
      rw [hc]
      exact m.graph.setEdgeHandle_onlyOn _ _ _

/-- A mounting that succeeds has given every live element a mark. -/
theorem addAll_sound [Cost κ] {es : List EdgeId} (hg : g.Mirrors es)
    (h : Progress g c (fun _ => False) (fun _ => False) m) (hok : m.addAll = .ok m') :
    m'.overlay.Sound m'.graph ∧ m'.graph.channelInUse c = true := by
  rw [addAll] at hok
  cases hx : m.graph.vertices.values.foldlM Mounting.addVertex m with
  | error e =>
    rw [hx] at hok
    cases hok
  | ok m₁ =>
    rw [hx] at hok
    have hp := (h.addVertices hx).addEdges hok
    have hm := h.onlyOn.mirrors hg
    have hm₁ := (h.addVertices hx).onlyOn.mirrors hg
    refine ⟨⟨⟨fun {v} hv => ?_, fun {e} he => ?_⟩, hp.priced, fun _ => hp.blank⟩, hp.held⟩
    · have hlive : m.graph.vertices.contains v = true := by
        rw [h.onlyOn.contains_vertices, ← hp.onlyOn.contains_vertices]
        exact hv
      obtain ⟨x, hget⟩ := Arena.contains_iff.mp hlive
      exact hp.vertex v (Or.inr ⟨x, Arena.mem_values.mpr ⟨v, hget⟩, hm.vertex_id hget⟩) hv
    · have hlive : m₁.graph.edges.contains e = true := by
        rw [(h.addVertices hx).onlyOn.contains_edges, ← hp.onlyOn.contains_edges]
        exact he
      obtain ⟨x, hget⟩ := Arena.contains_iff.mp hlive
      exact hp.edge e (Or.inr ⟨x, Arena.mem_values.mpr ⟨e, hget⟩, hm₁.edge_id hget⟩) he

theorem progress_begin [Cost κ] (g : Graph V E) (evaluator : Evaluator V E κ) :
    Progress g g.acquireChannel.1 (fun _ => False) (fun _ => False) (begin g evaluator) where
  channel := rfl
  onlyOn := g.acquireChannel_onlyOn
  held := g.acquireChannel_free.2
  vertex _ hv := hv.elim
  edge _ he := he.elim
  priced _ hm := by cases Array.not_mem_empty _ hm
  blank := ⟨fun _ hm => (Array.not_mem_empty _ hm).elim,
    fun _ hm => (Array.not_mem_empty _ hm).elim⟩

end Mounting

/-- Either everything was added, or what was is taken away again. -/
theorem Graph.mount_cases {V E κ : Type} [Cost κ] {g g' : Graph V E} {evaluator : Evaluator V E κ}
    {mounted : Except (Failure κ × Appraiser V E κ) (Overlay V E κ)}
    (h : g.mount evaluator = (mounted, g')) :
    (∃ m, (Mounting.begin g evaluator).addAll = .ok m ∧ mounted = .ok m.overlay ∧ g' = m.graph) ∨
      ∃ failure m, (Mounting.begin g evaluator).addAll = .error (failure, m) ∧
        mounted = .error (failure, m.overlay.appraiser) ∧ g' = m.overlay.unmount m.graph := by
  rw [mount] at h
  cases hadd : (Mounting.begin g evaluator).addAll with
  | ok m =>
    rw [hadd] at h
    cases h
    exact Or.inl ⟨m, rfl, rfl, rfl⟩
  | error e =>
    rw [hadd] at h
    cases h
    exact Or.inr ⟨e.1, e.2, rfl, rfl, rfl⟩

/-- An overlay comes with the channel acquired for it, and no other one is concerned. -/
theorem Graph.mount_spec {V E κ : Type} [Cost κ] {g g' : Graph V E} {es : List EdgeId}
    (hg : g.Mirrors es) {evaluator : Evaluator V E κ}
    {mounted : Except (Failure κ × Appraiser V E κ) (Overlay V E κ)}
    (h : g.mount evaluator = (mounted, g')) :
    OnlyOn g.acquireChannel.1 g g' ∧ ∀ o, mounted = .ok o →
      o.channel = g.acquireChannel.1 ∧ o.Sound g' ∧ g'.channelInUse g.acquireChannel.1 = true := by
  have hbegin := Mounting.progress_begin g evaluator
  have hall := Mounting.onlyOn_addAll ⟨hbegin.onlyOn, hbegin.channel⟩
  obtain ⟨m, hadd, rfl, rfl⟩ | ⟨failure, m, hadd, rfl, rfl⟩ := mount_cases h
  · rw [hadd] at hall
    have hsound := Mounting.addAll_sound hg hbegin hadd
    refine ⟨hall.1, fun o ho => ?_⟩
    cases ho
    exact ⟨hall.2, hsound⟩
  · rw [hadd] at hall
    obtain ⟨honly, hchannel⟩ := hall
    change m.overlay.channel = _ at hchannel
    have hundo := m.overlay.unmount_onlyOn m.graph
    rw [hchannel] at hundo
    exact ⟨honly.trans hundo, fun o ho => by cases ho⟩

end Waymark
