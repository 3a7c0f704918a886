import Waymark.Proofs.Graph.Decoration
import Waymark.Proofs.Graph.Edit

namespace Waymark

namespace SlotTable

variable {t : SlotTable} {i : Nat}

/-- The number kept is that of the occupied indices. -/
def Counts (t : SlotTable) : Prop :=
  ∃ is : List Nat, is.Nodup ∧ (∀ i, i ∈ is ↔ t.contains i = true) ∧ t.live = is.length

theorem counts_empty : Counts {} :=
  ⟨[], List.nodup_nil, fun i => by simp [contains, get?], rfl⟩

theorem Counts.live_eq (h : t.Counts) {is : List Nat} (hn : is.Nodup)
    (hm : ∀ i, i ∈ is ↔ t.contains i = true) : t.live = is.length := by
  obtain ⟨js, hjs, hmem, hlive⟩ := h
  have hperm : js.Perm is :=
    (List.perm_ext_iff_of_nodup hjs hn).mpr fun i => (hmem i).trans (hm i).symm
  rw [hlive, hperm.length_eq]

theorem Counts.set (h : t.Counts) (i : Nat) (handle : Handle) : (t.set i handle).2.Counts := by
  obtain ⟨is, hn, hm, hlive⟩ := h
  have hset : (t.set i handle).2.live = if t.contains i then t.live else t.live + 1 := rfl
  cases hi : t.contains i with
  | true =>
    refine ⟨is, hn, fun j => ?_, ?_⟩
    · rw [contains_set, hm]
      by_cases hj : j = i <;> simp [hj, hi]
    · rw [hset, hi]
      exact hlive
  | false =>
    have hfresh : i ∉ is := by
      intro hmem
      rw [hm, hi] at hmem
      cases hmem
    refine ⟨i :: is, List.nodup_cons.mpr ⟨hfresh, hn⟩, fun j => ?_, ?_⟩
    · rw [contains_set, List.mem_cons, hm]
      by_cases hj : j = i <;> simp [hj]
    · rw [hset, hi, List.length_cons, ← hlive]
      rfl

theorem Counts.reset (h : t.Counts) (i : Nat) : (t.reset i).2.Counts := by
  obtain ⟨is, hn, hm, hlive⟩ := h
  have hreset : (t.reset i).2.live = if t.contains i then t.live - 1 else t.live := rfl
  refine ⟨is.erase i, hn.erase i, fun j => ?_, ?_⟩
  · rw [contains_reset, hn.mem_erase_iff, hm]
    by_cases hj : j = i <;> simp [hj]
  · rw [hreset, List.length_erase, hlive]
    cases hi : t.contains i with
    | true => rw [if_pos rfl, if_pos ((hm i).mpr hi)]
    | false =>
      have hout : i ∉ is := by
        intro hmem
        rw [hm, hi] at hmem
        cases hmem
      rw [if_neg hout]
      rfl

/-- All indices before the free one are taken. -/
theorem contains_of_lt_freeIndex (h : i < t.freeIndex) : t.contains i = true := by
  have hle : t.freeIndex ≤ t.items.size := Array.findIdx_le_size
  have hlt : i < t.items.size := Nat.lt_of_lt_of_le h hle
  have hsome := Array.not_of_lt_findIdx h
  rw [contains, get?, Array.getElem?_eq_getElem hlt]
  simpa using hsome

end SlotTable

namespace Graph

variable {V E : Type} {g g' : Graph V E} {c d : Channel}

/-- The slot tables of all vertices and edges have a property. -/
structure Tables (P : SlotTable → Prop) (g : Graph V E) : Prop where
  vertex : ∀ {v x}, g.vertices.get? v = some x → P x.slots
  edge : ∀ {e x}, g.edges.get? e = some x → P x.slots

/-- No element carries anything under a channel, and the channel is not in use. -/
structure Vacant (g : Graph V E) (c : Channel) : Prop where
  free : g.channelInUse c = false
  tables : g.Tables fun t => t.get? c.index = none

/-- All tables keep the right number. -/
structure Counted (g : Graph V E) : Prop where
  channels : g.channels.Counts
  tables : g.Tables SlotTable.Counts

/-! Edits -/

section Edits

variable {P : SlotTable → Prop} {es : List EdgeId}

/-- What becomes of the tables in an edit: new elements come with empty ones, the others keep
theirs. -/
structure KeepsTables (g g' : Graph V E) : Prop where
  channels : g'.channels = g.channels
  tables : ∀ {P : SlotTable → Prop}, P {} → g.Tables P → g'.Tables P

theorem KeepsTables.vacant (h : KeepsTables g g') (hg : g.Vacant c) : g'.Vacant c := by
  refine ⟨?_, h.tables rfl hg.tables⟩
  rw [channelInUse]
  rw [h.channels]
  exact hg.free

theorem KeepsTables.counted (h : KeepsTables g g') (hg : g.Counted) : g'.Counted := by
  refine ⟨?_, h.tables SlotTable.counts_empty hg.tables⟩
  rw [h.channels]
  exact hg.channels

theorem KeepsTables.refl (g : Graph V E) : KeepsTables g g := ⟨rfl, fun _ h => h⟩

theorem KeepsTables.trans {g'' : Graph V E} (h : KeepsTables g g') (h' : KeepsTables g' g'') :
    KeepsTables g g'' :=
  ⟨h'.channels.trans h.channels, fun hP hg => h'.tables hP (h.tables hP hg)⟩

theorem keepsTables_addVertex (hg : g.Mirrors es) (data : V) :
    KeepsTables g (g.addVertex data).2 := by
  refine ⟨rfl, fun {P} hP ht => ⟨fun {v x} hx => ?_, ht.edge⟩⟩
  rw [Mirrors.vertices_addVertex, Arena.get?_insertWith hg.vertices_valid] at hx
  split at hx
  · cases hx
    exact hP
  · exact ht.vertex hx

theorem keepsTables_addVertices (hg : g.Mirrors es) (data : List V) :
    KeepsTables g (g.addVertices data).2 := by
  induction data generalizing g with
  | nil => exact .refl g
  | cons d rest ih => exact (keepsTables_addVertex hg d).trans (ih (hg.addVertex d))

theorem slots_attachEnds (x : Vertex V) (v : VertexId) (edge : Edge E) :
    (x.attachEnds v edge).slots = x.slots := by
  rw [Vertex.attachEnds]
  split <;> split <;> rfl

theorem keepsTables_addEdge (hg : g.Mirrors es) (tail head : VertexId) (kind : EdgeKind)
    (data : E) : KeepsTables g (g.addEdge tail head kind data).2 := by
  refine ⟨rfl, fun {P} hP ht => ⟨fun {v x} hx => ?_, fun {e x} hx => ?_⟩⟩
  · rw [Mirrors.get?_addEdge] at hx
    obtain ⟨y, hy, rfl⟩ := Option.map_eq_some_iff.mp hx
    rw [slots_attachEnds]
    exact ht.vertex hy
  · rw [Mirrors.edges_addEdge, Arena.get?_insertWith hg.edges_valid] at hx
    split at hx
    · cases hx
      exact hP
    · exact ht.edge hx

theorem keepsTables_link (hg : g.Mirrors es) {tail head : VertexId} {kind : EdgeKind} {data : E}
    {e : EdgeId} (hl : g.link tail head kind data = .ok (e, g')) : KeepsTables g g' := by
  obtain ⟨_, _, ⟨_, rfl⟩ | ⟨_, hadd⟩⟩ := link_eq_ok hl
  · exact .refl _
  · have hkeeps := keepsTables_addEdge hg tail head kind data
    rw [hadd] at hkeeps
    exact hkeeps

theorem keepsTables_removeEdge {e : EdgeId} {data : E} (hr : g.removeEdge e = .ok (data, g')) :
    KeepsTables g g' := by
  obtain ⟨edge, edges, herase, _, rfl⟩ := removeEdge_eq_ok hr
  refine ⟨rfl, fun {P} _ ht => ⟨fun {v x} hx => ?_, fun {d x} hx => ?_⟩⟩
  · rw [Arena.get?_modify_modify] at hx
    obtain ⟨y, hy, rfl⟩ := Option.map_eq_some_iff.mp hx
    have hslots := ht.vertex hy
    split <;> split <;> exact hslots
  · rw [Arena.get?_erase? herase] at hx
    split at hx
    · cases hx
    · exact ht.edge hx

theorem keepsTables_removeEdges {order : List EdgeId} (hr : g.removeEdges order = .ok g') :
    KeepsTables g g' := by
  induction order generalizing g with
  | nil =>
    cases hr
    exact .refl g'
  | cons e rest ih =>
    obtain ⟨data, g₁, he, hrest⟩ := removeEdges_cons_eq_ok hr
    exact (keepsTables_removeEdge he).trans (ih hrest)

theorem keepsTables_removeVertexAlong {order : List EdgeId} {v : VertexId} {data : V}
    (hr : g.removeVertexAlong order v = .ok (data, g')) : KeepsTables g g' := by
  obtain ⟨g₁, x, vertices, ho, herase, _, rfl⟩ := removeVertexAlong_eq_ok hr
  refine (keepsTables_removeEdges ho).trans ⟨rfl, fun {P} _ ht => ⟨fun {u y} hy => ?_, ht.edge⟩⟩
  rw [Arena.get?_erase? herase] at hy
  split at hy
  · cases hy
  · exact ht.vertex hy

theorem keepsTables_clear (g : Graph V E) : KeepsTables g g.clear := by
  refine ⟨rfl, fun {P} _ _ => ⟨fun {v x} hx => ?_, fun {e x} hx => ?_⟩⟩
  · simp [clear, Arena.get?_clear] at hx
  · simp [clear, Arena.get?_clear] at hx

theorem keepsTables_setVertexData {v : VertexId} {data old : V}
    (hs : g.setVertexData v data = .ok (old, g')) : KeepsTables g g' := by
  obtain ⟨_, _, _, rfl⟩ := setVertexData_eq_ok hs
  refine ⟨rfl, fun {P} _ ht => ⟨fun {u y} hy => ?_, ht.edge⟩⟩
  rw [Arena.get?_modify_eq_map] at hy
  obtain ⟨z, hz, rfl⟩ := Option.map_eq_some_iff.mp hy
  have hslots := ht.vertex hz
  split <;> exact hslots

theorem keepsTables_setEdgeData {e : EdgeId} {data old : E}
    (hs : g.setEdgeData e data = .ok (old, g')) : KeepsTables g g' := by
  obtain ⟨_, _, _, rfl⟩ := setEdgeData_eq_ok hs
  refine ⟨rfl, fun {P} _ ht => ⟨ht.vertex, fun {d y} hy => ?_⟩⟩
  rw [Arena.get?_modify_eq_map] at hy
  obtain ⟨z, hz, rfl⟩ := Option.map_eq_some_iff.mp hy
  have hslots := ht.edge hz
  split <;> exact hslots

theorem Edited.keepsTables (h : g.Edited g') (hg : g.Mirrors es) : KeepsTables g g' := by
  cases h with
  | addVertex data => exact keepsTables_addVertex hg data
  | addVertices data => exact keepsTables_addVertices hg data
  | link h => exact keepsTables_link hg h
  | removeVertex h =>
    obtain ⟨_, _, _, _, hr⟩ := removeVertexBy_eq_ok h
    exact keepsTables_removeVertexAlong hr
  | removeEdge h => exact keepsTables_removeEdge h
  | setVertexData h => exact keepsTables_setVertexData h
  | setEdgeData h => exact keepsTables_setEdgeData h
  | clear => exact keepsTables_clear g

end Edits

/-! Handles -/

theorem Tables.modifyVertex {P : SlotTable → Prop} (h : g.Tables P) (v : VertexId)
    {f : SlotTable → SlotTable} (hf : ∀ t, P t → P (f t)) :
    Tables P { g with vertices := g.vertices.modify v fun x => { x with slots := f x.slots } } := by
  refine ⟨fun {u x} hx => ?_, h.edge⟩
  rw [Arena.get?_modify_eq_map] at hx
  obtain ⟨y, hy, rfl⟩ := Option.map_eq_some_iff.mp hx
  have hslots := h.vertex hy
  split
  · exact hf _ hslots
  · exact hslots

theorem Tables.modifyEdge {P : SlotTable → Prop} (h : g.Tables P) (e : EdgeId)
    {f : SlotTable → SlotTable} (hf : ∀ t, P t → P (f t)) :
    Tables P { g with edges := g.edges.modify e fun x => { x with slots := f x.slots } } := by
  refine ⟨h.vertex, fun {d x} hx => ?_⟩
  rw [Arena.get?_modify_eq_map] at hx
  obtain ⟨y, hy, rfl⟩ := Option.map_eq_some_iff.mp hx
  have hslots := h.edge hy
  split
  · exact hf _ hslots
  · exact hslots

namespace Counted

theorem setVertexHandle (h : g.Counted) (v : VertexId) (c : Channel) (handle : Handle) :
    (g.setVertexHandle v c handle).Counted :=
  ⟨h.channels, h.tables.modifyVertex v fun _ ht => ht.set c.index handle⟩

theorem setEdgeHandle (h : g.Counted) (e : EdgeId) (c : Channel) (handle : Handle) :
    (g.setEdgeHandle e c handle).Counted :=
  ⟨h.channels, h.tables.modifyEdge e fun _ ht => ht.set c.index handle⟩

theorem resetVertexHandle (h : g.Counted) (v : VertexId) (c : Channel) :
    (g.resetVertexHandle v c).Counted :=
  ⟨h.channels, h.tables.modifyVertex v fun _ ht => ht.reset c.index⟩

theorem resetEdgeHandle (h : g.Counted) (e : EdgeId) (c : Channel) :
    (g.resetEdgeHandle e c).Counted :=
  ⟨h.channels, h.tables.modifyEdge e fun _ ht => ht.reset c.index⟩

theorem acquireChannel (h : g.Counted) : g.acquireChannel.2.Counted :=
  ⟨h.channels.set _ _, h.tables.vertex, h.tables.edge⟩

theorem releaseChannel (h : g.Counted) (c : Channel) : (g.releaseChannel c).Counted :=
  ⟨h.channels.reset _, h.tables.vertex, h.tables.edge⟩

theorem empty : Counted ({} : Graph V E) where
  channels := SlotTable.counts_empty
  tables := ⟨fun h => by simp [Arena.get?] at h, fun h => by simp [Arena.get?] at h⟩

end Counted

theorem Vacant.empty (c : Channel) : Vacant ({} : Graph V E) c where
  free := by simp [channelInUse, SlotTable.contains, SlotTable.get?]
  tables := ⟨fun h => by simp [Arena.get?] at h, fun h => by simp [Arena.get?] at h⟩

theorem Vacant.handle?_vertex (h : g.Vacant c) {v : VertexId} {x : Vertex V}
    (hx : g.vertices.get? v = some x) : x.handle? c = none := h.tables.vertex hx

theorem Vacant.handle?_edge (h : g.Vacant c) {e : EdgeId} {x : Edge E}
    (hx : g.edges.get? e = some x) : x.handle? c = none := h.tables.edge hx

theorem Vacant.handles (h : g.Vacant c) : (∀ x ∈ g.vertices.values, x.handle? c = none) ∧
    ∀ x ∈ g.edges.values, x.handle? c = none := by
  refine ⟨fun x hx => ?_, fun x hx => ?_⟩
  · obtain ⟨v, hget⟩ := Arena.mem_values.mp hx
    exact h.handle?_vertex hget
  · obtain ⟨e, hget⟩ := Arena.mem_values.mp hx
    exact h.handle?_edge hget

/-- A channel stays vacant when another is used. -/
theorem Vacant.of_onlyOn (h : g.Vacant d) (ho : OnlyOn c g g') (hd : d ≠ c) : g'.Vacant d := by
  refine ⟨(ho.channels hd).trans h.free, fun {v x} hx => ?_, fun {e x} hx => ?_⟩
  · have hmap := ho.vertices v hd
    rw [hx] at hmap
    obtain ⟨y, hy, hyx⟩ := Option.map_eq_some_iff.mp hmap.symm
    exact hyx.symm.trans (h.handle?_vertex hy)
  · have hmap := ho.edges e hd
    rw [hx] at hmap
    obtain ⟨y, hy, hyx⟩ := Option.map_eq_some_iff.mp hmap.symm
    exact hyx.symm.trans (h.handle?_edge hy)

end Graph

end Waymark
