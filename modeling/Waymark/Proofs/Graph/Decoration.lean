import Waymark.Graph.Channel
import Waymark.Proofs.Graph.Mirror

namespace Waymark

namespace SlotTable

theorem get?_freeIndex (t : SlotTable) : t.get? t.freeIndex = none := by
  unfold get? freeIndex
  by_cases h : t.items.findIdx Option.isNone < t.items.size
  · have hnone := Array.findIdx_getElem (w := h)
    rw [Array.getElem?_eq_getElem h]
    simpa using hnone
  · rw [Array.getElem?_eq_none (by omega)]
    rfl

theorem contains_freeIndex (t : SlotTable) : t.contains t.freeIndex = false := by
  rw [contains, get?_freeIndex]
  rfl

theorem contains_set (t : SlotTable) (i : Nat) (h : Handle) (j : Nat) :
    (t.set i h).2.contains j = (decide (j = i) || t.contains j) := by
  rw [contains, get?_set]
  by_cases hj : j = i <;> simp [hj, contains]

theorem contains_reset (t : SlotTable) (i j : Nat) :
    (t.reset i).2.contains j = (decide (j ≠ i) && t.contains j) := by
  rw [contains, get?_reset]
  by_cases hj : j = i <;> simp [hj, contains]

end SlotTable

namespace Graph

variable {V E : Type} {g g' g'' : Graph V E} {c : Channel}

/-- `g'` is `g` but for what is registered under one channel. -/
structure OnlyOn (c : Channel) (g g' : Graph V E) : Prop where
  mirrors : ∀ {es}, g.Mirrors es → g'.Mirrors es
  vertices : ∀ v {d : Channel}, d ≠ c →
    (g'.vertices.get? v).map (·.handle? d) = (g.vertices.get? v).map (·.handle? d)
  edges : ∀ e {d : Channel}, d ≠ c →
    (g'.edges.get? e).map (·.handle? d) = (g.edges.get? e).map (·.handle? d)
  channels : ∀ {d : Channel}, d ≠ c → g'.channelInUse d = g.channelInUse d

namespace OnlyOn

theorem refl (c : Channel) (g : Graph V E) : OnlyOn c g g :=
  ⟨id, fun _ _ _ => rfl, fun _ _ _ => rfl, fun _ => rfl⟩

theorem trans (h : OnlyOn c g g') (h' : OnlyOn c g' g'') : OnlyOn c g g'' where
  mirrors hm := h'.mirrors (h.mirrors hm)
  vertices v _ hd := (h'.vertices v hd).trans (h.vertices v hd)
  edges e _ hd := (h'.edges e hd).trans (h.edges e hd)
  channels hd := (h'.channels hd).trans (h.channels hd)

theorem foldl {α : Type} {f : Graph V E → α → Graph V E} (hf : ∀ g a, OnlyOn c g (f g a))
    (l : List α) (g : Graph V E) : OnlyOn c g (l.foldl f g) := by
  induction l generalizing g with
  | nil => exact refl c g
  | cons a l ih => exact (hf g a).trans (ih (f g a))

theorem contains_vertices (h : OnlyOn c g g') (v : VertexId) :
    g'.vertices.contains v = g.vertices.contains v := by
  have hne : (⟨c.index + 1⟩ : Channel) ≠ c := fun he =>
    Nat.succ_ne_self c.index (congrArg Channel.index he)
  simpa [Arena.contains] using congrArg Option.isSome (h.vertices v hne)

theorem contains_edges (h : OnlyOn c g g') (e : EdgeId) :
    g'.edges.contains e = g.edges.contains e := by
  have hne : (⟨c.index + 1⟩ : Channel) ≠ c := fun he =>
    Nat.succ_ne_self c.index (congrArg Channel.index he)
  simpa [Arena.contains] using congrArg Option.isSome (h.edges e hne)

end OnlyOn

theorem modifyVertex_onlyOn (g : Graph V E) (v : VertexId) {f : SlotTable → SlotTable}
    (hf : ∀ t (d : Channel), d ≠ c → (f t).get? d.index = t.get? d.index) :
    OnlyOn c g { g with vertices := g.vertices.modify v fun x => { x with slots := f x.slots } }
    where
  mirrors h := h.modifyVertex v (fun _ => rfl) fun _ side => by cases side <;> rfl
  vertices w d hd := by
    rw [Arena.get?_modify_eq_map, Option.map_map]
    congr 1
    funext x
    by_cases hw : w = v
    · simpa [hw, Vertex.handle?] using hf x.slots d hd
    · simp [hw]
  edges _ _ _ := rfl
  channels _ := rfl

theorem modifyEdge_onlyOn (g : Graph V E) (e : EdgeId) {f : SlotTable → SlotTable}
    (hf : ∀ t (d : Channel), d ≠ c → (f t).get? d.index = t.get? d.index) :
    OnlyOn c g { g with edges := g.edges.modify e fun x => { x with slots := f x.slots } } where
  mirrors h := h.modifyEdge e (fun _ => rfl) (fun _ => rfl) (fun _ => rfl) fun _ => rfl
  vertices _ _ _ := rfl
  edges w d hd := by
    rw [Arena.get?_modify_eq_map, Option.map_map]
    congr 1
    funext x
    by_cases hw : w = e
    · simpa [hw, Edge.handle?] using hf x.slots d hd
    · simp [hw]
  channels _ := rfl

theorem get?_set_of_ne {d : Channel} (h : d ≠ c) (t : SlotTable) (handle : Handle) :
    (t.set c.index handle).2.get? d.index = t.get? d.index := by
  rw [SlotTable.get?_set, if_neg]
  intro he
  exact h (congrArg Channel.mk he)

theorem get?_reset_of_ne {d : Channel} (h : d ≠ c) (t : SlotTable) :
    (t.reset c.index).2.get? d.index = t.get? d.index := by
  rw [SlotTable.get?_reset, if_neg]
  intro he
  exact h (congrArg Channel.mk he)

theorem setVertexHandle_onlyOn (g : Graph V E) (v : VertexId) (c : Channel) (h : Handle) :
    OnlyOn c g (g.setVertexHandle v c h) :=
  g.modifyVertex_onlyOn v (f := fun t => (t.set c.index h).2) fun t _ hd => get?_set_of_ne hd t h

theorem setEdgeHandle_onlyOn (g : Graph V E) (e : EdgeId) (c : Channel) (h : Handle) :
    OnlyOn c g (g.setEdgeHandle e c h) :=
  g.modifyEdge_onlyOn e (f := fun t => (t.set c.index h).2) fun t _ hd => get?_set_of_ne hd t h

theorem resetVertexHandle_onlyOn (g : Graph V E) (v : VertexId) (c : Channel) :
    OnlyOn c g (g.resetVertexHandle v c) :=
  g.modifyVertex_onlyOn v (f := fun t => (t.reset c.index).2) fun t _ hd => get?_reset_of_ne hd t

theorem resetEdgeHandle_onlyOn (g : Graph V E) (e : EdgeId) (c : Channel) :
    OnlyOn c g (g.resetEdgeHandle e c) :=
  g.modifyEdge_onlyOn e (f := fun t => (t.reset c.index).2) fun t _ hd => get?_reset_of_ne hd t

theorem acquireChannel_onlyOn (g : Graph V E) :
    OnlyOn g.acquireChannel.1 g g.acquireChannel.2 where
  mirrors h := h.withChannels _
  vertices _ _ _ := rfl
  edges _ _ _ := rfl
  channels {d} hd := by
    have hne : d.index ≠ g.channels.freeIndex := fun h => hd (congrArg Channel.mk h)
    simp [channelInUse, acquireChannel, SlotTable.contains_set, hne]

theorem releaseChannel_onlyOn (g : Graph V E) (c : Channel) : OnlyOn c g (g.releaseChannel c) where
  mirrors h := h.withChannels _
  vertices _ _ _ := rfl
  edges _ _ _ := rfl
  channels {d} hd := by
    have hne : d.index ≠ c.index := fun h => hd (congrArg Channel.mk h)
    simp [channelInUse, releaseChannel, SlotTable.contains_reset, hne]

/-- A channel is taken that was not in use. -/
theorem acquireChannel_free (g : Graph V E) :
    g.channelInUse g.acquireChannel.1 = false ∧
      g.acquireChannel.2.channelInUse g.acquireChannel.1 = true := by
  refine ⟨g.channels.contains_freeIndex, ?_⟩
  simp [channelInUse, acquireChannel, SlotTable.contains_set]

end Graph

end Waymark
