import Waymark.Proofs.Graph.Bare
import Waymark.Proofs.Graph.Registry

namespace Waymark

namespace SlotTable

variable {t t' : SlotTable}

theorem Counts.live_congr (h : t.Counts) (h' : t'.Counts)
    (hc : ∀ i, t'.contains i = t.contains i) : t'.live = t.live := by
  obtain ⟨is, hn, hm, hlive⟩ := h
  rw [hlive]
  exact h'.live_eq hn fun i => by rw [hm, hc]

theorem freeIndex_le {i : Nat} (h : t.contains i = false) : t.freeIndex ≤ i := by
  by_contra hlt
  rw [contains_of_lt_freeIndex (Nat.lt_of_not_le hlt)] at h
  cases h

theorem freeIndex_congr (hc : ∀ i, t'.contains i = t.contains i) : t'.freeIndex = t.freeIndex := by
  apply Nat.le_antisymm
  · exact freeIndex_le (by rw [hc, contains_freeIndex])
  · exact freeIndex_le (by rw [← hc, contains_freeIndex])

/-- Tables that differ at most under one channel do not differ if neither holds anything there. -/
theorem Counts.agree (h : t.Counts) (h' : t'.Counts) {c : Channel}
    (hother : ∀ d : Channel, d ≠ c → t'.get? d.index = t.get? d.index)
    (hc : t.get? c.index = none) (hc' : t'.get? c.index = none) :
    (∀ d : Channel, t'.get? d.index = t.get? d.index) ∧ t'.live = t.live := by
  have hall (d : Channel) : t'.get? d.index = t.get? d.index := by
    by_cases hd : d = c
    · rw [hd, hc, hc']
    · exact hother d hd
  exact ⟨hall, h.live_congr h' fun i => congrArg Option.isSome (hall ⟨i⟩)⟩

end SlotTable

namespace Graph

variable {V E : Type} {g g' : Graph V E} {c : Channel}

/-- `g'` is `g` as far as anyone can see: the elements are the same, and what each of them carries
under any channel; so are all counts and the channel that is acquired next. -/
structure Restored (g g' : Graph V E) : Prop where
  bare : g'.bare = g.bare
  vertex : ∀ {v x}, g.vertex v = .ok x → ∃ y, g'.vertex v = .ok y ∧
    (∀ d, y.handle? d = x.handle? d) ∧ y.slots.live = x.slots.live
  edge : ∀ {e x}, g.edge e = .ok x → ∃ y, g'.edge e = .ok y ∧
    (∀ d, y.handle? d = x.handle? d) ∧ y.slots.live = x.slots.live
  channelInUse : ∀ d, g'.channelInUse d = g.channelInUse d
  channelCount : g'.channelCount = g.channelCount
  acquired : g'.acquireChannel.1 = g.acquireChannel.1

/-- Work under one channel that finds it vacant and leaves it vacant is not to be seen. -/
theorem OnlyOn.restored (ho : OnlyOn c g g') (hb : g'.bare = g.bare) (hg : g.Counted)
    (hg' : g'.Counted) (hv : g.Vacant c) (hv' : g'.Vacant c) : g.Restored g' := by
  have hchannels (d : Channel) : g'.channelInUse d = g.channelInUse d := by
    by_cases hd : d = c
    · rw [hd, hv.free, hv'.free]
    · exact ho.channels hd
  have hcontains (i : Nat) : g'.channels.contains i = g.channels.contains i := hchannels ⟨i⟩
  refine ⟨hb, fun {v x} hx => ?_, fun {e x} hx => ?_, hchannels,
    hg.channels.live_congr hg'.channels hcontains, ?_⟩
  · have hx := vertex_eq_ok.mp hx
    obtain ⟨y, hy, _⟩ := vertex_of_bare hb hx
    refine ⟨y, vertex_eq_ok.mpr hy, (hg.tables.vertex hx).agree (hg'.tables.vertex hy) ?_
      (hv.handle?_vertex hx) (hv'.handle?_vertex hy)⟩
    intro d hd
    have hmap := ho.vertices v hd
    rw [hx, hy] at hmap
    exact Option.some.inj hmap
  · have hx := edge_eq_ok.mp hx
    obtain ⟨y, hy, _⟩ := edge_of_bare hb hx
    refine ⟨y, edge_eq_ok.mpr hy, (hg.tables.edge hx).agree (hg'.tables.edge hy) ?_
      (hv.handle?_edge hx) (hv'.handle?_edge hy)⟩
    intro d hd
    have hmap := ho.edges e hd
    rw [hx, hy] at hmap
    exact Option.some.inj hmap
  · exact congrArg Channel.mk (SlotTable.freeIndex_congr hcontains)

end Graph

end Waymark
