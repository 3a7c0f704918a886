import Mathlib.Logic.Function.Basic
import Waymark.Overlay.Lemmas
import Waymark.Proofs.Arena.Occupancy
import Waymark.Proofs.Cost.Lawful

namespace Waymark.Overlay

variable {V E κ : Type} {o : Overlay V E κ} {g : Graph V E}

theorem findVertex_eq_ok {v : VertexId} {i : Nat} {mark : VertexMark κ} :
    o.findVertex g v = .ok (i, mark) ↔
      (∃ x, g.vertices.get? v = some x ∧ (x.handle? o.channel).bind Handle.vertex? = some i) ∧
        o.vertices[i]? = some mark ∧ mark.vertex = v := by
  constructor
  · intro h
    rw [findVertex] at h
    split at h
    · cases h
    · rename_i x hx
      split at h
      · cases h
      · rename_i j hj
        split at h
        · rename_i m hm
          split at h
          · cases h
            exact ⟨⟨x, hx, hj⟩, hm, ‹_›⟩
          · cases h
        · cases h
  · intro hwhole
    obtain ⟨⟨x, hx, hi⟩, hm, hv⟩ := hwhole
    simp [findVertex, hx, hi, hm, hv]

theorem findEdge_eq_ok {e : EdgeId} {i : Nat} {mark : EdgeMark κ} :
    o.findEdge g e = .ok (i, mark) ↔
      (∃ x, g.edges.get? e = some x ∧ (x.handle? o.channel).bind Handle.edge? = some i) ∧
        o.edges[i]? = some mark ∧ mark.edge = e := by
  constructor
  · intro h
    refine ⟨?_, getElem?_of_findEdge h⟩
    rw [findEdge] at h
    split at h
    · cases h
    · rename_i x hx
      split at h
      · cases h
      · rename_i j hj
        split at h
        · split at h
          · cases h
            exact ⟨x, hx, hj⟩
          · cases h
        · cases h
  · intro hwhole
    obtain ⟨⟨x, hx, hi⟩, hm, he⟩ := hwhole
    simp [findEdge, hx, hi, hm, he]

/-- Every live element leads to a mark of its own. -/
structure Fits (o : Overlay V E κ) (g : Graph V E) : Prop where
  vertex : ∀ {v}, g.vertices.contains v = true → ∃ i mark, o.findVertex g v = .ok (i, mark)
  edge : ∀ {e}, g.edges.contains e = true → ∃ i mark, o.findEdge g e = .ok (i, mark)

/-- What the overlay holds an edge to cost; nothing for an edge that is not there. -/
def cost [Zero κ] (o : Overlay V E κ) (g : Graph V E) (e : EdgeId) : κ :=
  match o.edgeMark g e with
  | .ok mark => mark.cost
  | .error _ => 0

def state (o : Overlay V E κ) (g : Graph V E) (e : EdgeId) : EdgeState :=
  match o.edgeMark g e with
  | .ok mark => mark.state
  | .error _ => .unexplored

theorem hop?_of_findVertex {v : VertexId} {i : Nat} {mark : VertexMark κ}
    (h : o.findVertex g v = .ok (i, mark)) : o.hop? g v = mark.hop? := by
  rw [hop?, h]

theorem vertexMark_eq_ok {v : VertexId} {mark : VertexMark κ} :
    o.vertexMark g v = .ok mark ↔ ∃ i, o.findVertex g v = .ok (i, mark) := by
  rw [vertexMark]
  cases o.findVertex g v with
  | error failure => simp [Functor.map, Except.map]
  | ok found =>
    obtain ⟨i, m⟩ := found
    simp [Functor.map, Except.map]

theorem edgeMark_eq_ok {e : EdgeId} {mark : EdgeMark κ} :
    o.edgeMark g e = .ok mark ↔ ∃ i, o.findEdge g e = .ok (i, mark) := by
  rw [edgeMark]
  cases o.findEdge g e with
  | error failure => simp [Functor.map, Except.map]
  | ok found =>
    obtain ⟨i, m⟩ := found
    simp [Functor.map, Except.map]

theorem hop?_of_not_live {v : VertexId} (h : g.vertices.contains v = false) :
    o.hop? g v = none := by
  have hv : g.vertices.get? v = none := by simpa [Arena.contains] using h
  simp [hop?, findVertex, hv]

theorem cost_of_not_live [Zero κ] {e : EdgeId} (h : g.edges.contains e = false) :
    o.cost g e = 0 := by
  have he : g.edges.get? e = none := by simpa [Arena.contains] using h
  rw [cost, edgeMark, findEdge, he]
  rfl

/-- Overlays on the same edges agree about all costs if they do about those of live edges. -/
theorem cost_ext [Zero κ] {g' : Graph V E} {o' : Overlay V E κ}
    (hlive : ∀ e, g'.edges.contains e = g.edges.contains e)
    (h : ∀ e, g.edges.contains e = true → o'.cost g' e = o.cost g e) : o'.cost g' = o.cost g := by
  funext e
  cases he : g.edges.contains e with
  | true => exact h e he
  | false => rw [cost_of_not_live he, cost_of_not_live ((hlive e).trans he)]

namespace Fits

theorem edgeMark (h : o.Fits g) {e : EdgeId} (he : g.edges.contains e = true) :
    ∃ mark, o.edgeMark g e = .ok mark := by
  obtain ⟨i, mark, hm⟩ := h.edge he
  exact ⟨mark, edgeMark_eq_ok.mpr ⟨i, hm⟩⟩

theorem vertexMark (h : o.Fits g) {v : VertexId} (hv : g.vertices.contains v = true) :
    ∃ mark, o.vertexMark g v = .ok mark ∧ o.hop? g v = mark.hop? := by
  obtain ⟨i, mark, hm⟩ := h.vertex hv
  exact ⟨mark, vertexMark_eq_ok.mpr ⟨i, hm⟩, hop?_of_findVertex hm⟩

theorem hop?_setHop (h : o.Fits g) {v : VertexId} (hv : g.vertices.contains v = true)
    (hop? : Option (Hop κ)) :
    (o.setHop g v hop?).hop? g = Function.update (o.hop? g) v hop? := by
  obtain ⟨i, mark, hm⟩ := h.vertex hv
  obtain ⟨hslot, hi, hmv⟩ := findVertex_eq_ok.mp hm
  have hlt := (Array.getElem?_eq_some_iff.mp hi).1
  funext w
  rw [setHop]
  rw [hm]
  by_cases hw : w = v
  · subst hw
    rw [Function.update_self]
    have hset : (o.vertices.setIfInBounds i { mark with hop? })[i]? = some { mark with hop? } := by
      simp [hlt]
    have hnew : findVertex { o with vertices := o.vertices.setIfInBounds i { mark with hop? } } g w
        = .ok (i, { mark with hop? }) := findVertex_eq_ok.mpr ⟨hslot, hset, hmv⟩
    exact hop?_of_findVertex hnew
  · rw [Function.update_of_ne hw]
    cases hlive : g.vertices.contains w with
    | false => rw [hop?_of_not_live hlive, hop?_of_not_live hlive]
    | true =>
      obtain ⟨j, other, ho⟩ := h.vertex hlive
      obtain ⟨hslot', hj, how⟩ := findVertex_eq_ok.mp ho
      have hij : i ≠ j := by
        intro heq
        subst heq
        rw [hi] at hj
        cases hj
        exact hw (how.symm.trans hmv)
      rw [hop?_of_findVertex ho]
      refine hop?_of_findVertex (i := j) (findVertex_eq_ok.mpr ⟨hslot', ?_, how⟩)
      simp [hij, hj]

theorem edgeMark_setState (h : o.Fits g) {e : EdgeId} (he : g.edges.contains e = true)
    (state : EdgeState) (d : EdgeId) :
    (o.setState g e state).edgeMark g d =
      if d = e then (fun m => { m with state }) <$> o.edgeMark g d else o.edgeMark g d := by
  obtain ⟨i, mark, hm⟩ := h.edge he
  obtain ⟨hslot, hi, hme⟩ := findEdge_eq_ok.mp hm
  have hlt := (Array.getElem?_eq_some_iff.mp hi).1
  rw [setState]
  rw [hm]
  by_cases hd : d = e
  · subst hd
    rw [if_pos rfl, edgeMark_eq_ok.mpr ⟨i, hm⟩]
    refine edgeMark_eq_ok.mpr ⟨i, findEdge_eq_ok.mpr ⟨hslot, ?_, hme⟩⟩
    simp [hlt]
  · rw [if_neg hd]
    cases hlive : g.edges.get? d with
    | none => simp [Overlay.edgeMark, findEdge, hlive]
    | some x =>
      obtain ⟨j, other, ho⟩ := h.edge (Arena.contains_iff.mpr ⟨x, hlive⟩)
      obtain ⟨hslot', hj, hod⟩ := findEdge_eq_ok.mp ho
      have hij : i ≠ j := by
        intro heq
        subst heq
        rw [hi] at hj
        cases hj
        exact hd (hod.symm.trans hme)
      rw [edgeMark_eq_ok.mpr ⟨j, ho⟩]
      refine edgeMark_eq_ok.mpr ⟨j, findEdge_eq_ok.mpr ⟨hslot', ?_, hod⟩⟩
      simp [hij, hj]

end Fits

end Waymark.Overlay
