import Waymark.Overlay.Reset
import Waymark.Proofs.Overlay.Fit

namespace Waymark

/-- What an attempt leaves behind, whether it succeeded or not. -/
def leftBehind {ε σ : Type} : Except (ε × σ) σ → σ
  | .ok s => s
  | .error (_, s) => s

/-- The same for an attempt that has a result besides. -/
def givenBack {ε α σ : Type} : Except (ε × σ) (α × σ) → σ
  | .ok (_, s) => s
  | .error (_, s) => s

/-- The result of an attempt without what it left behind. -/
def reported {ε α σ : Type} : Except (ε × σ) (α × σ) → Except ε α
  | .ok (a, _) => .ok a
  | .error (e, _) => .error e

/-- The failure that an attempt reports, if it does. -/
def failure? {ε α σ : Type} : Except (ε × σ) α → Option ε
  | .ok _ => none
  | .error (e, _) => some e

/-- A fold that goes through has gone through its first step. -/
theorem foldlM_cons_eq_ok {ε σ α : Type} {f : σ → α → Except ε σ} {a : α} {l : List α} {s s' : σ}
    (h : (a :: l).foldlM f s = .ok s') : ∃ s₁, f s a = .ok s₁ ∧ l.foldlM f s₁ = .ok s' := by
  rw [List.foldlM_cons] at h
  cases hfa : f s a with
  | error e =>
    rw [hfa] at h
    cases h
  | ok s₁ =>
    rw [hfa] at h
    exact ⟨s₁, rfl, h⟩

theorem leftBehind_foldlM {ε σ α : Type} {f : σ → α → Except (ε × σ) σ} {P : σ → Prop}
    (hf : ∀ s a, P s → P (leftBehind (f s a))) (l : List α) {s : σ} (hs : P s) :
    P (leftBehind (l.foldlM f s)) := by
  induction l generalizing s with
  | nil => exact hs
  | cons a l ih =>
    have ha := hf s a hs
    rw [List.foldlM_cons]
    cases hfa : f s a with
    | error e =>
      rw [hfa] at ha
      exact ha
    | ok s' =>
      rw [hfa] at ha
      exact ih ha

namespace Overlay

variable {V E κ : Type} {o o' o'' : Overlay V E κ} {g : Graph V E}

/-- The same channel, and marks for the same elements in the same places. -/
structure SameLayout (o o' : Overlay V E κ) : Prop where
  channel : o'.channel = o.channel
  vertices : o'.vertices.map VertexMark.vertex = o.vertices.map VertexMark.vertex
  edges : o'.edges.map EdgeMark.edge = o.edges.map EdgeMark.edge

namespace SameLayout

theorem refl (o : Overlay V E κ) : SameLayout o o := ⟨rfl, rfl, rfl⟩

theorem trans (h : SameLayout o o') (h' : SameLayout o' o'') : SameLayout o o'' :=
  ⟨h'.channel.trans h.channel, h'.vertices.trans h.vertices, h'.edges.trans h.edges⟩

theorem findVertex (h : SameLayout o o') {v : VertexId} {i : Nat} {mark : VertexMark κ}
    (hm : o.findVertex g v = .ok (i, mark)) : ∃ mark', o'.findVertex g v = .ok (i, mark') := by
  obtain ⟨hslot, hi, hv⟩ := findVertex_eq_ok.mp hm
  have hmap := congrArg (fun a : Array VertexId => a[i]?) h.vertices
  simp only [Array.getElem?_map, hi, Option.map_some] at hmap
  obtain ⟨mark', hi', hv'⟩ := Option.map_eq_some_iff.mp hmap
  exact ⟨mark', findVertex_eq_ok.mpr ⟨by rw [h.channel]; exact hslot, hi', hv'.trans hv⟩⟩

theorem findEdge (h : SameLayout o o') {e : EdgeId} {i : Nat} {mark : EdgeMark κ}
    (hm : o.findEdge g e = .ok (i, mark)) : ∃ mark', o'.findEdge g e = .ok (i, mark') := by
  obtain ⟨hslot, hi, he⟩ := findEdge_eq_ok.mp hm
  have hmap := congrArg (fun a : Array EdgeId => a[i]?) h.edges
  simp only [Array.getElem?_map, hi, Option.map_some] at hmap
  obtain ⟨mark', hi', he'⟩ := Option.map_eq_some_iff.mp hmap
  exact ⟨mark', findEdge_eq_ok.mpr ⟨by rw [h.channel]; exact hslot, hi', he'.trans he⟩⟩

theorem fits (h : SameLayout o o') (hf : o.Fits g) : o'.Fits g where
  vertex hv := by
    obtain ⟨i, mark, hm⟩ := hf.vertex hv
    obtain ⟨mark', hm'⟩ := h.findVertex hm
    exact ⟨i, mark', hm'⟩
  edge he := by
    obtain ⟨i, mark, hm⟩ := hf.edge he
    obtain ⟨mark', hm'⟩ := h.findEdge hm
    exact ⟨i, mark', hm'⟩

end SameLayout

/-- All costs have been admitted. -/
def Priced [Cost κ] (o : Overlay V E κ) : Prop := ∀ mark ∈ o.edges, Cost.admissible mark.cost = true

/-- No trace of a search. -/
structure Blank (o : Overlay V E κ) : Prop where
  vertices : ∀ mark ∈ o.vertices, mark.hop? = none
  edges : ∀ mark ∈ o.edges, mark.state = .unexplored

/-- What holds of an overlay between two uses. -/
structure Sound [Cost κ] (o : Overlay V E κ) (g : Graph V E) : Prop where
  fits : o.Fits g
  priced : o.Priced
  tidy : o.used = false → o.Blank

theorem map_setIfInBounds {α β : Type} {a : Array α} {f : α → β} {i : Nat} {x y : α}
    (hx : a[i]? = some x) (hxy : f y = f x) : (a.setIfInBounds i y).map f = a.map f := by
  refine Array.ext_getElem? fun j => ?_
  rw [Array.getElem?_map, Array.getElem?_map, Array.getElem?_setIfInBounds]
  by_cases hij : i = j
  · subst hij
    have hlt := (Array.getElem?_eq_some_iff.mp hx).1
    rw [if_pos rfl, if_pos hlt, hx]
    exact congrArg some hxy
  · simp [hij]

theorem forall_mem_setIfInBounds {α : Type} {a : Array α} {P : α → Prop} (h : ∀ x ∈ a, P x)
    (i : Nat) {y : α} (hy : P y) : ∀ x ∈ a.setIfInBounds i y, P x := by
  intro x hx
  obtain ⟨j, hj⟩ := Array.mem_iff_getElem?.mp hx
  rw [Array.getElem?_setIfInBounds] at hj
  split at hj
  · split at hj
    · cases hj
      exact hy
    · cases hj
  · exact h x (Array.mem_of_getElem? hj)

/-! Single marks -/

/-- An overlay after hops and states have been written into some of its marks. -/
inductive Touched (g : Graph V E) (o : Overlay V E κ) : Overlay V E κ → Prop
  | refl : Touched g o o
  | setHop {o' : Overlay V E κ} (h : Touched g o o') (v : VertexId) (hop? : Option (Hop κ)) :
    Touched g o (o'.setHop g v hop?)
  | setState {o' : Overlay V E κ} (h : Touched g o o') (e : EdgeId) (state : EdgeState) :
    Touched g o (o'.setState g e state)

theorem Touched.trans (h : Touched g o o') (h' : Touched g o' o'') : Touched g o o'' := by
  induction h' with
  | refl => exact h
  | setHop _ v hop? ih => exact ih.setHop v hop?
  | setState _ e state ih => exact ih.setState e state

theorem sameLayout_setHop (o : Overlay V E κ) (g : Graph V E) (v : VertexId)
    (hop? : Option (Hop κ)) : SameLayout o (o.setHop g v hop?) := by
  rw [setHop]
  split
  · rename_i i mark hm
    exact ⟨rfl, map_setIfInBounds (findVertex_eq_ok.mp hm).2.1 rfl, rfl⟩
  · exact .refl o

theorem sameLayout_setState (o : Overlay V E κ) (g : Graph V E) (e : EdgeId)
    (state : EdgeState) : SameLayout o (o.setState g e state) := by
  rw [setState]
  split
  · rename_i i mark hm
    exact ⟨rfl, rfl, map_setIfInBounds (findEdge_eq_ok.mp hm).2.1 rfl⟩
  · exact .refl o

theorem edgeMark_setHop (o : Overlay V E κ) (g : Graph V E) (v : VertexId)
    (hop? : Option (Hop κ)) (e : EdgeId) : (o.setHop g v hop?).edgeMark g e = o.edgeMark g e := by
  unfold edgeMark findEdge
  rw [edges_setHop, (sameLayout_setHop o g v hop?).channel]

@[simp] theorem used_setHop (o : Overlay V E κ) (g : Graph V E) (v : VertexId)
    (hop? : Option (Hop κ)) : (o.setHop g v hop?).used = o.used := by
  rw [setHop]
  split <;> rfl

@[simp] theorem used_setState (o : Overlay V E κ) (g : Graph V E) (e : EdgeId)
    (state : EdgeState) : (o.setState g e state).used = o.used := by
  rw [setState]
  split <;> rfl

@[simp] theorem appraiser_setHop (o : Overlay V E κ) (g : Graph V E) (v : VertexId)
    (hop? : Option (Hop κ)) : (o.setHop g v hop?).appraiser = o.appraiser := by
  rw [setHop]
  split <;> rfl

@[simp] theorem appraiser_setState (o : Overlay V E κ) (g : Graph V E) (e : EdgeId)
    (state : EdgeState) : (o.setState g e state).appraiser = o.appraiser := by
  rw [setState]
  split <;> rfl

@[simp] theorem vertices_setState (o : Overlay V E κ) (g : Graph V E) (e : EdgeId)
    (state : EdgeState) : (o.setState g e state).vertices = o.vertices := by
  rw [setState]
  split <;> rfl

namespace Touched

theorem sameLayout (h : Touched g o o') : SameLayout o o' := by
  induction h with
  | refl => exact .refl o
  | setHop _ v hop? ih => exact ih.trans (sameLayout_setHop _ g v hop?)
  | setState _ e state ih => exact ih.trans (sameLayout_setState _ g e state)

theorem fits (h : Touched g o o') (hf : o.Fits g) : o'.Fits g := h.sameLayout.fits hf

theorem used (h : Touched g o o') : o'.used = o.used := by
  induction h with
  | refl => rfl
  | setHop _ v hop? ih => rw [used_setHop, ih]
  | setState _ e state ih => rw [used_setState, ih]

theorem priced [Cost κ] (h : Touched g o o') (hp : o.Priced) : o'.Priced := by
  induction h with
  | refl => exact hp
  | setHop _ v hop? ih =>
    rw [Priced, edges_setHop]
    exact ih
  | @setState o' _ e state ih =>
    rw [Overlay.setState]
    split
    · rename_i i mark hm
      have hmark := Array.mem_of_getElem? (findEdge_eq_ok.mp hm).2.1
      exact forall_mem_setIfInBounds ih i (ih mark hmark)
    · exact ih

theorem appraiser (h : Touched g o o') : o'.appraiser = o.appraiser := by
  induction h with
  | refl => rfl
  | setHop _ v hop? ih => rw [appraiser_setHop, ih]
  | setState _ e state ih => rw [appraiser_setState, ih]

/-- At every position there is still the same edge at the same cost. -/
theorem charged (h : Touched g o o') {i : Nat} {mark : EdgeMark κ} (hi : o'.edges[i]? = some mark) :
    ∃ mark', o.edges[i]? = some mark' ∧ mark'.edge = mark.edge ∧ mark'.cost = mark.cost := by
  induction h generalizing mark with
  | refl => exact ⟨mark, hi, rfl, rfl⟩
  | setHop _ v hop? ih =>
    rw [edges_setHop] at hi
    exact ih hi
  | @setState o' _ e state ih =>
    rw [Overlay.setState] at hi
    split at hi
    · rename_i j found hm
      rw [Array.getElem?_setIfInBounds] at hi
      split at hi
      · rename_i hj
        split at hi
        · cases hi
          rw [hj] at hm
          obtain ⟨mark', hi', he, hc⟩ := ih (findEdge_eq_ok.mp hm).2.1
          exact ⟨mark', hi', he, hc⟩
        · cases hi
      · exact ih hi
    · exact ih hi

/-- A search changes no cost. -/
theorem cost [Zero κ] (h : Touched g o o') (hf : o.Fits g) : o'.cost g = o.cost g := by
  induction h with
  | refl => rfl
  | @setHop o' h v hop? ih =>
    rw [← ih]
    funext e
    rw [Overlay.cost, Overlay.cost, edgeMark_setHop]
  | @setState o' h e state ih =>
    rw [← ih]
    funext d
    cases he : g.edges.contains e with
    | true =>
      rw [Overlay.cost, Overlay.cost, (h.fits hf).edgeMark_setState he]
      by_cases hd : d = e
      · rw [if_pos hd]
        cases o'.edgeMark g d <;> rfl
      · rw [if_neg hd]
    | false =>
      have hnone : g.edges.get? e = none := by simpa [Arena.contains] using he
      have hsame : o'.setState g e state = o' := by simp [Overlay.setState, findEdge, hnone]
      rw [hsame]

end Touched

end Overlay

end Waymark
