import Waymark.Proofs.Overlay.Round

namespace Waymark

/-- The same failure of an overlay on another channel. -/
def Failure.on {κ : Type} (c : Channel) : Failure κ → Failure κ
  | .noVertices _ => .noVertices c
  | .alreadyDecorated element _ => .alreadyDecorated element c
  | .undecorated element _ => .undecorated element c
  | .cycle v _ => .cycle v c
  | failure => failure

namespace Overlay

variable {V E κ : Type} {g g' g'' : Graph V E} {o o' o'' : Overlay V E κ}

theorem getElem?_unique {α β : Type} {a : Array α} {f : α → β} (hn : (a.toList.map f).Nodup)
    {i j : Nat} {x y : α} (hx : a[i]? = some x) (hy : a[j]? = some y) (h : f x = f y) : i = j := by
  rw [← Array.getElem?_toList] at hx hy
  have hi : (a.toList.map f)[i]? = some (f x) := by simp [hx]
  have hj : (a.toList.map f)[j]? = some (f x) := by simp [hy, h]
  obtain ⟨hlt, _⟩ := List.getElem?_eq_some_iff.mp hi
  exact (List.getElem?_inj hlt hn).mp (hi.trans hj.symm)

/-- Overlays that show the same hops. A vertex that is not there is not there for either of them. -/
def SameHops (g : Graph V E) (o : Overlay V E κ) (g' : Graph V E) (o' : Overlay V E κ) : Prop :=
  ∀ v, (∃ mark mark', o.vertexMark g v = .ok mark ∧ o'.vertexMark g' v = .ok mark' ∧
    mark'.hop? = mark.hop?) ∨
    (o.vertexMark g v = .error (.missing (.vertex v)) ∧
      o'.vertexMark g' v = .error (.missing (.vertex v)))

namespace SameHops

theorem vertexMark_ok (h : SameHops g o g' o') {v : VertexId} {mark : VertexMark κ}
    (hm : o.vertexMark g v = .ok mark) :
    ∃ mark', o'.vertexMark g' v = .ok mark' ∧ mark'.hop? = mark.hop? := by
  obtain ⟨mark₁, mark', hm₁, hm', hhop⟩ | ⟨hm₁, _⟩ := h v
  · rw [hm] at hm₁
    cases hm₁
    exact ⟨mark', hm', hhop⟩
  · rw [hm] at hm₁
    cases hm₁

theorem vertexMark_error (h : SameHops g o g' o') {v : VertexId} {failure : Failure κ}
    (hm : o.vertexMark g v = .error failure) :
    failure = .missing (.vertex v) ∧ o'.vertexMark g' v = .error failure := by
  obtain ⟨mark, _, hm₁, _⟩ | ⟨hm₁, hm'⟩ := h v
  · rw [hm] at hm₁
    cases hm₁
  · rw [hm] at hm₁
    cases hm₁
    exact ⟨rfl, hm'⟩

theorem backtrack (h : SameHops g o g' o') (seen : List VertexId) (v : VertexId)
    (found : List (Hop κ)) :
    o'.backtrack g' seen v found = (o.backtrack g seen v found).mapError (.on o'.channel) := by
  fun_induction Overlay.backtrack o g seen v found with
  | case1 seen v found failure hm =>
    obtain ⟨rfl, hm'⟩ := h.vertexMark_error hm
    rw [backtrack_eq, hm']
    rfl
  | case2 seen v found mark hm hnone =>
    obtain ⟨mark', hm', hhop⟩ := h.vertexMark_ok hm
    rw [backtrack_eq, hm']
    simp only [hhop, hnone, bind, Except.bind]
    rfl
  | case3 seen v found mark hm hop hsome hv =>
    obtain ⟨mark', hm', hhop⟩ := h.vertexMark_ok hm
    rw [backtrack_eq, hm']
    simp only [hhop, hsome, hv, if_true, bind, Except.bind]
    rfl
  | case4 seen v found mark hm hop hsome hv ih =>
    obtain ⟨mark', hm', hhop⟩ := h.vertexMark_ok hm
    rw [backtrack_eq, hm']
    simp only [hhop, hsome, hv, if_false, bind, Except.bind]
    exact ih

theorem pathTo (h : SameHops g o g' o') (v : VertexId) :
    o'.pathTo g' v = (o.pathTo g v).mapError (.on o'.channel) := by
  rw [Overlay.pathTo, Overlay.pathTo, h.backtrack]
  cases o.backtrack g [] v [] <;> rfl

end SameHops

/-- Overlays with equal marks, on graphs that are equal but for what is registered. Each finds its
marks under a channel of its own. -/
structure Alike (g : Graph V E) (o : Overlay V E κ) (g' : Graph V E) (o' : Overlay V E κ) :
    Prop where
  bare : g'.bare = g.bare
  fits : o.Fits g
  fits' : o'.Fits g'
  listed : o.Listed g
  vertices : o'.vertices = o.vertices
  edges : o'.edges = o.edges

namespace Alike

theorem listed' (h : Alike g o g' o') : o'.Listed g' where
  vertices := by rw [h.vertices, h.listed.vertices, Graph.vertex_ids_of_bare h.bare]
  edges := by rw [h.edges, h.listed.edges, Graph.edge_ids_of_bare h.bare]

/-- Marks are found in the same places. -/
theorem findVertex (h : Alike g o g' o') (v : VertexId) :
    o'.findVertex g' v = o.findVertex g v := by
  cases hv : g.vertices.get? v with
  | none =>
    rw [Overlay.findVertex, Overlay.findVertex, hv, Graph.vertex_none_of_bare h.bare hv]
  | some x =>
    have hlive := Arena.contains_iff.mpr ⟨x, hv⟩
    obtain ⟨i, mark, hm⟩ := h.fits.vertex hlive
    obtain ⟨j, mark', hm'⟩ := h.fits'.vertex
      ((Graph.contains_vertices_of_bare h.bare v).trans hlive)
    obtain ⟨_, hi, he⟩ := findVertex_eq_ok.mp hm
    obtain ⟨_, hj, he'⟩ := findVertex_eq_ok.mp hm'
    rw [h.vertices] at hj
    have hn : (o.vertices.toList.map VertexMark.vertex).Nodup := by
      rw [h.listed.vertices]
      exact g.vertices.nodup_ids_index.of_map _
    have hij := getElem?_unique hn hi hj (he.trans he'.symm)
    subst hij
    rw [hi] at hj
    cases hj
    rw [hm, hm']

theorem findEdge (h : Alike g o g' o') (e : EdgeId) : o'.findEdge g' e = o.findEdge g e := by
  cases he : g.edges.get? e with
  | none => rw [Overlay.findEdge, Overlay.findEdge, he, Graph.edge_none_of_bare h.bare he]
  | some x =>
    have hlive := Arena.contains_iff.mpr ⟨x, he⟩
    obtain ⟨i, mark, hm⟩ := h.fits.edge hlive
    obtain ⟨j, mark', hm'⟩ := h.fits'.edge ((Graph.contains_edges_of_bare h.bare e).trans hlive)
    obtain ⟨_, hi, hd⟩ := findEdge_eq_ok.mp hm
    obtain ⟨_, hj, hd'⟩ := findEdge_eq_ok.mp hm'
    rw [h.edges] at hj
    have hn : (o.edges.toList.map EdgeMark.edge).Nodup := by
      rw [h.listed.edges]
      exact g.edges.nodup_ids_index.of_map _
    have hij := getElem?_unique hn hi hj (hd.trans hd'.symm)
    subst hij
    rw [hi] at hj
    cases hj
    rw [hm, hm']

theorem vertexMark (h : Alike g o g' o') (v : VertexId) :
    o'.vertexMark g' v = o.vertexMark g v := by
  rw [Overlay.vertexMark, Overlay.vertexMark, h.findVertex]

theorem edgeMark (h : Alike g o g' o') (e : EdgeId) : o'.edgeMark g' e = o.edgeMark g e := by
  rw [Overlay.edgeMark, Overlay.edgeMark, h.findEdge]

theorem hop? (h : Alike g o g' o') (v : VertexId) : o'.hop? g' v = o.hop? g v := by
  rw [Overlay.hop?, Overlay.hop?, h.findVertex]

theorem setHop (h : Alike g o g' o') (v : VertexId) (hop? : Option (Hop κ)) :
    Alike g (o.setHop g v hop?) g' (o'.setHop g' v hop?) := by
  have hlayout := sameLayout_setHop o g v hop?
  refine ⟨h.bare, hlayout.fits h.fits, (sameLayout_setHop o' g' v hop?).fits h.fits',
    h.listed.of_sameLayout hlayout, ?_, ?_⟩
  · rw [Overlay.setHop, Overlay.setHop, h.findVertex]
    split
    · dsimp only
      rw [h.vertices]
    · exact h.vertices
  · rw [edges_setHop, edges_setHop, h.edges]

theorem setState (h : Alike g o g' o') (e : EdgeId) (state : EdgeState) :
    Alike g (o.setState g e state) g' (o'.setState g' e state) := by
  have hlayout := sameLayout_setState o g e state
  refine ⟨h.bare, hlayout.fits h.fits, (sameLayout_setState o' g' e state).fits h.fits',
    h.listed.of_sameLayout hlayout, ?_, ?_⟩
  · rw [vertices_setState, vertices_setState, h.vertices]
  · rw [Overlay.setState, Overlay.setState, h.findEdge]
    split
    · dsimp only
      rw [h.edges]
    · exact h.edges

/-- Equal marks show equal hops. -/
theorem sameHops (h : Alike g o g' o') : SameHops g o g' o' := by
  intro v
  rw [h.vertexMark]
  cases hv : g.vertices.get? v with
  | none =>
    have hm : o.vertexMark g v = .error (.missing (.vertex v)) := by
      rw [Overlay.vertexMark, Overlay.findVertex, hv]
      rfl
    exact Or.inr ⟨hm, hm⟩
  | some x =>
    obtain ⟨mark, hm, _⟩ := h.fits.vertexMark (Arena.contains_iff.mpr ⟨x, hv⟩)
    exact Or.inl ⟨mark, mark, hm, hm, rfl⟩

theorem pathTo (h : Alike g o g' o') (v : VertexId) :
    o'.pathTo g' v = (o.pathTo g v).mapError (.on o'.channel) :=
  h.sameHops.pathTo v

end Alike

end Overlay

end Waymark
