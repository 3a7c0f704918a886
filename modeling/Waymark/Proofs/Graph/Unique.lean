import Waymark.Proofs.Graph.Succession

namespace Waymark.Graph

variable {V E : Type} {g g' : Graph V E} {es es' : List EdgeId} {a b : VertexId} {d e : EdgeId}

theorem leads_iff_declaration? : g.leads a b e = true ↔
    (∃ kind, g.declaration? e = some (a, b, kind)) ∨
      g.declaration? e = some (b, a, .bidirectional) := by
  rw [leads, declaration?]
  cases g.edges.get? e with
  | none => simp
  | some edge =>
    simp only [Edge.leads, Edge.isBidirectional, Edge.declaration, Option.map_some,
      Option.some.injEq, Prod.mk.injEq, Bool.or_eq_true, Bool.and_eq_true, decide_eq_true_eq]
    grind

/-- No edge is declared where an older one leads already. -/
def Unrepeated (g : Graph V E) (es : List EdgeId) : Prop :=
  es.Pairwise fun d e =>
    ∀ {a b kind}, g.declaration? e = some (a, b, kind) → g.leads a b d = false

namespace Unrepeated

theorem empty : Unrepeated ({} : Graph V E) [] := List.Pairwise.nil

theorem succeeds (h : g.Unrepeated es) (hs : Succeeds g g' es es') : g'.Unrepeated es' := by
  have hkept {ds : List EdgeId} (hsub : ds.Sublist es)
      (hsame : ∀ e ∈ ds, g'.declaration? e = g.declaration? e) : g'.Unrepeated ds := by
    refine (h.sublist hsub).imp_of_mem fun {d e} hd he hde a b kind hdecl => ?_
    rw [hsame e he] at hdecl
    rw [leads_of_declaration? (hsame d hd)]
    exact hde hdecl
  cases hs with
  | kept hsub hsame => exact hkept hsub hsame
  | @grown e edge he hsame hnone =>
    refine List.pairwise_append.mpr ⟨hkept (List.Sublist.refl es) hsame,
      List.pairwise_singleton _ _, ?_⟩
    intro d hd e' he' a b kind hdecl
    obtain rfl := List.mem_singleton.mp he'
    rw [declaration?, he] at hdecl
    cases hdecl
    rw [leads_of_declaration? (hsame d hd)]
    exact hnone d hd

end Unrepeated

/-- The one way in which two edges lead from `a` to `b`: one is directed there, and a bidirectional
one was declared the other way round while the first was live. -/
structure Doubled (g : Graph V E) (es : List EdgeId) (a b : VertexId) (d e : EdgeId) : Prop where
  ne : a ≠ b
  directed : g.declaration? d = some (a, b, .directed)
  bidirectional : g.declaration? e = some (b, a, .bidirectional)
  order : [d, e].Sublist es

namespace Doubled

theorem leads (h : g.Doubled es a b d e) :
    g.leads a b d = true ∧ g.leads a b e = true ∧ g.leads b a e = true ∧ g.leads b a d = false := by
  refine ⟨leads_iff_declaration?.mpr (Or.inl ⟨_, h.directed⟩),
    leads_iff_declaration?.mpr (Or.inr h.bidirectional),
    leads_iff_declaration?.mpr (Or.inl ⟨_, h.bidirectional⟩), ?_⟩
  refine Bool.eq_false_iff.mpr fun hback => ?_
  obtain ⟨kind, hd⟩ | hd := leads_iff_declaration?.mp hback
  · rw [h.directed] at hd
    cases hd
    exact h.ne rfl
  · rw [h.directed] at hd
    cases hd

end Doubled

namespace Unrepeated

/-- Of two edges from `a` to `b` the later one comes from the other side. -/
theorem doubled (h : g.Unrepeated es) (hde : [d, e].Sublist es) (hd : g.leads a b d = true)
    (he : g.leads a b e = true) : g.Doubled es a b d e := by
  have hnone {x y : VertexId} {kind : EdgeKind} (hdecl : g.declaration? e = some (x, y, kind)) :
      g.leads x y d = false :=
    List.rel_of_pairwise_cons (h.sublist hde) (List.mem_singleton_self e) hdecl
  obtain ⟨kind, hforth⟩ | hback := leads_iff_declaration?.mp he
  · rw [hnone hforth] at hd
    cases hd
  · have hdb := hnone hback
    have hne : a ≠ b := by
      intro heq
      subst heq
      rw [hd] at hdb
      cases hdb
    refine ⟨hne, ?_, hback, hde⟩
    obtain ⟨kind, hdirected⟩ | hboth := leads_iff_declaration?.mp hd
    · cases kind with
      | directed => exact hdirected
      | bidirectional =>
        rw [leads_iff_declaration?.mpr (Or.inr hdirected)] at hdb
        cases hdb
    · rw [leads_iff_declaration?.mpr (Or.inl ⟨_, hboth⟩)] at hdb
      cases hdb

/-- At most two edges lead from one vertex to another, and two only if they are doubled. -/
theorem filter_leads_cases (h : g.Unrepeated es) (a b : VertexId) :
    es.filter (g.leads a b) = [] ∨ (∃ e, es.filter (g.leads a b) = [e]) ∨
      ∃ d e, es.filter (g.leads a b) = [d, e] ∧ g.Doubled es a b d e := by
  have hpair {x y : EdgeId} (hxy : [x, y].Sublist (es.filter (g.leads a b))) :
      g.Doubled es a b x y := by
    refine h.doubled (hxy.trans List.filter_sublist) ?_ ?_
    · exact List.of_mem_filter (hxy.subset (by simp))
    · exact List.of_mem_filter (hxy.subset (by simp))
  cases hL : es.filter (g.leads a b) with
  | nil => exact Or.inl rfl
  | cons x rest =>
    rw [hL] at hpair
    cases rest with
    | nil => exact Or.inr (Or.inl ⟨x, rfl⟩)
    | cons y rest =>
      have hxy : g.Doubled es a b x y := hpair (by simp)
      cases rest with
      | nil => exact Or.inr (Or.inr ⟨x, y, rfl, hxy⟩)
      | cons z rest =>
        -- The middle one of three would be directed as well as bidirectional.
        have hyz : g.Doubled es a b y z := hpair (List.Sublist.cons x (by simp))
        have hy := hxy.bidirectional.symm.trans hyz.directed
        cases hy

theorem filter_leads (h : g.Unrepeated es) (hd : g.Doubled es a b d e) :
    es.filter (g.leads a b) = [d, e] := by
  obtain ⟨hleads, hleads', _, _⟩ := hd.leads
  have hsub : [d, e].Sublist (es.filter (g.leads a b)) := by
    have hself : [d, e].filter (g.leads a b) = [d, e] := by simp [hleads, hleads']
    rw [← hself]
    exact hd.order.filter _
  refine (hsub.eq_of_length_le ?_).symm
  obtain hnone | ⟨x, hone⟩ | ⟨x, y, htwo, _⟩ := h.filter_leads_cases a b
  · simp [hnone]
  · simp [hone]
  · simp [htwo]

theorem filter_leads_back (h : g.Unrepeated es) (hd : g.Doubled es a b d e) :
    es.filter (g.leads b a) = [e] := by
  obtain ⟨_, _, hback, hnot⟩ := hd.leads
  have hmem : e ∈ es.filter (g.leads b a) :=
    List.mem_filter.mpr ⟨hd.order.subset (by simp), hback⟩
  obtain hnone | ⟨x, hone⟩ | ⟨x, y, htwo, hxy⟩ := h.filter_leads_cases b a
  · rw [hnone] at hmem
    cases hmem
  · rw [hone] at hmem ⊢
    rw [List.mem_singleton.mp hmem]
  · rw [htwo] at hmem
    obtain rfl | hmem := List.mem_cons.mp hmem
    · cases hd.bidirectional.symm.trans hxy.directed
    · obtain rfl := List.mem_singleton.mp hmem
      cases hd.bidirectional.symm.trans hxy.bidirectional
      exact (hd.ne rfl).elim

theorem length_filter_leads (h : g.Unrepeated es) (a b : VertexId) :
    (es.filter (g.leads a b)).length ≤ 2 ∧
      ((es.filter (g.leads a b)).length = 2 ↔ ∃ d e, g.Doubled es a b d e) := by
  have htwo : (∃ d e, g.Doubled es a b d e) → (es.filter (g.leads a b)).length = 2 := by
    intro hwhole
    obtain ⟨d, e, hd⟩ := hwhole
    rw [h.filter_leads hd]
    rfl
  obtain hnone | ⟨x, hone⟩ | ⟨x, y, hboth, hxy⟩ := h.filter_leads_cases a b
  · rw [hnone] at htwo ⊢
    exact ⟨by simp, fun hlen => (Nat.zero_ne_add_one 1 hlen).elim, htwo⟩
  · rw [hone] at htwo ⊢
    exact ⟨by simp, fun hlen => (Nat.succ_ne_self 1 hlen.symm).elim, htwo⟩
  · rw [hboth]
    exact ⟨Nat.le_refl 2, fun _ => ⟨x, y, hxy⟩, fun _ => rfl⟩

/-- Of two edges from `a` to `b` the directed one is found, and the other one on the way back. -/
theorem findEdge?_doubled (h : g.Unrepeated es) (hm : g.Mirrors es) (hd : g.Doubled es a b d e) :
    g.findEdge? a b = some d ∧ g.findEdge? b a = some e ∧ e ≠ d := by
  rw [hm.findEdge?_eq, hm.findEdge?_eq, ← List.head?_filter, ← List.head?_filter,
    h.filter_leads hd, h.filter_leads_back hd]
  refine ⟨rfl, rfl, fun heq => ?_⟩
  have hboth := hd.directed
  rw [← heq, hd.bidirectional] at hboth
  cases hboth

/-- No two live edges are declared between the same vertices in the same direction. -/
theorem eq_of_ends (h : g.Unrepeated es) (hm : g.Mirrors es) {x y : Edge E}
    (hx : g.edges.get? d = some x) (hy : g.edges.get? e = some y) (ht : x.tail = y.tail)
    (hh : x.head = y.head) : d = e := by
  have hd : d ∈ es.filter (g.leads x.tail x.head) :=
    List.mem_filter.mpr ⟨hm.mem_of_get? hx, leads_forth hx⟩
  have he : e ∈ es.filter (g.leads x.tail x.head) := by
    rw [ht, hh]
    exact List.mem_filter.mpr ⟨hm.mem_of_get? hy, leads_forth hy⟩
  obtain hnone | ⟨f, hone⟩ | ⟨f, f', htwo, hdouble⟩ := h.filter_leads_cases x.tail x.head
  · rw [hnone] at hd
    cases hd
  · rw [hone] at hd he
    rw [List.mem_singleton.mp hd, List.mem_singleton.mp he]
  · -- The second one of two is declared the other way round, so each of `d` and `e` is the first.
    have hfirst {c : EdgeId} {z : Edge E} (hz : g.edges.get? c = some z) (hzt : z.tail = x.tail)
        (hmem : c ∈ [f, f']) : c = f := by
      refine (List.mem_cons.mp hmem).resolve_right fun hlast => ?_
      have hback := hdouble.bidirectional
      rw [← List.mem_singleton.mp hlast, declaration?, hz] at hback
      have htail : z.tail = x.head := congrArg Prod.fst (Option.some.inj hback)
      exact hdouble.ne (hzt.symm.trans htail)
    rw [htwo] at hd he
    rw [hfirst hx rfl hd, hfirst hy ht.symm he]

end Unrepeated

end Waymark.Graph
