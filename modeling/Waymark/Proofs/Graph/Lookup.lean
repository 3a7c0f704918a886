import Waymark.Proofs.Graph.Walk

namespace Waymark

theorem Edge.ends_incoming_mem {E : Type} {edge : Edge E} {a b : VertexId} :
    a ∈ edge.ends b .incoming ↔ edge.leads a b = true := by
  simp only [ends, leads, isBidirectional, List.mem_append, List.mem_ite_nil_right,
    List.mem_singleton, Bool.or_eq_true, Bool.and_eq_true, decide_eq_true_eq]
  constructor
  · intro hwhole
    obtain ⟨⟨ht, hk⟩, rfl⟩ | ⟨hh, rfl⟩ := hwhole
    · exact Or.inr ⟨⟨hk, ht⟩, rfl⟩
    · exact Or.inl ⟨rfl, hh⟩
  · intro hwhole
    obtain ⟨rfl, hh⟩ | ⟨⟨hk, ht⟩, rfl⟩ := hwhole
    · exact Or.inr ⟨hh, rfl⟩
    · exact Or.inl ⟨⟨ht, hk⟩, rfl⟩

namespace Graph

variable {V E : Type} {g : Graph V E} {es : List EdgeId} {a b : VertexId} {e : EdgeId}

theorem findEdge?_leads (h : g.findEdge? a b = some e) : g.leads a b e = true := by
  rw [findEdge?] at h
  split at h
  · split at h
    · exact List.find?_some h
    · cases h
  · cases h

/-- The vertex that an edge comes from stands in the incoming list of the one it leads to. -/
theorem Mirrors.mem_incoming (h : g.Mirrors es) {x : Vertex V} (hx : g.vertices.get? b = some x)
    (he : g.leads a b e = true) : a ∈ x.incoming.neighbors := by
  obtain ⟨edge, hedge, hl⟩ := leads_iff.mp he
  have hocc : (e, a) ∈ g.occurrences es b .incoming := by
    rw [mem_occurrences, endsAt_of_get? hedge, Edge.ends_incoming_mem]
    exact ⟨h.mem_of_get? hedge, hl⟩
  exact (h.lists hx .incoming).neighbors.mem_iff.mpr (List.mem_map_of_mem hocc)

/-- An edge that leads to `b` has an end there, and its further entries change nothing about which
edge is met first. -/
theorem find?_occurrences (g : Graph V E) (es : List EdgeId) (a b : VertexId) :
    ((g.occurrences es b .incoming).map Prod.fst).find? (g.leads a b) =
      es.find? (g.leads a b) := by
  induction es with
  | nil => rfl
  | cons e es ih =>
    rw [occurrences_cons, List.map_append, List.find?_append, ih, List.map_map]
    cases he : g.leads a b e with
    | true =>
      obtain ⟨edge, hedge, hl⟩ := leads_iff.mp he
      have hend : a ∈ g.endsAt b .incoming e := by
        rw [endsAt_of_get? hedge]
        exact Edge.ends_incoming_mem.mpr hl
      obtain ⟨u, us, hends⟩ := List.exists_cons_of_ne_nil (List.ne_nil_of_mem hend)
      simp [hends, he]
    | false =>
      have hnone : ((g.endsAt b .incoming e).map (Prod.fst ∘ (e, ·))).find? (g.leads a b) = none := by
        simp [he]
      rw [hnone, List.find?_cons_of_neg (by simp [he])]
      rfl

/-- The lists lead to the first of all live edges that go from `a` to `b`. -/
theorem Mirrors.findEdge?_eq (h : g.Mirrors es) (a b : VertexId) :
    g.findEdge? a b = es.find? (g.leads a b) := by
  rw [findEdge?]
  cases hx : g.vertices.get? b with
  | none =>
    refine (List.find?_eq_none.mpr fun e _ he => ?_).symm
    obtain ⟨x, hlive⟩ := Arena.contains_iff.mp (h.live_of_leads he).2
    rw [hx] at hlive
    cases hlive
  | some x =>
    have hedges : x.incoming.edges = (g.occurrences es b .incoming).map Prod.fst :=
      (h.lists hx .incoming).edges
    dsimp only
    rw [hedges, find?_occurrences]
    cases hn : x.incoming.neighbors.contains a with
    | true => rw [if_pos rfl]
    | false =>
      refine (List.find?_eq_none.mpr fun e _ he => ?_).symm
      rw [List.contains_iff_mem.mpr (h.mem_incoming hx he)] at hn
      cases hn

/-- The lists tell of every edge that leads from one vertex to another. -/
theorem Mirrors.findEdge?_isSome (h : g.Mirrors es) (he : g.leads a b e = true) :
    ∃ d, g.findEdge? a b = some d := by
  obtain ⟨edge, hedge, _⟩ := leads_iff.mp he
  rw [h.findEdge?_eq]
  exact Option.isSome_iff_exists.mp (List.find?_isSome.mpr ⟨e, h.mem_of_get? hedge, he⟩)

/-- Linking two vertices between which an edge is found changes nothing. -/
theorem Mirrors.link_eq_found (h : g.Mirrors es) (hf : g.findEdge? a b = some e) (kind : EdgeKind)
    (data : E) : g.link a b kind data = .ok (e, g) := by
  obtain ⟨ha, hb⟩ := h.live_of_leads (findEdge?_leads hf)
  obtain ⟨x, hx⟩ := Arena.contains_iff.mp ha
  obtain ⟨y, hy⟩ := Arena.contains_iff.mp hb
  simp [Graph.link, Graph.vertex, hx, hy, hf, bind, Except.bind, pure, Except.pure]

end Graph

end Waymark
