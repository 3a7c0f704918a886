import Mathlib.Data.List.Induction
import Waymark.Proofs.Cost.Lawful
import Waymark.Proofs.Graph.Mirror

namespace Waymark

/-- The cost of edges walked one after another, taken together from zero on. -/
def accumulate {κ : Type} [Zero κ] [Add κ] (cost : EdgeId → κ) (es : List EdgeId) : κ :=
  es.foldl (fun total e => total + cost e) 0

theorem accumulate_append {κ : Type} [Zero κ] [Add κ] (cost : EdgeId → κ) (es : List EdgeId)
    (e : EdgeId) : accumulate cost (es ++ [e]) = accumulate cost es + cost e := by
  rw [accumulate, List.foldl_append]
  rfl

theorem accumulate_nonneg {κ : Type} [Cost κ] [LawfulCost κ] {cost : EdgeId → κ}
    (hc : ∀ e, 0 ≤ cost e)
    (es : List EdgeId) : 0 ≤ accumulate cost es := by
  induction es using List.reverseRecOn with
  | nil => exact LawfulCost.zero_le_zero
  | append_singleton es e ih =>
    rw [accumulate_append]
    exact LawfulCost.add_nonneg ih (hc e)

namespace Graph

variable {V E κ : Type}

/-- The vertices that can be walked to from `a`, with the edges on the way there. -/
inductive Walk (g : Graph V E) (a : VertexId) : VertexId → List EdgeId → Prop
  | start : Walk g a a []
  | along {b c : VertexId} {es : List EdgeId} {e : EdgeId} (h : Walk g a b es)
    (he : g.leads b c e = true) : Walk g a c (es ++ [e])

/-- What the cheapest of all walks from `a` to `b` costs. -/
structure LeastCost [Cost κ] (g : Graph V E) (cost : EdgeId → κ) (a b : VertexId) (total : κ) :
    Prop where
  attained : ∃ es, g.Walk a b es ∧ accumulate cost es = total
  least : ∀ es, g.Walk a b es → total ≤ accumulate cost es

theorem leads_iff {g : Graph V E} {a b : VertexId} {e : EdgeId} :
    g.leads a b e = true ↔ ∃ edge, g.edges.get? e = some edge ∧ edge.leads a b = true := by
  rw [leads]
  cases g.edges.get? e <;> simp

theorem contains_of_leads {g : Graph V E} {a b : VertexId} {e : EdgeId}
    (h : g.leads a b e = true) : g.edges.contains e = true := by
  obtain ⟨edge, hedge, _⟩ := leads_iff.mp h
  exact Arena.contains_iff.mpr ⟨edge, hedge⟩

theorem leads_forth {g : Graph V E} {e : EdgeId} {edge : Edge E}
    (h : g.edges.get? e = some edge) : g.leads edge.tail edge.head e = true :=
  leads_iff.mpr ⟨edge, h, by simp [Edge.leads]⟩

theorem leads_back {g : Graph V E} {e : EdgeId} {edge : Edge E}
    (h : g.edges.get? e = some edge) (hb : edge.isBidirectional = true) :
    g.leads edge.head edge.tail e = true :=
  leads_iff.mpr ⟨edge, h, by simp [Edge.leads, hb]⟩

/-- An edge leads forth and, if it is bidirectional, back. -/
theorem leads_cases {g : Graph V E} {a b : VertexId} {e : EdgeId} {edge : Edge E}
    (h : g.edges.get? e = some edge) (hl : g.leads a b e = true) :
    (a = edge.tail ∧ b = edge.head) ∨
      (edge.isBidirectional = true ∧ a = edge.head ∧ b = edge.tail) := by
  obtain ⟨edge', hedge', hl⟩ := leads_iff.mp hl
  rw [h] at hedge'
  cases hedge'
  simp only [Edge.leads, Bool.or_eq_true, Bool.and_eq_true, decide_eq_true_eq] at hl
  obtain ⟨rfl, rfl⟩ | ⟨⟨hboth, rfl⟩, rfl⟩ := hl
  · exact Or.inl ⟨rfl, rfl⟩
  · exact Or.inr ⟨hboth, rfl, rfl⟩

/-- An edge leads between its two ends only, whichever way. -/
theorem leads_ends {g : Graph V E} {a b c d : VertexId} {e : EdgeId} (h : g.leads a b e = true)
    (h' : g.leads c d e = true) : (c = a ∧ d = b) ∨ (c = b ∧ d = a) := by
  obtain ⟨edge, hedge, _⟩ := leads_iff.mp h
  obtain ⟨rfl, rfl⟩ | ⟨_, rfl, rfl⟩ := leads_cases hedge h
  · obtain ⟨rfl, rfl⟩ | ⟨_, rfl, rfl⟩ := leads_cases hedge h'
    · exact Or.inl ⟨rfl, rfl⟩
    · exact Or.inr ⟨rfl, rfl⟩
  · obtain ⟨rfl, rfl⟩ | ⟨_, rfl, rfl⟩ := leads_cases hedge h'
    · exact Or.inr ⟨rfl, rfl⟩
    · exact Or.inl ⟨rfl, rfl⟩

/-- The least cost goes up along an edge by no more than what the edge costs. -/
theorem LeastCost.le_along [Cost κ] {g : Graph V E} {cost : EdgeId → κ} {a b c : VertexId}
    {e : EdgeId} {total total' : κ} (hc : g.LeastCost cost a c total')
    (hb : g.LeastCost cost a b total) (he : g.leads b c e = true) : total' ≤ total + cost e := by
  obtain ⟨es, hw, rfl⟩ := hb.attained
  rw [← accumulate_append]
  exact hc.least _ (hw.along he)

theorem LeastCost.nonneg [Cost κ] [LawfulCost κ] {g : Graph V E} {cost : EdgeId → κ}
    {a b : VertexId} {total : κ} (h : g.LeastCost cost a b total) (hc : ∀ e, 0 ≤ cost e) :
    0 ≤ total := by
  obtain ⟨es, _, rfl⟩ := h.attained
  exact accumulate_nonneg hc es

theorem LeastCost.source [Cost κ] [LawfulCost κ] (g : Graph V E) {cost : EdgeId → κ}
    (hc : ∀ e, 0 ≤ cost e) (v : VertexId) : g.LeastCost cost v v 0 :=
  ⟨⟨[], .start, rfl⟩, fun es _ => accumulate_nonneg hc es⟩

namespace Mirrors

variable {g : Graph V E} {es : List EdgeId}

theorem live_of_leads (h : g.Mirrors es) {a b : VertexId} {e : EdgeId}
    (he : g.leads a b e = true) :
    g.vertices.contains a = true ∧ g.vertices.contains b = true := by
  obtain ⟨edge, hedge, _⟩ := leads_iff.mp he
  have ht := h.tail_live hedge
  have hh := h.head_live hedge
  obtain ⟨rfl, rfl⟩ | ⟨_, rfl, rfl⟩ := leads_cases hedge he
  · exact ⟨ht, hh⟩
  · exact ⟨hh, ht⟩

/-- The outgoing list of a vertex holds the edges that lead somewhere from it. -/
theorem mem_outgoing (h : g.Mirrors es) {v : VertexId} {x : Vertex V}
    (hx : g.vertices.get? v = some x) {e : EdgeId} :
    e ∈ x.outgoing.edges ↔ ∃ b, g.leads v b e = true := by
  have hedges : x.outgoing.edges = (g.occurrences es v .outgoing).map Prod.fst :=
    (h.lists hx .outgoing).edges
  rw [hedges, mem_edges_occurrences]
  simp only [leads_iff]
  constructor
  · intro hwhole
    obtain ⟨he, b, hb⟩ := hwhole
    obtain ⟨edge, hedge⟩ := h.get?_of_mem he
    rw [endsAt_of_get? hedge, Edge.ends_outgoing_mem] at hb
    exact ⟨b, edge, hedge, hb⟩
  · intro hwhole
    obtain ⟨b, edge, hedge, hb⟩ := hwhole
    refine ⟨h.mem_of_get? hedge, b, ?_⟩
    rw [endsAt_of_get? hedge, Edge.ends_outgoing_mem]
    exact hb

end Mirrors

end Graph

end Waymark
