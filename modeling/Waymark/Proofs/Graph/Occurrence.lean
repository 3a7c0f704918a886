import Mathlib.Data.List.Basic
import Waymark.Graph.Link
import Waymark.Graph.Remove

namespace Waymark

/-- Which of its three adjacency lists a vertex enters an edge in. -/
inductive Side
  | all
  | outgoing
  | incoming
  deriving DecidableEq, Repr

def Vertex.list {V : Type} (x : Vertex V) : Side → Adjacency
  | .all => x.all
  | .outgoing => x.outgoing
  | .incoming => x.incoming

def Roles.has (r : Roles) : Side → Bool
  | .all => true
  | .outgoing => r.outgoing
  | .incoming => r.incoming

namespace Edge

variable {E : Type}

/-- The other ends with which an edge stands in a list of `v`: once for being declared from `v` and
once for being declared to `v`, as far as the edge can be walked that way. -/
def ends (edge : Edge E) (v : VertexId) : Side → List VertexId
  | .all =>
    (if edge.tail = v then [edge.head] else []) ++ (if edge.head = v then [edge.tail] else [])
  | .outgoing =>
    (if edge.tail = v then [edge.head] else []) ++
      (if edge.head = v ∧ edge.kind = .bidirectional then [edge.tail] else [])
  | .incoming =>
    (if edge.tail = v ∧ edge.kind = .bidirectional then [edge.head] else []) ++
      (if edge.head = v then [edge.tail] else [])

/-- The ends follow the roles under which an edge is entered at its tail and at its head. -/
theorem ends_eq_roles (edge : Edge E) (v : VertexId) (side : Side) :
    edge.ends v side =
      (if v = edge.tail ∧ edge.kind.tailRoles.has side = true then [edge.head] else []) ++
        (if v = edge.head ∧ edge.kind.headRoles.has side = true then [edge.tail] else []) := by
  simp only [eq_comm (a := v)]
  cases hk : edge.kind <;> cases side <;>
    simp [ends, hk, EdgeKind.tailRoles, EdgeKind.headRoles, Roles.has]

theorem ends_outgoing_mem {edge : Edge E} {a b : VertexId} :
    b ∈ edge.ends a .outgoing ↔ edge.leads a b = true := by
  simp only [ends, leads, isBidirectional, List.mem_append, List.mem_ite_nil_right,
    List.mem_singleton, Bool.or_eq_true, Bool.and_eq_true, decide_eq_true_eq]
  constructor
  · intro hwhole
    obtain ⟨ht, rfl⟩ | ⟨⟨hh, hk⟩, rfl⟩ := hwhole
    · exact Or.inl ⟨ht, rfl⟩
    · exact Or.inr ⟨⟨hk, rfl⟩, hh⟩
  · intro hwhole
    obtain ⟨ht, rfl⟩ | ⟨⟨hk, rfl⟩, hh⟩ := hwhole
    · exact Or.inl ⟨ht, rfl⟩
    · exact Or.inr ⟨⟨hh, hk⟩, rfl⟩

theorem ends_eq_nil {edge : Edge E} {v : VertexId} (ht : edge.tail ≠ v) (hh : edge.head ≠ v)
    (side : Side) : edge.ends v side = [] := by
  cases side <;> simp [ends, ht, hh]

theorem ends_all_eq_nil {edge : Edge E} {v : VertexId} :
    edge.ends v .all = [] ↔ edge.tail ≠ v ∧ edge.head ≠ v := by
  simp [ends]

end Edge

namespace Adjacency

/-- A list of edges with the vertices at their other ends; the second half keeps no order. -/
structure Lists (a : Adjacency) (occ : List (EdgeId × VertexId)) : Prop where
  edges : a.edges = occ.map Prod.fst
  neighbors : a.neighbors.Perm (occ.map Prod.snd)

theorem lists_empty : Lists {} [] := ⟨rfl, List.Perm.refl _⟩

theorem Lists.add {a : Adjacency} {occ : List (EdgeId × VertexId)} (h : a.Lists occ) (e : EdgeId)
    (u : VertexId) : (a.add e u).Lists (occ ++ [(e, u)]) := by
  constructor
  · rw [Adjacency.add, h.edges, List.map_append]
    rfl
  · rw [Adjacency.add, List.map_append]
    exact h.neighbors.append_right _

/-- The first entry of an edge is the one that goes, and with it some entry of its other end. -/
theorem Lists.remove {a : Adjacency} {occ rest : List (EdgeId × VertexId)} {e : EdgeId}
    {u : VertexId} (h : a.Lists (occ ++ (e, u) :: rest)) (he : e ∉ occ.map Prod.fst) :
    (a.remove e u).Lists (occ ++ rest) := by
  constructor
  · rw [Adjacency.remove, h.edges, List.map_append, List.map_cons, List.erase_append_right _ he,
      List.erase_cons_head, List.map_append]
  · have hn := h.neighbors
    rw [List.map_append, List.map_cons] at hn
    have hp := (hn.trans List.perm_middle).erase u
    rw [List.erase_cons_head, ← List.map_append] at hp
    exact hp

end Adjacency

namespace Vertex

variable {V : Type}

theorem list_attach (x : Vertex V) (e : EdgeId) (u : VertexId) (r : Roles) (side : Side) :
    (x.attach e u r).list side = if r.has side then (x.list side).add e u else x.list side := by
  cases side <;> rfl

theorem list_detach (x : Vertex V) (e : EdgeId) (u : VertexId) (r : Roles) (side : Side) :
    (x.detach e u r).list side = if r.has side then (x.list side).remove e u else x.list side := by
  cases side <;> rfl

/-- What adding an edge does at one vertex. -/
def attachEnds {E : Type} (x : Vertex V) (v : VertexId) (edge : Edge E) : Vertex V :=
  let x := if v = edge.tail then x.attach edge.id edge.head edge.kind.tailRoles else x
  if v = edge.head then x.attach edge.id edge.tail edge.kind.headRoles else x

/-- What removing an edge does at one vertex. -/
def detachEnds {E : Type} (x : Vertex V) (v : VertexId) (edge : Edge E) : Vertex V :=
  let x := if v = edge.tail then x.detach edge.id edge.head edge.kind.tailRoles else x
  if v = edge.head then x.detach edge.id edge.tail edge.kind.headRoles else x

theorem id_attachEnds {E : Type} (x : Vertex V) (v : VertexId) (edge : Edge E) :
    (x.attachEnds v edge).id = x.id := by
  rw [attachEnds]
  split <;> split <;> rfl

theorem id_detachEnds {E : Type} (x : Vertex V) (v : VertexId) (edge : Edge E) :
    (x.detachEnds v edge).id = x.id := by
  rw [detachEnds]
  split <;> split <;> rfl

theorem lists_attachEnds {E : Type} {x : Vertex V} {side : Side} {occ : List (EdgeId × VertexId)}
    (h : (x.list side).Lists occ) (v : VertexId) (edge : Edge E) :
    ((x.attachEnds v edge).list side).Lists (occ ++ (edge.ends v side).map (edge.id, ·)) := by
  rw [edge.ends_eq_roles, List.map_append, ← List.append_assoc]
  have htail : ((if v = edge.tail then x.attach edge.id edge.head edge.kind.tailRoles
      else x).list side).Lists (occ ++ (if v = edge.tail ∧ edge.kind.tailRoles.has side = true
        then [edge.head] else []).map (edge.id, ·)) := by
    by_cases ht : v = edge.tail
    · rw [if_pos ht, list_attach]
      cases hr : edge.kind.tailRoles.has side
      · simpa using h
      · simpa [ht] using h.add edge.id edge.head
    · simpa [ht] using h
  unfold attachEnds
  by_cases hh : v = edge.head
  · dsimp only
    rw [if_pos hh, list_attach]
    cases hr : edge.kind.headRoles.has side
    · simpa using htail
    · simpa [hh] using htail.add edge.id edge.tail
  · simpa [hh] using htail

theorem lists_detachEnds {E : Type} {x : Vertex V} {side : Side} {v : VertexId} {edge : Edge E}
    {occ rest : List (EdgeId × VertexId)}
    (h : (x.list side).Lists (occ ++ (edge.ends v side).map (edge.id, ·) ++ rest))
    (he : edge.id ∉ occ.map Prod.fst) : ((x.detachEnds v edge).list side).Lists (occ ++ rest) := by
  rw [edge.ends_eq_roles, List.map_append, List.append_assoc, List.append_assoc] at h
  have htail : ((if v = edge.tail then x.detach edge.id edge.head edge.kind.tailRoles
      else x).list side).Lists (occ ++ ((if v = edge.head ∧ edge.kind.headRoles.has side = true
        then [edge.tail] else []).map (edge.id, ·) ++ rest)) := by
    by_cases ht : v = edge.tail
    · rw [if_pos ht, list_detach]
      cases hr : edge.kind.tailRoles.has side
      · simpa [hr] using h
      · exact Adjacency.Lists.remove (u := edge.head) (by simpa [ht, hr] using h) he
    · simpa [ht] using h
  unfold detachEnds
  by_cases hh : v = edge.head
  · dsimp only
    rw [if_pos hh, list_detach]
    cases hr : edge.kind.headRoles.has side
    · simpa [hr] using htail
    · exact Adjacency.Lists.remove (u := edge.tail) (by simpa [hh, hr] using htail) he
  · simpa [hh] using htail

end Vertex

namespace Graph

variable {V E : Type}

/-- The other ends with which a live edge stands in a list of `v`. -/
def endsAt (g : Graph V E) (v : VertexId) (side : Side) (e : EdgeId) : List VertexId :=
  match g.edges.get? e with
  | some edge => edge.ends v side
  | none => []

/-- A list of `v` written anew: every edge of `es` as often as it has ends there. -/
def occurrences (g : Graph V E) (es : List EdgeId) (v : VertexId) (side : Side) :
    List (EdgeId × VertexId) :=
  es.flatMap fun e => (g.endsAt v side e).map (e, ·)

theorem endsAt_of_get? {g : Graph V E} {e : EdgeId} {edge : Edge E} (h : g.edges.get? e = some edge)
    (v : VertexId) (side : Side) : g.endsAt v side e = edge.ends v side := by
  rw [endsAt, h]

theorem occurrences_append (g : Graph V E) (es fs : List EdgeId) (v : VertexId) (side : Side) :
    g.occurrences (es ++ fs) v side = g.occurrences es v side ++ g.occurrences fs v side :=
  List.flatMap_append

theorem occurrences_cons (g : Graph V E) (e : EdgeId) (es : List EdgeId) (v : VertexId)
    (side : Side) :
    g.occurrences (e :: es) v side = (g.endsAt v side e).map (e, ·) ++ g.occurrences es v side :=
  rfl

theorem occurrences_congr {g g' : Graph V E} {es : List EdgeId} {v : VertexId} {side : Side}
    (h : ∀ e ∈ es, g'.endsAt v side e = g.endsAt v side e) :
    g'.occurrences es v side = g.occurrences es v side := by
  rw [occurrences]
  refine List.flatMap_congr fun e he => ?_
  rw [h e he]

theorem occurrences_eq_nil {g : Graph V E} {es : List EdgeId} {v : VertexId} {side : Side}
    (h : ∀ e ∈ es, g.endsAt v side e = []) : g.occurrences es v side = [] := by
  refine List.flatMap_eq_nil_iff.mpr fun e he => ?_
  rw [h e he, List.map_nil]

theorem mem_occurrences {g : Graph V E} {es : List EdgeId} {v u : VertexId} {side : Side}
    {e : EdgeId} : (e, u) ∈ g.occurrences es v side ↔ e ∈ es ∧ u ∈ g.endsAt v side e := by
  simp only [occurrences, List.mem_flatMap, List.mem_map, Prod.mk.injEq]
  constructor
  · intro hwhole
    obtain ⟨d, hd, w, hw, rfl, rfl⟩ := hwhole
    exact ⟨hd, hw⟩
  · intro hwhole
    obtain ⟨he, hu⟩ := hwhole
    exact ⟨e, he, u, hu, rfl, rfl⟩

theorem mem_edges_occurrences {g : Graph V E} {es : List EdgeId} {v : VertexId} {side : Side}
    {e : EdgeId} :
    e ∈ (g.occurrences es v side).map Prod.fst ↔ e ∈ es ∧ ∃ u, u ∈ g.endsAt v side e := by
  simp only [List.mem_map, Prod.exists, mem_occurrences]
  constructor
  · intro hwhole
    obtain ⟨d, u, ⟨hd, hu⟩, rfl⟩ := hwhole
    exact ⟨hd, u, hu⟩
  · intro hwhole
    obtain ⟨he, u, hu⟩ := hwhole
    exact ⟨e, u, ⟨he, hu⟩, rfl⟩

end Graph

end Waymark
