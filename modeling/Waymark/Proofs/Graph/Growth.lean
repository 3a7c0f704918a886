import Mathlib.Data.List.Nodup
import Waymark.Proofs.Graph.Mirror

namespace Waymark

theorem nodup_eraseDups {α : Type} [BEq α] [LawfulBEq α] (l : List α) : l.eraseDups.Nodup := by
  -- Each step filters the tail, so the induction is on the length.
  induction hn : l.length using Nat.strongRecOn generalizing l with
  | _ n ih =>
    cases l with
    | nil => simp
    | cons a as =>
      rw [List.eraseDups_cons]
      have hlen : (as.filter fun b => !b == a).length < n := by
        have := List.length_filter_le (fun b => !b == a) as
        rw [← hn, List.length_cons]
        omega
      refine List.nodup_cons.mpr ⟨?_, ih _ hlen _ rfl⟩
      simp

namespace Graph

variable {V E : Type}

/-! What an edit that goes through has done -/

section Inversion

variable {g g' : Graph V E} {v : VertexId} {e : EdgeId}

theorem setVertexData_eq_ok {data old : V} (h : g.setVertexData v data = .ok (old, g')) :
    ∃ x, g.vertices.get? v = some x ∧ old = x.data ∧
      g' = { g with vertices := g.vertices.modify v fun x => { x with data } } := by
  unfold setVertexData vertex at h
  cases hv : g.vertices.get? v with
  | none => simp [hv, bind, Except.bind] at h
  | some x =>
    simp only [hv, bind, Except.bind, pure, Except.pure] at h
    cases h
    exact ⟨x, rfl, rfl, rfl⟩

theorem setEdgeData_eq_ok {data old : E} (h : g.setEdgeData e data = .ok (old, g')) :
    ∃ x, g.edges.get? e = some x ∧ old = x.data ∧
      g' = { g with edges := g.edges.modify e fun x => { x with data } } := by
  unfold setEdgeData edge at h
  cases he : g.edges.get? e with
  | none => simp [he, bind, Except.bind] at h
  | some x =>
    simp only [he, bind, Except.bind, pure, Except.pure] at h
    cases h
    exact ⟨x, rfl, rfl, rfl⟩

theorem removeEdge_eq_ok {data : E} (h : g.removeEdge e = .ok (data, g')) :
    ∃ edge edges, g.edges.erase? e = some (edge, edges) ∧ data = edge.data ∧
      g' = { g with
        edges
        vertices := (g.vertices.modify edge.tail
          (·.detach e edge.head edge.kind.tailRoles)).modify edge.head
            (·.detach e edge.tail edge.kind.headRoles) } := by
  rw [removeEdge] at h
  split at h
  · rename_i edge edges herase
    cases h
    exact ⟨edge, edges, herase, rfl, rfl⟩
  · cases h

theorem removeVertexAlong_eq_ok {order : List EdgeId} {data : V}
    (h : g.removeVertexAlong order v = .ok (data, g')) :
    ∃ g₁ x vertices, g.removeEdges order = .ok g₁ ∧
      g₁.vertices.erase? v = some (x, vertices) ∧ data = x.data ∧ g' = { g₁ with vertices } := by
  rw [removeVertexAlong] at h
  cases ho : g.removeEdges order with
  | error m =>
    rw [ho] at h
    cases h
  | ok g₁ =>
    simp only [ho, bind, Except.bind] at h
    split at h
    · rename_i x vertices herase
      cases h
      exact ⟨g₁, x, vertices, rfl, herase, rfl, rfl⟩
    · cases h

end Inversion

namespace Mirrors

variable {g : Graph V E} {es : List EdgeId}

theorem mem_incident (h : g.Mirrors es) {v : VertexId} {x : Vertex V}
    (hx : g.vertices.get? v = some x) {e : EdgeId} :
    e ∈ x.incident ↔ ∃ edge, g.edges.get? e = some edge ∧ (edge.tail = v ∨ edge.head = v) := by
  have hedges : x.all.edges = (g.occurrences es v .all).map Prod.fst := (h.lists hx .all).edges
  rw [Vertex.incident, List.mem_eraseDups, hedges, mem_edges_occurrences]
  constructor
  · intro hwhole
    obtain ⟨he, u, hu⟩ := hwhole
    obtain ⟨edge, hedge⟩ := h.get?_of_mem he
    rw [endsAt_of_get? hedge] at hu
    refine ⟨edge, hedge, ?_⟩
    by_contra hne
    rw [not_or] at hne
    rw [Edge.ends_all_eq_nil.mpr hne] at hu
    cases hu
  · intro hwhole
    obtain ⟨edge, hedge, hv⟩ := hwhole
    refine ⟨h.mem_of_get? hedge, List.exists_mem_of_ne_nil _ ?_⟩
    rw [endsAt_of_get? hedge]
    intro hnil
    have hne := Edge.ends_all_eq_nil.mp hnil
    exact hv.elim hne.1 hne.2

/-- Live edges can be removed in any order, and no removal fails. -/
theorem removeEdges (h : g.Mirrors es) {order : List EdgeId} (hn : order.Nodup)
    (hlive : ∀ e ∈ order, e ∈ es) :
    ∃ g', g.removeEdges order = .ok g' ∧ g'.Mirrors (es.filter (· ∉ order)) ∧
      (∀ v, (g'.vertices.get? v).map Vertex.data = (g.vertices.get? v).map Vertex.data) ∧
      ∀ d, g'.edges.get? d = if d ∈ order then none else g.edges.get? d := by
  induction order generalizing g es with
  | nil => exact ⟨g, rfl, by simpa using h, fun _ => rfl, fun d => by simp⟩
  | cons e rest ih =>
    have hn := List.nodup_cons.mp hn
    obtain ⟨edge, hedge⟩ := h.get?_of_mem (hlive e List.mem_cons_self)
    obtain ⟨g₁, hok, hm, hv, hd⟩ := h.removeEdge hedge
    have hrest : ∀ d ∈ rest, d ∈ es.erase e := by
      intro d hmem
      have hne : d ≠ e := fun heq => hn.1 (heq ▸ hmem)
      exact (List.mem_erase_of_ne hne).mpr (hlive d (List.mem_cons_of_mem e hmem))
    obtain ⟨g₂, hok', hm', hv', hd'⟩ := ih hm hn.2 hrest
    refine ⟨g₂, ?_, ?_, ?_, ?_⟩
    · rw [Graph.removeEdges, List.foldlM_cons, hok]
      exact hok'
    · have hfilter : (es.erase e).filter (· ∉ rest) = es.filter (· ∉ e :: rest) := by
        rw [h.nodup.erase_eq_filter, List.filter_filter]
        refine List.filter_congr fun d _ => ?_
        by_cases hde : d = e <;> by_cases hdr : d ∈ rest <;> simp [hde, hdr]
      rw [← hfilter]
      exact hm'
    · intro v
      rw [hv', hv, Option.map_map]
      congr 1
      funext x
      simp only [Function.comp, Vertex.detachEnds]
      split <;> split <;> rfl
    · intro d
      rw [hd', hd]
      by_cases hde : d = e <;> by_cases hdr : d ∈ rest <;> simp [hde, hdr]

/-- A vertex is removed with its edges, whatever the order in which they go. -/
theorem removeVertexAlong (h : g.Mirrors es) {v : VertexId} {x : Vertex V}
    (hx : g.vertices.get? v = some x) {order : List EdgeId} (ho : order.Perm x.incident) :
    ∃ g', g.removeVertexAlong order v = .ok (x.data, g') ∧
      g'.Mirrors (es.filter (· ∉ order)) ∧
      ∀ d, g'.edges.get? d = if d ∈ order then none else g.edges.get? d := by
  have hinc {e : EdgeId} : e ∈ order ↔ _ := ho.mem_iff.trans (h.mem_incident hx)
  have hn : order.Nodup := ho.nodup_iff.mpr (nodup_eraseDups _)
  have hlive : ∀ e ∈ order, e ∈ es := by
    intro e he
    obtain ⟨edge, hedge, _⟩ := hinc.mp he
    exact h.mem_of_get? hedge
  obtain ⟨g₁, hok, hm, hv, hd⟩ := h.removeEdges hn hlive
  have hdata := hv v
  rw [hx] at hdata
  obtain ⟨y, hy, hyx⟩ := Option.map_eq_some_iff.mp hdata
  have herase : ∃ vertices, g₁.vertices.erase? v = some (y, vertices) := by
    rw [Arena.erase?, hy]
    exact ⟨_, rfl⟩
  obtain ⟨vertices, herase⟩ := herase
  have haway {d : EdgeId} {edge : Edge E} (hedge : g₁.edges.get? d = some edge) :
      edge.tail ≠ v ∧ edge.head ≠ v := by
    rw [hd] at hedge
    split at hedge
    · cases hedge
    · rename_i hnot
      exact ⟨fun ht => hnot (hinc.mpr ⟨edge, hedge, Or.inl ht⟩),
        fun hh => hnot (hinc.mpr ⟨edge, hedge, Or.inr hh⟩)⟩
  have hget := Arena.get?_erase? herase
  have hcontains {u : VertexId} (hne : u ≠ v) (hu : g₁.vertices.contains u = true) :
      vertices.contains u = true := by
    rw [Arena.contains_erase? herase]
    simp [hne, hu]
  refine ⟨{ g₁ with vertices }, ?_, ?_, hd⟩
  · simp only [Graph.removeVertexAlong, hok, bind, Except.bind, herase, pure, Except.pure]
    rw [hyx]
  · refine ⟨Arena.valid_erase? hm.vertices_valid herase, hm.edges_valid, ?_, hm.edge_id, hm.nodup,
      hm.mem_iff, fun he => hcontains (haway he).1 (hm.tail_live he),
      fun he => hcontains (haway he).2 (hm.head_live he), ?_⟩
    · intro u z hz
      rw [hget] at hz
      split at hz
      · cases hz
      · exact hm.vertex_id hz
    · intro u z hz side
      rw [hget] at hz
      split at hz
      · cases hz
      · exact hm.lists hz side

theorem clear (h : g.Mirrors es) : g.clear.Mirrors [] where
  vertices_valid := Arena.valid_clear h.vertices_valid
  edges_valid := Arena.valid_clear h.edges_valid
  vertex_id hx := by simp [Graph.clear, Arena.get?_clear] at hx
  edge_id he := by simp [Graph.clear, Arena.get?_clear] at he
  nodup := List.nodup_nil
  mem_iff := by simp [Graph.clear, Arena.contains, Arena.get?_clear]
  tail_live he := by simp [Graph.clear, Arena.get?_clear] at he
  head_live he := by simp [Graph.clear, Arena.get?_clear] at he
  lists hx := by simp [Graph.clear, Arena.get?_clear] at hx

theorem setVertexData (h : g.Mirrors es) {v : VertexId} {data old : V} {g' : Graph V E}
    (hs : g.setVertexData v data = .ok (old, g')) : g'.Mirrors es := by
  obtain ⟨_, _, _, rfl⟩ := setVertexData_eq_ok hs
  exact h.modifyVertex v (fun _ => rfl) fun _ side => by cases side <;> rfl

theorem setEdgeData (h : g.Mirrors es) {e : EdgeId} {data old : E} {g' : Graph V E}
    (hs : g.setEdgeData e data = .ok (old, g')) : g'.Mirrors es := by
  obtain ⟨_, _, _, rfl⟩ := setEdgeData_eq_ok hs
  exact h.modifyEdge e (fun _ => rfl) (fun _ => rfl) (fun _ => rfl) fun _ => rfl

end Mirrors

/-- A graph made by public edits from the empty one, with its live edges in order of creation. -/
inductive Grown : Graph V E → List EdgeId → Prop
  | empty : Grown {} []
  | addVertex {g : Graph V E} {es : List EdgeId} (h : Grown g es) (data : V) :
    Grown (g.addVertex data).2 es
  | setVertexData {g g' : Graph V E} {es : List EdgeId} {v : VertexId} {data old : V}
    (h : Grown g es) (hs : g.setVertexData v data = .ok (old, g')) : Grown g' es
  | setEdgeData {g g' : Graph V E} {es : List EdgeId} {e : EdgeId} {data old : E}
    (h : Grown g es) (hs : g.setEdgeData e data = .ok (old, g')) : Grown g' es
  /-- An edge that was there already keeps its place. -/
  | link {g g' : Graph V E} {es : List EdgeId} {tail head : VertexId} {kind : EdgeKind} {data : E}
    {e : EdgeId} (h : Grown g es) (hl : g.link tail head kind data = .ok (e, g')) :
    Grown g' (if e ∈ es then es else es ++ [e])
  | removeEdge {g g' : Graph V E} {es : List EdgeId} {e : EdgeId} {data : E} (h : Grown g es)
    (hr : g.removeEdge e = .ok (data, g')) : Grown g' (es.erase e)
  /-- The edges of a vertex go with it, in any order. -/
  | removeVertex {g g' : Graph V E} {es order : List EdgeId} {v : VertexId} {x : Vertex V}
    {data : V} (h : Grown g es) (hx : g.vertex v = .ok x) (ho : order.Perm x.incident)
    (hr : g.removeVertexAlong order v = .ok (data, g')) : Grown g' (es.filter g'.edges.contains)
  | clear {g : Graph V E} {es : List EdgeId} (h : Grown g es) : Grown g.clear []

theorem vertex_eq_ok {g : Graph V E} {v : VertexId} {x : Vertex V} :
    g.vertex v = .ok x ↔ g.vertices.get? v = some x := by
  rw [vertex]
  cases g.vertices.get? v <;> simp

theorem edge_eq_ok {g : Graph V E} {e : EdgeId} {x : Edge E} :
    g.edge e = .ok x ↔ g.edges.get? e = some x := by
  rw [edge]
  cases g.edges.get? e <;> simp

theorem Grown.mirrors {g : Graph V E} {es : List EdgeId} (h : g.Grown es) : g.Mirrors es := by
  induction h with
  | empty => exact Mirrors.empty
  | addVertex _ data ih => exact ih.addVertex data
  | setVertexData _ hs ih => exact ih.setVertexData hs
  | setEdgeData _ hs ih => exact ih.setEdgeData hs
  | link _ hl ih => exact ih.link hl
  | @removeEdge g g' es e data _ hr ih =>
    obtain ⟨edge, _, herase, _⟩ := removeEdge_eq_ok hr
    obtain ⟨g₁, hok, hm, _⟩ := ih.removeEdge (Arena.erase?_eq_some herase)
    rw [hok] at hr
    cases hr
    exact hm
  | @removeVertex g g' es order v x data _ hx ho hr ih =>
    obtain ⟨g₁, hok, hm, hd⟩ := ih.removeVertexAlong (vertex_eq_ok.mp hx) ho
    rw [hok] at hr
    cases hr
    have hlive : es.filter g'.edges.contains = es.filter (· ∉ order) := by
      refine List.filter_congr fun e he => ?_
      obtain ⟨edge, hedge⟩ := ih.get?_of_mem he
      rw [Arena.contains, hd, hedge]
      by_cases hmem : e ∈ order <;> simp [hmem]
    rw [hlive]
    exact hm
  | clear _ ih => exact ih.clear

/-- The live edges in order of creation tell all three lists of every vertex: the edges with their
order, the vertices at the other ends as multisets. No live edge hangs in the air. -/
theorem Grown.lists_exact {g : Graph V E} {es : List EdgeId} (h : g.Grown es) :
    es.Nodup ∧ (∀ e, e ∈ es ↔ ∃ edge, g.edge e = .ok edge) ∧
      (∀ e edge, g.edge e = .ok edge →
        (∃ x, g.vertex edge.tail = .ok x) ∧ ∃ y, g.vertex edge.head = .ok y) ∧
      ∀ v x, g.vertex v = .ok x → ∀ side,
        (x.list side).edges = (g.occurrences es v side).map Prod.fst ∧
          (x.list side).neighbors.Perm ((g.occurrences es v side).map Prod.snd) := by
  have hm := h.mirrors
  have hlive {v : VertexId} (hv : g.vertices.contains v = true) : ∃ x, g.vertex v = .ok x := by
    obtain ⟨x, hx⟩ := Arena.contains_iff.mp hv
    exact ⟨x, vertex_eq_ok.mpr hx⟩
  refine ⟨hm.nodup, fun e => ?_, fun e edge he => ?_, fun v x hx side => ?_⟩
  · simp only [hm.mem_iff, Arena.contains_iff, edge_eq_ok]
  · have hedge := edge_eq_ok.mp he
    exact ⟨hlive (hm.tail_live hedge), hlive (hm.head_live hedge)⟩
  · have hl := hm.lists (vertex_eq_ok.mp hx) side
    exact ⟨hl.edges, hl.neighbors⟩

/-- A loop stands twice in the list of all edges and once in either other list; a bidirectional edge
added to it stands in all three. -/
theorem Grown.lists_exact_loop : ∃ (g : Graph Unit Unit) (x : Vertex Unit),
    g.Grown [⟨0, 0⟩, ⟨1, 0⟩] ∧ g.vertex ⟨0, 0⟩ = .ok x ∧
      (∀ side, (x.list side).edges =
        (g.occurrences [⟨0, 0⟩, ⟨1, 0⟩] ⟨0, 0⟩ side).map Prod.fst) ∧
      x.all.edges = [⟨0, 0⟩, ⟨0, 0⟩, ⟨1, 0⟩] ∧ x.outgoing.edges = [⟨0, 0⟩, ⟨1, 0⟩] ∧
      x.incoming.edges = [⟨0, 0⟩, ⟨1, 0⟩] := by
  have h₀ : Grown (V := Unit) (E := Unit) _ [] := (Grown.empty.addVertex ()).addVertex ()
  have h₁ := h₀.link (show Graph.link _ ⟨0, 0⟩ ⟨0, 0⟩ .directed () = .ok (_, _) from rfl)
  have h₂ := h₁.link (show Graph.link _ ⟨1, 0⟩ ⟨0, 0⟩ .bidirectional () = .ok (_, _) from rfl)
  exact ⟨_, _, h₂, rfl, fun side => ((Grown.lists_exact h₂).2.2.2 _ _ rfl side).1, rfl, rfl, rfl⟩

end Graph

end Waymark
