import Mathlib.Data.List.TakeWhile
import Waymark.Proofs.Graph.Lookup
import Waymark.Proofs.Workspace.Request

namespace Waymark

/-! What is entered last in a list and taken out again -/

section Lists

variable {α : Type} [DecidableEq α]

/-- From its first `u` on, the list holds nothing else. -/
def ClosesWith (u : α) (l : List α) : Prop := ∀ w ∈ l.dropWhile (· ≠ u), w = u

theorem ClosesWith.of_not_mem {u : α} {l : List α} (h : u ∉ l) : ClosesWith u l := by
  intro w hw
  have hnil : l.dropWhile (· ≠ u) = [] := by
    refine List.dropWhile_eq_nil_iff.mpr fun x hx => ?_
    have hne : x ≠ u := fun heq => h (heq ▸ hx)
    simpa using hne
  rw [hnil] at hw
  cases hw

omit [DecidableEq α] in
theorem append_singleton_eq_cons {u : α} {l : List α} : l ++ [u] = u :: l ↔ ∀ w ∈ l, w = u := by
  induction l with
  | nil => simp
  | cons a l ih =>
    rw [List.cons_append, List.cons.injEq, List.forall_mem_cons]
    refine and_congr_right fun ha => ?_
    rw [ha]
    exact ih

/-- If `u` was there before, its first entry goes instead of the last one. -/
theorem erase_append_singleton (u : α) (l : List α) :
    (l ++ [u]).erase u = if u ∈ l then l.erase u ++ [u] else l := by
  split
  · exact List.erase_append_left [u] ‹_›
  · rw [List.erase_append_right [u] ‹_›, List.erase_cons_head, List.append_nil]

theorem erase_append_singleton_eq {u : α} {l : List α} :
    (l ++ [u]).erase u = l ↔ ClosesWith u l := by
  induction l with
  | nil => simp [ClosesWith]
  | cons a l ih =>
    by_cases ha : a = u
    · rw [ha, List.cons_append, List.erase_cons_head, append_singleton_eq_cons, ClosesWith,
        List.dropWhile_cons_of_neg (by simp), List.forall_mem_cons]
      exact ⟨fun h => ⟨rfl, h⟩, fun h => h.2⟩
    · rw [List.cons_append, List.erase_cons_tail (by simpa using ha), List.cons.injEq, ClosesWith,
        List.dropWhile_cons_of_pos (by simpa using ha)]
      exact ⟨fun h => ih.mp h.2, fun h => ⟨rfl, ih.mpr h⟩⟩

theorem foldl_erase_append {us l : List α} (h : ∀ u ∈ us, u ∉ l) :
    us.foldl List.erase (l ++ us) = l := by
  induction us with
  | nil => exact List.append_nil l
  | cons u us ih =>
    have hu := h u List.mem_cons_self
    rw [List.foldl_cons, List.erase_append_right _ hu, List.erase_cons_head]
    exact ih fun w hw => h w (List.mem_cons_of_mem u hw)

end Lists

namespace Adjacency

variable (a : Adjacency) (e : EdgeId) (us : List VertexId)

theorem edges_foldl_add : (us.foldl (·.add e) a).edges = a.edges ++ us.map fun _ => e := by
  induction us generalizing a with
  | nil => simp
  | cons u us ih => simp [ih, Adjacency.add]

theorem neighbors_foldl_add : (us.foldl (·.add e) a).neighbors = a.neighbors ++ us := by
  induction us generalizing a with
  | nil => simp
  | cons u us ih => simp [ih, Adjacency.add]

theorem edges_foldl_remove :
    (us.foldl (·.remove e) a).edges = (us.map fun _ => e).foldl List.erase a.edges := by
  induction us generalizing a with
  | nil => rfl
  | cons u us ih => exact ih (a.remove e u)

theorem neighbors_foldl_remove :
    (us.foldl (·.remove e) a).neighbors = us.foldl List.erase a.neighbors := by
  induction us generalizing a with
  | nil => rfl
  | cons u us ih => exact ih (a.remove e u)

end Adjacency

namespace Vertex

variable {V E : Type} (x : Vertex V)

theorem list_ite_attach (p : Prop) [Decidable p] (e : EdgeId) (u : VertexId) (r : Roles)
    (side : Side) : (if p then x.attach e u r else x).list side =
      (if p ∧ r.has side = true then [u] else []).foldl (·.add e) (x.list side) := by
  by_cases hp : p <;> cases hr : r.has side <;> simp [hp, hr, list_attach]

theorem list_ite_detach (p : Prop) [Decidable p] (e : EdgeId) (u : VertexId) (r : Roles)
    (side : Side) : (if p then x.detach e u r else x).list side =
      (if p ∧ r.has side = true then [u] else []).foldl (·.remove e) (x.list side) := by
  by_cases hp : p <;> cases hr : r.has side <;> simp [hp, hr, list_detach]

theorem list_attachEnds (v : VertexId) (edge : Edge E) (side : Side) :
    (x.attachEnds v edge).list side = (edge.ends v side).foldl (·.add edge.id) (x.list side) := by
  rw [edge.ends_eq_roles, List.foldl_append, ← list_ite_attach, ← list_ite_attach, attachEnds]

theorem list_detachEnds (v : VertexId) (edge : Edge E) (side : Side) :
    (x.detachEnds v edge).list side =
      (edge.ends v side).foldl (·.remove edge.id) (x.list side) := by
  rw [edge.ends_eq_roles, List.foldl_append, ← list_ite_detach, ← list_ite_detach, detachEnds]

/-- Entering an edge and taking it out again leaves the other entries of edges alone. -/
theorem edges_detachEnds_attachEnds {v : VertexId} {edge : Edge E} {side : Side}
    (he : edge.id ∉ (x.list side).edges) :
    (((x.attachEnds v edge).detachEnds v edge).list side).edges = (x.list side).edges := by
  rw [list_detachEnds, list_attachEnds, Adjacency.edges_foldl_remove, Adjacency.edges_foldl_add]
  refine foldl_erase_append fun d hd => ?_
  obtain ⟨u, _, rfl⟩ := List.mem_map.mp hd
  exact he

theorem neighbors_detachEnds_attachEnds (v : VertexId) (edge : Edge E) (side : Side) :
    (((x.attachEnds v edge).detachEnds v edge).list side).neighbors =
      (edge.ends v side).foldl List.erase ((x.list side).neighbors ++ edge.ends v side) := by
  rw [list_detachEnds, list_attachEnds, Adjacency.neighbors_foldl_remove,
    Adjacency.neighbors_foldl_add]

/-- Nothing but the lists is concerned. -/
theorem rest_detachEnds_attachEnds (v : VertexId) (edge : Edge E) :
    let y := (x.attachEnds v edge).detachEnds v edge
    y.id = x.id ∧ y.data = x.data ∧ y.slots = x.slots := by
  dsimp only
  rw [attachEnds, detachEnds]
  split <;> split <;> exact ⟨rfl, rfl, rfl⟩

end Vertex

namespace Edge

variable {E : Type} {edge : Edge E} {v u : VertexId} {side : Side}

/-- An edge between two vertices has one end at most in any list. -/
theorem ends_cases (hne : edge.tail ≠ edge.head) (v : VertexId) (side : Side) :
    edge.ends v side = [] ∨ (v = edge.tail ∧ edge.ends v side = [edge.head]) ∨
      v = edge.head ∧ edge.ends v side = [edge.tail] := by
  rw [ends_eq_roles]
  by_cases ht : v = edge.tail
  · have hh : v ≠ edge.head := ht ▸ hne
    cases hr : edge.kind.tailRoles.has side <;> simp [ht, hne]
  · by_cases hh : v = edge.head
    · cases hr : edge.kind.headRoles.has side <;> simp [hh, hne.symm]
    · simp [ht, hh]

/-- The ends at `v` are those from which the edge comes and those to which it goes. -/
theorem leads_of_mem_ends (hu : u ∈ edge.ends v side) :
    (side ≠ .incoming ∧ edge.leads v u = true) ∨ side ≠ .outgoing ∧ edge.leads u v = true := by
  cases side with
  | outgoing => exact Or.inl ⟨by decide, ends_outgoing_mem.mp hu⟩
  | incoming => exact Or.inr ⟨by decide, ends_incoming_mem.mp hu⟩
  | all =>
    simp only [ends, List.mem_append, List.mem_ite_nil_right, List.mem_singleton] at hu
    obtain ⟨ht, rfl⟩ | ⟨hh, rfl⟩ := hu
    · exact Or.inl ⟨by decide, by simp [leads, ht]⟩
    · exact Or.inr ⟨by decide, by simp [leads, hh]⟩

end Edge

namespace Graph

variable {V E : Type} {g : Graph V E} {es : List EdgeId}

theorem Mirrors.leads_of_mem_neighbors (h : g.Mirrors es) {v u : VertexId} {x : Vertex V}
    (hx : g.vertices.get? v = some x) {side : Side} (hu : u ∈ (x.list side).neighbors) :
    (side ≠ .incoming ∧ ∃ d, g.leads v u d = true) ∨
      side ≠ .outgoing ∧ ∃ d, g.leads u v d = true := by
  obtain ⟨p, hp, rfl⟩ := List.mem_map.mp ((h.lists hx side).neighbors.mem_iff.mp hu)
  obtain ⟨hd, hends⟩ := mem_occurrences.mp hp
  obtain ⟨edge, hedge⟩ := h.get?_of_mem hd
  rw [endsAt_of_get? hedge] at hends
  obtain ⟨hs, hl⟩ | ⟨hs, hl⟩ := Edge.leads_of_mem_ends hends
  · exact Or.inl ⟨hs, p.1, leads_iff.mpr ⟨edge, hedge, hl⟩⟩
  · exact Or.inr ⟨hs, p.1, leads_iff.mpr ⟨edge, hedge, hl⟩⟩

/-- What becomes of a list of `v` if an edge is added and removed at once. Nothing becomes of its
edges. Removal takes the first entry of the vertex at the other end, which need not be the one just
made: then that vertex moves to the end of the list. -/
structure Relisted (g : Graph V E) (edge : Edge E) (v : VertexId) (side : Side)
    (a b : Adjacency) : Prop where
  edges : b.edges = a.edges
  neighbors_perm : b.neighbors.Perm a.neighbors
  neighbors_iff : b.neighbors = a.neighbors ↔ ∀ u ∈ edge.ends v side, ClosesWith u a.neighbors
  moved : b.neighbors ≠ a.neighbors →
    edge.tail ≠ edge.head ∧ (∃ d, g.leads edge.head edge.tail d = true) ∧
      ((v = edge.tail ∧ side ≠ .outgoing ∧
          b.neighbors = a.neighbors.erase edge.head ++ [edge.head]) ∨
        v = edge.head ∧ side ≠ .incoming ∧
          b.neighbors = a.neighbors.erase edge.tail ++ [edge.tail])

namespace Relisted

variable {edge : Edge E} {v u : VertexId} {side : Side} {a b : Adjacency}

theorem of_not_mem (he : b.edges = a.edges)
    (hn : b.neighbors = (edge.ends v side).foldl List.erase (a.neighbors ++ edge.ends v side))
    (hnot : ∀ u ∈ edge.ends v side, u ∉ a.neighbors) : g.Relisted edge v side a b := by
  have hsame : b.neighbors = a.neighbors := hn.trans (foldl_erase_append hnot)
  refine ⟨he, ?_, ?_, fun hne => (hne hsame).elim⟩
  · rw [hsame]
  · exact ⟨fun _ u hu => .of_not_mem (hnot u hu), fun _ => hsame⟩

theorem of_singleton (he : b.edges = a.edges) (hends : edge.ends v side = [u])
    (hn : b.neighbors = (a.neighbors ++ [u]).erase u)
    (hmoved : u ∈ a.neighbors → edge.tail ≠ edge.head ∧
      (∃ d, g.leads edge.head edge.tail d = true) ∧
        ((v = edge.tail ∧ side ≠ .outgoing ∧ u = edge.head) ∨
          v = edge.head ∧ side ≠ .incoming ∧ u = edge.tail)) : g.Relisted edge v side a b := by
  refine ⟨he, ?_, ?_, fun hne => ?_⟩
  · rw [hn]
    have hperm : (a.neighbors ++ [u]).Perm (u :: a.neighbors) := List.perm_append_comm
    have herase := hperm.erase u
    rwa [List.erase_cons_head] at herase
  · rw [hn, hends, erase_append_singleton_eq]
    simp
  · have hu : u ∈ a.neighbors := by
      by_contra hnot
      rw [hn, erase_append_singleton, if_neg hnot] at hne
      exact hne rfl
    rw [erase_append_singleton, if_pos hu] at hn
    obtain ⟨hloop, hback, ⟨hv, hs, rfl⟩ | ⟨hv, hs, rfl⟩⟩ := hmoved hu
    · exact ⟨hloop, hback, Or.inl ⟨hv, hs, hn⟩⟩
    · exact ⟨hloop, hback, Or.inr ⟨hv, hs, hn⟩⟩

end Relisted

/-- An edge is only added where none leads, so a vertex that stands in a list already stands there
for an edge that leads back. -/
theorem Mirrors.relisted (h : g.Mirrors es) {edge : Edge E} (hfresh : edge.id ∉ es)
    (hnone : ∀ d, g.leads edge.tail edge.head d = false) {v : VertexId} {x : Vertex V}
    (hx : g.vertices.get? v = some x) (side : Side) :
    g.Relisted edge v side (x.list side)
      (((x.attachEnds v edge).detachEnds v edge).list side) := by
  have hno {d : EdgeId} (hd : g.leads edge.tail edge.head d = true) : False := by
    rw [hnone] at hd
    cases hd
  have he : edge.id ∉ (x.list side).edges := by
    rw [(h.lists hx side).edges, mem_edges_occurrences]
    exact fun hmem => hfresh hmem.1
  have hedges := x.edges_detachEnds_attachEnds (v := v) he
  have hneighbors := x.neighbors_detachEnds_attachEnds v edge side
  by_cases hloop : edge.tail = edge.head
  · refine .of_not_mem hedges hneighbors fun u hu hmem => ?_
    obtain ⟨rfl, rfl⟩ : u = edge.head ∧ v = edge.head := by
      rw [Edge.ends_eq_roles, hloop] at hu
      simp only [List.mem_append, List.mem_ite_nil_right, List.mem_singleton] at hu
      obtain ⟨⟨hv, _⟩, hu⟩ | ⟨⟨hv, _⟩, hu⟩ := hu <;> exact ⟨hu, hv⟩
    rw [hloop] at hno
    obtain ⟨_, d, hd⟩ | ⟨_, d, hd⟩ := h.leads_of_mem_neighbors hx hmem <;> exact hno hd
  · obtain hnil | ⟨rfl, hends⟩ | ⟨rfl, hends⟩ := Edge.ends_cases hloop v side
    · refine .of_not_mem hedges hneighbors fun u hu => ?_
      rw [hnil] at hu
      cases hu
    · rw [hends] at hneighbors
      refine .of_singleton hedges hends hneighbors fun hmem => ⟨hloop, ?_⟩
      obtain ⟨_, d, hd⟩ | ⟨hs, hback⟩ := h.leads_of_mem_neighbors hx hmem
      · exact (hno hd).elim
      · exact ⟨hback, Or.inl ⟨rfl, hs, rfl⟩⟩
    · rw [hends] at hneighbors
      refine .of_singleton hedges hends hneighbors fun hmem => ⟨hloop, ?_⟩
      obtain ⟨hs, hback⟩ | ⟨_, d, hd⟩ := h.leads_of_mem_neighbors hx hmem
      · exact ⟨hback, Or.inr ⟨rfl, hs, rfl⟩⟩
      · exact (hno hd).elim

theorem channels_removeEdge {g' : Graph V E} {e : EdgeId} {data : E}
    (h : g.removeEdge e = .ok (data, g')) : g'.channels = g.channels := by
  obtain ⟨_, _, _, _, rfl⟩ := removeEdge_eq_ok h
  rfl

/-- A new edge can be removed at once, and every vertex then is what entering the edge and taking it
out again makes of it. -/
theorem Mirrors.removeEdge_addEdge (h : g.Mirrors es) {tail head : VertexId}
    (ht : g.vertices.contains tail = true) (hh : g.vertices.contains head = true) (kind : EdgeKind)
    (data : E) :
    let edge : Edge E := { id := g.edges.nextId, tail, head, kind, data }
    (g.addEdge tail head kind data).2.edge edge.id = .ok edge ∧
      ∃ g', (g.addEdge tail head kind data).2.removeEdge edge.id = .ok (data, g') ∧
        (∀ d, g'.edge d = g.edge d) ∧
        ∀ v, g'.vertices.get? v =
          (g.vertices.get? v).map fun x => (x.attachEnds v edge).detachEnds v edge := by
  intro edge
  have hget (d : EdgeId) : (g.addEdge tail head kind data).2.edges.get? d =
      if d = edge.id then some edge else g.edges.get? d := by
    rw [edges_addEdge, Arena.get?_insertWith h.edges_valid]
  have hedge : (g.addEdge tail head kind data).2.edges.get? edge.id = some edge := by
    rw [hget, if_pos rfl]
  obtain ⟨g', hok, _, hvertices, hedges⟩ := (h.addEdge ht hh kind data).removeEdge hedge
  refine ⟨edge_eq_ok.mpr hedge, g', hok, fun d => ?_, fun v => ?_⟩
  · have hsame : g'.edges.get? d = g.edges.get? d := by
      rw [hedges, hget]
      by_cases hd : d = edge.id
      · rw [if_pos hd, hd, Arena.get?_nextId h.edges_valid]
      · rw [if_neg hd, if_neg hd]
    rw [Graph.edge, Graph.edge, hsame]
  · rw [hvertices, get?_addEdge, Option.map_map]
    rfl

end Graph

namespace Workspace

variable {V E κ : Type} [Cost κ] {w : Workspace V E κ}

/-- An edge that is added and removed at once leaves no trace but the order of neighbors, and that
only in lists of its own ends, if an edge leads back and something else stands behind it. -/
theorem Reachable.link_removeEdge (h : w.Reachable) {tail head : VertexId} {kind : EdgeKind}
    {data : E} {e : EdgeId} {g : Graph V E} (hl : w.graph.link tail head kind data = .ok (e, g))
    (hnew : w.graph.edges.contains e = false) :
    ∃ edge g', g.edge e = .ok edge ∧
      (edge.tail = tail ∧ edge.head = head ∧ edge.kind = kind ∧ edge.data = data) ∧
      g.removeEdge e = .ok (data, g') ∧ g'.channels = w.graph.channels ∧
      (∀ d, g'.edge d = w.graph.edge d) ∧
      (∀ v, g'.vertices.contains v = w.graph.vertices.contains v) ∧
      ∀ v x y, w.graph.vertex v = .ok x → g'.vertex v = .ok y →
        (y.id = x.id ∧ y.data = x.data ∧ y.slots = x.slots) ∧
          ∀ side, w.graph.Relisted edge v side (x.list side) (y.list side) := by
  obtain ⟨es, hm⟩ := h.sound.mirrors
  obtain ⟨ht, hh, ⟨hfound, _⟩ | ⟨hnone, hadd⟩⟩ := Graph.link_eq_ok hl
  · have hlive := Graph.findEdge?_mem hfound
    rw [← Arena.contains, hnew] at hlive
    cases hlive
  have he : e = w.graph.edges.nextId := by
    rw [← Graph.Mirrors.fst_addEdge w.graph tail head kind data, hadd]
  have hg : g = (w.graph.addEdge tail head kind data).2 := by rw [hadd]
  obtain ⟨hedge, g', hok, hedges, hvertices⟩ := hm.removeEdge_addEdge ht hh kind data
  rw [← hg, ← he] at hedge hok
  have hchannels : g.channels = w.graph.channels := by
    rw [hg]
    rfl
  refine ⟨_, g', hedge, ⟨rfl, rfl, rfl, rfl⟩, hok, (Graph.channels_removeEdge hok).trans hchannels,
    hedges, fun v => ?_, fun v x y hx hy => ?_⟩
  · rw [Arena.contains, hvertices, Option.isSome_map, ← Arena.contains]
  · rw [Graph.vertex_eq_ok] at hx hy
    rw [hvertices, hx] at hy
    have hy := Option.some.inj hy
    refine ⟨?_, fun side => ?_⟩
    · rw [← hy]
      exact x.rest_detachEnds_attachEnds v _
    · rw [← hy, he]
      refine hm.relisted hm.nextId_not_mem (fun d => ?_) hx side
      refine Bool.eq_false_iff.mpr fun hd => ?_
      obtain ⟨d', hfound⟩ := hm.findEdge?_isSome hd
      rw [hnone] at hfound
      cases hfound

/-- The lists of a vertex with edges to two others, after an edge back from the first one came and
went: the first has fallen behind the second. -/
theorem Reachable.link_removeEdge_reordered :
    ∃ (w : Workspace Unit Unit Float) (g g' : Graph Unit Unit), w.Reachable ∧
      w.graph.link ⟨1, 0⟩ ⟨0, 0⟩ .directed () = .ok (⟨2, 0⟩, g) ∧
      w.graph.edges.contains ⟨2, 0⟩ = false ∧ g.removeEdge ⟨2, 0⟩ = .ok ((), g') ∧
      (∀ d, g'.edge d = w.graph.edge d) ∧
      (w.graph.vertices.get? ⟨0, 0⟩).map (·.all.neighbors) = some [⟨1, 0⟩, ⟨2, 0⟩] ∧
      (g'.vertices.get? ⟨0, 0⟩).map (·.all.neighbors) = some [⟨2, 0⟩, ⟨1, 0⟩] := by
  let rs : List (Request Unit Unit Float) := [.addVertices [(), (), ()],
    .link ⟨0, 0⟩ ⟨1, 0⟩ .directed (), .link ⟨0, 0⟩ ⟨2, 0⟩ .directed ()]
  let w := rs.foldl obey {}
  have hreach : w.Reachable := ⟨rs, rfl⟩
  have hid : (w.graph.link ⟨1, 0⟩ ⟨0, 0⟩ .directed ()).map Prod.fst = .ok ⟨2, 0⟩ := by
    decide +kernel
  have hlast : ((w.graph.link ⟨1, 0⟩ ⟨0, 0⟩ .directed ()).bind fun p => p.2.removeEdge ⟨2, 0⟩).map
      (fun p => (p.2.vertices.get? ⟨0, 0⟩).map (·.all.neighbors)) =
        .ok (some [⟨2, 0⟩, ⟨1, 0⟩]) := by
    decide +kernel
  have hnew : w.graph.edges.contains ⟨2, 0⟩ = false := by decide +kernel
  have hbefore : (w.graph.vertices.get? ⟨0, 0⟩).map (·.all.neighbors) = some [⟨1, 0⟩, ⟨2, 0⟩] := by
    decide +kernel
  generalize w = w at hreach hid hlast hnew hbefore
  cases hl : w.graph.link ⟨1, 0⟩ ⟨0, 0⟩ .directed () with
  | error m =>
    rw [hl] at hid
    cases hid
  | ok p =>
    rw [hl] at hid hlast
    obtain ⟨e, g⟩ := p
    obtain rfl : e = ⟨2, 0⟩ := Except.ok.inj hid
    obtain ⟨edge, g', _, _, hok, _, hedges, _⟩ := hreach.link_removeEdge hl hnew
    rw [Except.bind, hok] at hlast
    exact ⟨w, g, g', hreach, hl, hnew, hok, hedges, hbefore, Except.ok.inj hlast⟩

end Workspace

end Waymark
