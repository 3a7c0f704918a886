import Waymark.Proofs.Arena.Map
import Waymark.Proofs.Graph.Count
import Waymark.Proofs.Graph.Unlink

namespace Waymark

/-- Erasing what a filter takes out anyway is not seen behind it. -/
theorem filter_erase_of_neg {α : Type} [BEq α] [LawfulBEq α] {p : α → Bool} {a : α}
    (ha : p a = false) (l : List α) : (l.erase a).filter p = l.filter p := by
  rw [← List.erase_filter]
  refine List.erase_of_not_mem fun hmem => ?_
  rw [List.of_mem_filter hmem] at ha
  cases ha

namespace Adjacency

/-- The list without the edges `gone` and without the vertex `v`. -/
def without (a : Adjacency) (v : VertexId) (gone : List EdgeId) : Adjacency :=
  ⟨a.edges.filter (!gone.contains ·), a.neighbors.filter (· ≠ v)⟩

theorem without_remove (a : Adjacency) {e : EdgeId} {gone : List EdgeId} (he : e ∈ gone)
    (v : VertexId) : (a.remove e v).without v gone = a.without v gone := by
  rw [without, without, remove]
  rw [filter_erase_of_neg (by simpa using he), filter_erase_of_neg (by simp)]

end Adjacency

namespace Vertex

variable {V E : Type}

/-- The vertex as it is once `v` has gone with its edges. -/
def without (x : Vertex V) (v : VertexId) (gone : List EdgeId) : Vertex V :=
  { x with
    all := x.all.without v gone
    incoming := x.incoming.without v gone
    outgoing := x.outgoing.without v gone }

theorem without_detach (x : Vertex V) {e : EdgeId} {gone : List EdgeId} (he : e ∈ gone)
    (v : VertexId) (r : Roles) : (x.detach e v r).without v gone = x.without v gone := by
  obtain ⟨outgoing, incoming⟩ := r
  cases outgoing <;> cases incoming <;> simp [without, detach, Adjacency.without_remove _ he]

/-- At another vertex than `v` only what stands there for `v` is taken out of the lists with an edge
of `v`. -/
theorem without_detachEnds (x : Vertex V) {u v : VertexId} (hu : u ≠ v) {edge : Edge E}
    {gone : List EdgeId} (he : edge.id ∈ gone) (hv : edge.tail = v ∨ edge.head = v) :
    (x.detachEnds u edge).without v gone = x.without v gone := by
  rw [detachEnds]
  obtain ht | hh := hv
  · rw [ht, if_neg hu]
    split
    · exact x.without_detach he v _
    · rfl
  · rw [hh]
    simp only [if_neg hu]
    split
    · exact x.without_detach he v _
    · rfl

end Vertex

namespace Arena

variable {s : Element} {α : Type}

/-- The arena after some occupied slots have been emptied, one after another. -/
def vacated (a : Arena s α) (order : List (ElementId s)) : Arena s α where
  slots := order.foldl (fun slots id => slots.modify id.index Slot.vacate) a.slots
  free := (order.map ElementId.index).reverse ++ a.free
  size := a.size - order.length

theorem vacated_of_erase? {a a' : Arena s α} {id : ElementId s} {x : α}
    (h : a.erase? id = some (x, a')) (order : List (ElementId s)) :
    a'.vacated order = a.vacated (id :: order) := by
  rw [erase?] at h
  obtain ⟨y, _, heq⟩ := Option.map_eq_some_iff.mp h
  rw [← (Prod.mk.inj heq).2, vacated, vacated, List.foldl_cons]
  simp only [Arena.mk.injEq, true_and]
  refine ⟨by simp, ?_⟩
  rw [List.length_cons]
  omega

/-- The order in which slots are emptied shows in nothing but the order in which they are free. -/
theorem vacated_perm (a : Arena s α) {order order' : List (ElementId s)} (h : order.Perm order') :
    a.vacated order =
      { a.vacated order' with free := (order.map ElementId.index).reverse ++ a.free } := by
  have hslots := h.foldl_eq' (f := fun slots id => slots.modify id.index Slot.vacate)
    (fun i _ j _ slots => by
      refine Array.ext_getElem? fun k => ?_
      simp only [Array.getElem?_modify]
      split <;> split <;> rfl) a.slots
  rw [vacated, vacated, hslots, h.length_eq]

end Arena

namespace Graph

variable {V E : Type} {g g' : Graph V E} {es order : List EdgeId} {v : VertexId}

/-- What an edge leaves behind on its way out, as far as slots go. -/
theorem removeEdges_slots (h : g.removeEdges order = .ok g') :
    g'.edges = g.edges.vacated order ∧ g'.channels = g.channels ∧
      g'.vertices.shape = g.vertices.shape := by
  induction order generalizing g with
  | nil =>
    cases h
    exact ⟨rfl, rfl, rfl⟩
  | cons e rest ih =>
    obtain ⟨data, g₁, he, hrest⟩ := removeEdges_cons_eq_ok h
    obtain ⟨edge, edges, herase, _, rfl⟩ := removeEdge_eq_ok he
    obtain ⟨hedges, hchannels, hshape⟩ := ih hrest
    refine ⟨hedges.trans (Arena.vacated_of_erase? herase rest), hchannels, hshape.trans ?_⟩
    exact (Arena.shape_modify _ edge.head _).trans (Arena.shape_modify _ edge.tail _)

namespace Mirrors

/-- However far the edges of `v` have been removed, another vertex is as it was but for what stands
in its lists for `v`. -/
theorem removeEdges_without (h : g.Mirrors es) {gone : List EdgeId} (hn : order.Nodup)
    (hgone : ∀ e ∈ order, e ∈ gone)
    (hv : ∀ e ∈ order, ∃ edge, g.edges.get? e = some edge ∧ (edge.tail = v ∨ edge.head = v))
    (hr : g.removeEdges order = .ok g') {u : VertexId} (hu : u ≠ v) :
    (g'.vertices.get? u).map (·.without v gone) = (g.vertices.get? u).map (·.without v gone) := by
  induction order generalizing g es with
  | nil =>
    cases hr
    rfl
  | cons e rest ih =>
    obtain ⟨hfresh, hn⟩ := List.nodup_cons.mp hn
    obtain ⟨edge, hedge, hends⟩ := hv e (.head rest)
    obtain ⟨g₁, hok, hm, hvertices, hedges⟩ := h.removeEdge hedge
    have hrest := hr
    rw [Graph.removeEdges, List.foldlM_cons, hok] at hrest
    have hlater : ∀ d ∈ rest, ∃ edge, g₁.edges.get? d = some edge ∧
        (edge.tail = v ∨ edge.head = v) := by
      intro d hd
      have hne : d ≠ e := fun heq => hfresh (heq ▸ hd)
      rw [hedges, if_neg hne]
      exact hv d (.tail e hd)
    rw [ih hm hn (fun d hd => hgone d (.tail e hd)) hlater hrest, hvertices, Option.map_map]
    congr 1
    funext x
    refine x.without_detachEnds hu ?_ hends
    rw [h.edge_id hedge]
    exact hgone e (.head rest)

/-- Where no live edge is among those `gone` and none touches `v`, nothing stands in the lists for
them. -/
theorem without_eq (h : g.Mirrors es) {gone : List EdgeId}
    (haway : ∀ e edge, g.edges.get? e = some edge → e ∉ gone ∧ edge.tail ≠ v ∧ edge.head ≠ v)
    {u : VertexId} {y : Vertex V} (hy : g.vertices.get? u = some y) : y.without v gone = y := by
  have hside (side : Side) : (y.list side).without v gone = y.list side := by
    have hedges : (y.list side).edges.filter (!gone.contains ·) = (y.list side).edges := by
      refine List.filter_eq_self.mpr fun e he => ?_
      rw [(h.lists hy side).edges, mem_edges_occurrences] at he
      obtain ⟨edge, hedge⟩ := h.get?_of_mem he.1
      simpa using (haway e edge hedge).1
    have hneighbors : (y.list side).neighbors.filter (· ≠ v) = (y.list side).neighbors := by
      refine List.filter_eq_self.mpr fun w hw => ?_
      have hleads := h.leads_of_mem_neighbors hy hw
      have hne {a b : VertexId} {d : EdgeId} (hd : g.leads a b d = true) : a ≠ v ∧ b ≠ v := by
        obtain ⟨edge, hedge, _⟩ := leads_iff.mp hd
        obtain ⟨_, htail, hhead⟩ := haway d edge hedge
        obtain ⟨rfl, rfl⟩ | ⟨_, rfl, rfl⟩ := leads_cases hedge hd
        · exact ⟨htail, hhead⟩
        · exact ⟨hhead, htail⟩
      obtain ⟨_, d, hd⟩ | ⟨_, d, hd⟩ := hleads
      · simpa using (hne hd).2
      · simpa using (hne hd).1
    rw [Adjacency.without, hedges, hneighbors]
  obtain ⟨id, data, all, incoming, outgoing, slots⟩ := y
  have hall : all.without v gone = all := hside .all
  have hincoming : incoming.without v gone = incoming := hside .incoming
  have houtgoing : outgoing.without v gone = outgoing := hside .outgoing
  rw [Vertex.without, hall, hincoming, houtgoing]

end Mirrors

/-- What is left when a vertex has gone with its edges. All else is as it was, but for what stood in
the lists of other vertices for them. -/
structure Without (g : Graph V E) (v : VertexId) (gone : List EdgeId) (g' : Graph V E) : Prop where
  vertex : ∀ u, g'.vertex u =
    if u = v then .error ⟨.vertex v⟩ else (g.vertex u).map (·.without v gone)
  edge : ∀ e, g'.edge e = if e ∈ gone then .error ⟨.edge e⟩ else g.edge e
  channels : g'.channels = g.channels
  vertexCount : g'.vertexCount + 1 = g.vertexCount
  edgeCount : g'.edgeCount + gone.length = g.edgeCount

namespace Mirrors

variable {x : Vertex V} {data : V}

/-- What the removal of a vertex comes to, element by element and slot by slot. -/
theorem removeVertexAlong_eq (h : g.Mirrors es) (hx : g.vertices.get? v = some x)
    (ho : order.Perm x.incident) (hr : g.removeVertexAlong order v = .ok (data, g')) :
    (∀ u, g'.vertices.get? u =
      if u = v then none else (g.vertices.get? u).map (·.without v x.incident)) ∧
      g'.edges = g.edges.vacated order ∧ g'.channels = g.channels ∧
      g.vertices.shape.erase? v = some ((), g'.vertices.shape) := by
  have hinc {e : EdgeId} : e ∈ order ↔ ∃ edge, g.edges.get? e = some edge ∧
      (edge.tail = v ∨ edge.head = v) := ho.mem_iff.trans (h.mem_incident hx)
  have hn : order.Nodup := ho.nodup_iff.mpr (nodup_eraseDups _)
  obtain ⟨g₁, y, vertices, hedges, herase, rfl, rfl⟩ := removeVertexAlong_eq_ok hr
  obtain ⟨hslots, hchannels, hshape⟩ := removeEdges_slots hedges
  have hlive : ∀ e ∈ order, e ∈ es := by
    intro e he
    obtain ⟨edge, hedge, _⟩ := hinc.mp he
    exact h.mem_of_get? hedge
  obtain ⟨g₂, hok, hm, _, hget⟩ := h.removeEdges hn hlive
  rw [hedges] at hok
  cases hok
  have haway : ∀ e edge, g₁.edges.get? e = some edge →
      e ∉ x.incident ∧ edge.tail ≠ v ∧ edge.head ≠ v := by
    intro e edge hedge
    rw [hget] at hedge
    split at hedge
    · cases hedge
    · rename_i hnot
      refine ⟨fun hmem => hnot (ho.mem_iff.mpr hmem), ?_, ?_⟩
      · exact fun ht => hnot (hinc.mpr ⟨edge, hedge, Or.inl ht⟩)
      · exact fun hh => hnot (hinc.mpr ⟨edge, hedge, Or.inr hh⟩)
  refine ⟨fun u => ?_, hslots, hchannels, ?_⟩
  · rw [Arena.get?_erase? herase]
    split
    · rfl
    · rename_i hu
      have hsame := h.removeEdges_without hn (fun e he => ho.mem_iff.mp he)
        (fun e he => hinc.mp he) hedges hu
      rw [← hsame]
      cases hz : g₁.vertices.get? u with
      | none => rfl
      | some z => rw [Option.map_some, hm.without_eq haway hz]
  · rw [← hshape, Arena.shape, Arena.erase?_map, herase]
    rfl

theorem without (h : g.Mirrors es) (hs : g.Sized) (hx : g.vertices.get? v = some x)
    (ho : order.Perm x.incident) (hr : g.removeVertexAlong order v = .ok (data, g')) :
    g.Without v x.incident g' := by
  obtain ⟨hvertices, hslots, hchannels, hshape⟩ := h.removeVertexAlong_eq hx ho hr
  obtain ⟨g₁, hok, hm, hedges⟩ := h.removeVertexAlong hx ho
  rw [hr] at hok
  cases hok
  refine ⟨fun u => ?_, fun e => ?_, hchannels, ?_, ?_⟩
  · by_cases hu : u = v
    · rw [vertex, hvertices, if_pos hu, if_pos hu, hu]
    · rw [vertex, vertex, hvertices, if_neg hu, if_neg hu]
      cases g.vertices.get? u <;> rfl
  · by_cases he : e ∈ x.incident
    · rw [edge, hedges, if_pos (ho.mem_iff.mpr he), if_pos he]
    · rw [edge, hedges, if_neg fun hmem => he (ho.mem_iff.mp hmem), if_neg he, edge]
  · have hpos : 0 < g.vertices.size := by
      rw [hs.vertices.size_eq h.vertices_valid]
      exact List.length_pos_of_mem (Arena.mem_ids.mpr (Arena.contains_iff.mpr ⟨x, hx⟩))
    obtain ⟨_, _, heq⟩ := Option.map_eq_some_iff.mp hshape
    have hsize := congrArg Arena.size (Prod.mk.inj heq).2
    change g.vertices.size - 1 = g'.vertices.size at hsize
    rw [vertexCount, vertexCount]
    omega
  · have hle : order.length ≤ g.edges.size := by
      rw [hs.edges.size_eq h.edges_valid]
      have hn : order.Nodup := ho.nodup_iff.mpr (nodup_eraseDups _)
      refine (hn.subperm fun e he => Arena.mem_ids.mpr ?_).length_le
      obtain ⟨edge, hedge, _⟩ := (h.mem_incident hx).mp (ho.mem_iff.mp he)
      exact Arena.contains_iff.mpr ⟨edge, hedge⟩
    have hsize : g'.edges.size = g.edges.size - order.length := by rw [hslots]; rfl
    rw [edgeCount, edgeCount, ← ho.length_eq]
    omega

/-- Whatever the order in which the edges go, all that it decides is which of their slots is used
again first. -/
theorem removeVertexAlong_perm (h : g.Mirrors es) (hx : g.vertices.get? v = some x)
    (ho : order.Perm x.incident) (hr : g.removeVertexAlong order v = .ok (data, g'))
    {order' : List EdgeId} (ho' : order'.Perm x.incident) :
    g.removeVertexAlong order' v = .ok (x.data, { g' with
      edges := { g'.edges with
        free := (order'.map ElementId.index).reverse ++ g.edges.free } }) := by
  obtain ⟨g'', hr', _⟩ := h.removeVertexAlong hx ho'
  obtain ⟨hvertices, hslots, hchannels, hshape⟩ := h.removeVertexAlong_eq hx ho hr
  obtain ⟨hvertices', hslots', hchannels', hshape'⟩ := h.removeVertexAlong_eq hx ho' hr'
  have hsameVertices : g''.vertices = g'.vertices := by
    refine Arena.eq_of_shape ?_ fun u => ?_
    · rw [hshape] at hshape'
      exact (Prod.mk.inj (Option.some.inj hshape')).2.symm
    · rw [hvertices, hvertices']
  rw [Arena.vacated_perm _ (ho'.trans ho.symm), ← hslots] at hslots'
  rw [hr']
  cases g''
  cases hsameVertices
  cases hslots'
  cases hchannels'.trans hchannels.symm
  rfl

end Mirrors

end Graph

namespace Workspace

variable {V E κ : Type} {w : Workspace V E κ}

/-- An edit that the graph lets through changes nothing else. -/
theorem edit_eq_ok {α : Type} (hw : w.tenants = [])
    {f : Graph V E → Except Missing (α × Graph V E)} {a : α} {g : Graph V E}
    (hf : f w.graph = .ok (a, g)) :
    (edit f : Act V E κ α) w = .ok a { w with graph := g } := by
  generalize hedited : { w with graph := g } = edited
  have hends : Ends (edit f) w (fun b w' => b = a ∧ w' = edited) fun _ _ => False := by
    refine Ends.bind (Ends.bind (ends_get ?_))
    rw [hw]
    refine ends_pure (Ends.bind (ends_get (Ends.bind ?_)))
    rw [hf]
    exact ends_pure (Ends.bind (ends_modify (ends_pure ⟨rfl, hedited⟩)))
  rw [Ends] at hends
  cases hact : (edit f : Act V E κ α) w with
  | ok b w' =>
    rw [hact] at hends
    rw [hends.1, hends.2]
  | error trouble w' =>
    rw [hact] at hends
    exact hends.elim

variable [Cost κ]

/-- A vertex goes with all its edges and without leaving a trace, in whatever order the edges go:
the order shows in nothing but that in which their slots are used again. A vertex that is not there
cannot go. -/
theorem Reachable.removeVertex_exact (h : w.Reachable) (v : VertexId) :
    (∀ x, w.graph.vertex v = .ok x →
      (∀ e, e ∈ x.incident ↔
        ∃ edge, w.graph.edge e = .ok edge ∧ (edge.tail = v ∨ edge.head = v)) ∧
      ∃ g, w.graph.removeVertex v = .ok (x.data, g) ∧ w.graph.Without v x.incident g ∧
        (w.tenants = [] → removeVertex v w = .ok x.data { w with graph := g }) ∧
        ∀ order, order.Perm x.incident →
          w.graph.removeVertexAlong order v = .ok (x.data, { g with
            edges := { g.edges with
              free := (order.map ElementId.index).reverse ++ w.graph.edges.free } })) ∧
    ((∀ x, w.graph.vertex v ≠ .ok x) →
      w.graph.removeVertex v = .error ⟨.vertex v⟩ ∧
        (w.tenants = [] → removeVertex v w = .error (.failed (.missing (.vertex v))) w)) := by
  obtain ⟨l, hl⟩ := h.recorded
  obtain ⟨es, hm⟩ := hl.mirrors
  constructor
  · intro x hvertex
    have hx := Graph.vertex_eq_ok.mp hvertex
    have hself := List.Perm.refl x.incident
    obtain ⟨g, hok, _⟩ := hm.removeVertexAlong hx hself
    have hremove : w.graph.removeVertex v = .ok (x.data, g) := by
      rw [Graph.removeVertex, hvertex]
      exact hok
    refine ⟨fun e => ?_, g, hremove, hm.without hl.sized hx hself hok,
      fun hw => edit_eq_ok hw hremove, fun order ho => hm.removeVertexAlong_perm hx hself hok ho⟩
    simp only [Graph.edge_eq_ok]
    exact hm.mem_incident hx
  · intro hgone
    have hnone : w.graph.vertices.get? v = none := by
      refine Option.eq_none_iff_forall_ne_some.mpr fun x hx => ?_
      exact hgone x (Graph.vertex_eq_ok.mpr hx)
    have hrefuses := (Graph.refusesVertex hm hnone).remove
    exact ⟨hrefuses, fun hw => edit_eq_error hw hrefuses⟩

/-- A vertex with a loop, with an edge each way to a second vertex and with a bidirectional edge to a
third one. Its edges may as well go from the last one to the first. -/
theorem Reachable.removeVertex_exact_loop :
    ∃ (w : Workspace Unit Unit Float) (x : Vertex Unit) (g : Graph Unit Unit), w.Reachable ∧
      w.graph.vertex ⟨0, 0⟩ = .ok x ∧ x.incident = [⟨0, 0⟩, ⟨1, 0⟩, ⟨2, 0⟩, ⟨4, 0⟩] ∧
      w.graph.Without ⟨0, 0⟩ x.incident g ∧
      w.graph.removeVertexAlong [⟨4, 0⟩, ⟨2, 0⟩, ⟨1, 0⟩, ⟨0, 0⟩] ⟨0, 0⟩ =
        .ok ((), { g with edges := { g.edges with free := [0, 1, 2, 4] } }) ∧
      (w.graph.vertex ⟨1, 0⟩).map (·.all.neighbors) = .ok [⟨0, 0⟩, ⟨0, 0⟩, ⟨2, 0⟩] ∧
      (g.vertex ⟨1, 0⟩).map (·.all.neighbors) = .ok [⟨2, 0⟩] := by
  let rs : List (Request Unit Unit Float) := [.addVertices [(), (), ()],
    .link ⟨0, 0⟩ ⟨0, 0⟩ .directed (), .link ⟨0, 0⟩ ⟨1, 0⟩ .directed (),
    .link ⟨1, 0⟩ ⟨0, 0⟩ .directed (), .link ⟨1, 0⟩ ⟨2, 0⟩ .directed (),
    .link ⟨0, 0⟩ ⟨2, 0⟩ .bidirectional ()]
  let w := rs.foldl obey {}
  have hreach : w.Reachable := ⟨rs, rfl⟩
  have hincident : (w.graph.vertex ⟨0, 0⟩).map Vertex.incident =
      .ok [⟨0, 0⟩, ⟨1, 0⟩, ⟨2, 0⟩, ⟨4, 0⟩] := by
    decide +kernel
  have hneighbors : (w.graph.vertex ⟨1, 0⟩).map (·.all.neighbors) =
      .ok [⟨0, 0⟩, ⟨0, 0⟩, ⟨2, 0⟩] := by
    decide +kernel
  have hfree : w.graph.edges.free = [] := by decide +kernel
  generalize w = w at hreach hincident hneighbors hfree
  cases hx : w.graph.vertex ⟨0, 0⟩ with
  | error m =>
    rw [hx] at hincident
    cases hincident
  | ok x =>
    rw [hx] at hincident
    have hlist : x.incident = [⟨0, 0⟩, ⟨1, 0⟩, ⟨2, 0⟩, ⟨4, 0⟩] := Except.ok.inj hincident
    obtain ⟨_, g, _, hwithout, _, horder⟩ := (hreach.removeVertex_exact ⟨0, 0⟩).1 x hx
    have hback := horder [⟨4, 0⟩, ⟨2, 0⟩, ⟨1, 0⟩, ⟨0, 0⟩] (by rw [hlist]; decide)
    rw [hfree] at hback
    refine ⟨w, x, g, hreach, hx, hlist, hwithout, hback, hneighbors, ?_⟩
    rw [hwithout.vertex, if_neg (by decide)]
    cases hy : w.graph.vertex ⟨1, 0⟩ with
    | error m =>
      rw [hy] at hneighbors
      cases hneighbors
    | ok y =>
      rw [hy] at hneighbors
      have hlist' : y.all.neighbors = [⟨0, 0⟩, ⟨0, 0⟩, ⟨2, 0⟩] := Except.ok.inj hneighbors
      show Except.ok (y.all.neighbors.filter (· ≠ ⟨0, 0⟩)) = _
      rw [hlist']
      rfl

end Workspace

end Waymark
