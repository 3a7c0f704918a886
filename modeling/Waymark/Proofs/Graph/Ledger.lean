import Waymark.Overlay.Mount
import Waymark.Proofs.Arena.Chronicle
import Waymark.Proofs.Graph.Edit
import Waymark.Proofs.Graph.Lookup

namespace Waymark

variable {V E : Type}

/-- What an edge is, apart from its id. -/
structure Arc (E : Type) where
  tail : VertexId
  head : VertexId
  kind : EdgeKind
  data : E

namespace Arc

def leads (arc : Arc E) (a b : VertexId) : Bool :=
  (arc.tail = a && arc.head = b) || (arc.kind = .bidirectional && arc.tail = b && arc.head = a)

def touches (arc : Arc E) (v : VertexId) : Bool := arc.tail = v || arc.head = v

end Arc

def Edge.arc (edge : Edge E) : Arc E := ⟨edge.tail, edge.head, edge.kind, edge.data⟩

theorem Edge.touches_arc {edge : Edge E} {v : VertexId} :
    edge.arc.touches v = true ↔ edge.tail = v ∨ edge.head = v := by
  show (decide (edge.tail = v) || decide (edge.head = v)) = true ↔ _
  simp

/-- All that was ever put into a graph. -/
structure Ledger (V E : Type) where
  vertices : Chronicle .vertex V := []
  edges : Chronicle .edge (Arc E) := []

namespace Ledger

/-- An edge that is there leads from `a` to `b`. -/
def leads (l : Ledger V E) (a b : VertexId) : Bool :=
  l.edges.any fun p => p.2.any (·.leads a b)

def addVertex (l : Ledger V E) (v : VertexId) (data : V) : Ledger V E :=
  { l with vertices := l.vertices.issue v data }

def setVertexData (l : Ledger V E) (v : VertexId) (data : V) : Ledger V E :=
  { l with vertices := l.vertices.amend v fun _ => data }

def setEdgeData (l : Ledger V E) (e : EdgeId) (data : E) : Ledger V E :=
  { l with edges := l.edges.amend e fun arc => { arc with data } }

def addEdge (l : Ledger V E) (e : EdgeId) (arc : Arc E) : Ledger V E :=
  { l with edges := l.edges.issue e arc }

/-- An edge is new if none is there that leads the same way. -/
def link (l : Ledger V E) (e : EdgeId) (arc : Arc E) : Ledger V E :=
  if l.leads arc.tail arc.head then l else l.addEdge e arc

def removeEdge (l : Ledger V E) (e : EdgeId) : Ledger V E :=
  { l with edges := l.edges.retire fun d _ => d = e }

/-- A vertex takes the edges with it that touch it. -/
def removeVertex (l : Ledger V E) (v : VertexId) : Ledger V E where
  vertices := l.vertices.retire fun u _ => u = v
  edges := l.edges.retire fun _ arc => arc.touches v

def clear (l : Ledger V E) : Ledger V E where
  vertices := l.vertices.retire fun _ _ => true
  edges := l.edges.retire fun _ _ => true

/-- No slot has been emptied so often that its generations came round. -/
structure Bounded (l : Ledger V E) : Prop where
  vertices : l.vertices.Bounded
  edges : l.edges.Bounded

namespace Bounded

variable {l : Ledger V E} {v : VertexId} {e : EdgeId}

theorem of_addVertex {data : V} (h : (l.addVertex v data).Bounded) : l.Bounded :=
  ⟨Chronicle.Bounded.of_issue h.vertices, h.edges⟩

theorem of_setVertexData {data : V} (h : (l.setVertexData v data).Bounded) : l.Bounded :=
  ⟨Chronicle.Bounded.of_amend h.vertices, h.edges⟩

theorem of_setEdgeData {data : E} (h : (l.setEdgeData e data).Bounded) : l.Bounded :=
  ⟨h.vertices, Chronicle.Bounded.of_amend h.edges⟩

theorem of_link {arc : Arc E} (h : (l.link e arc).Bounded) : l.Bounded := by
  rw [link] at h
  split at h
  · exact h
  · exact ⟨h.vertices, Chronicle.Bounded.of_issue h.edges⟩

theorem of_removeEdge (h : (l.removeEdge e).Bounded) : l.Bounded :=
  ⟨h.vertices, Chronicle.Bounded.of_retire (P := fun d _ => d = e) h.edges⟩

theorem of_removeVertex (h : (l.removeVertex v).Bounded) : l.Bounded :=
  ⟨Chronicle.Bounded.of_retire (P := fun u _ => u = v) h.vertices,
    Chronicle.Bounded.of_retire (P := fun _ arc => arc.touches v) h.edges⟩

theorem of_clear (h : l.clear.Bounded) : l.Bounded :=
  ⟨Chronicle.Bounded.of_retire (P := fun _ _ => true) h.vertices,
    Chronicle.Bounded.of_retire (P := fun _ _ => true) h.edges⟩

end Bounded

end Ledger

namespace Graph

variable {g g' : Graph V E} {l : Ledger V E} {es : List EdgeId}

/-- A graph but for what is registered in it. -/
inductive Redecorated (g : Graph V E) : Graph V E → Prop
  | refl : Redecorated g g
  | vertex {g' : Graph V E} (h : Redecorated g g') (v : VertexId) (f : SlotTable → SlotTable) :
    Redecorated g
      { g' with vertices := g'.vertices.modify v fun x => { x with slots := f x.slots } }
  | edge {g' : Graph V E} (h : Redecorated g g') (e : EdgeId) (f : SlotTable → SlotTable) :
    Redecorated g { g' with edges := g'.edges.modify e fun x => { x with slots := f x.slots } }
  | channels {g' : Graph V E} (h : Redecorated g g') (channels : SlotTable) :
    Redecorated g { g' with channels }

/-- How a graph came about, with the ledger that was kept meanwhile. -/
inductive Recorded : Graph V E → Ledger V E → Prop
  | empty : Recorded {} {}
  | addVertex {g : Graph V E} {l : Ledger V E} (h : Recorded g l) (data : V) :
    Recorded (g.addVertex data).2 (l.addVertex (g.addVertex data).1 data)
  | setVertexData {g g' : Graph V E} {l : Ledger V E} {v : VertexId} {data old : V}
    (h : Recorded g l) (hs : g.setVertexData v data = .ok (old, g')) :
    Recorded g' (l.setVertexData v data)
  | setEdgeData {g g' : Graph V E} {l : Ledger V E} {e : EdgeId} {data old : E}
    (h : Recorded g l) (hs : g.setEdgeData e data = .ok (old, g')) :
    Recorded g' (l.setEdgeData e data)
  | link {g g' : Graph V E} {l : Ledger V E} {tail head : VertexId} {kind : EdgeKind} {data : E}
    {e : EdgeId} (h : Recorded g l) (hl : g.link tail head kind data = .ok (e, g')) :
    Recorded g' (l.link e ⟨tail, head, kind, data⟩)
  | removeEdge {g g' : Graph V E} {l : Ledger V E} {e : EdgeId} {data : E} (h : Recorded g l)
    (hr : g.removeEdge e = .ok (data, g')) : Recorded g' (l.removeEdge e)
  | removeVertex {g g' : Graph V E} {l : Ledger V E} {order : List EdgeId} {v : VertexId}
    {data : V} (h : Recorded g l) (hr : g.removeVertexBy order v = .ok (data, g')) :
    Recorded g' (l.removeVertex v)
  | clear {g : Graph V E} {l : Ledger V E} (h : Recorded g l) : Recorded g.clear l.clear
  | redecorated {g g' : Graph V E} {l : Ledger V E} (h : Recorded g l) (hd : g.Redecorated g') :
    Recorded g' l

theorem Redecorated.mirrors (h : g.Redecorated g') (hm : g.Mirrors es) : g'.Mirrors es := by
  induction h with
  | refl => exact hm
  | vertex _ v f ih => exact ih.modifyVertex v (fun _ => rfl) fun _ side => by cases side <;> rfl
  | edge _ e f ih =>
    exact ih.modifyEdge e (fun _ => rfl) (fun _ => rfl) (fun _ => rfl) fun _ => rfl
  | channels _ table ih => exact ih.withChannels table

theorem Recorded.mirrors (h : g.Recorded l) : ∃ es, g.Mirrors es := by
  induction h with
  | empty => exact ⟨[], .empty⟩
  | addVertex _ data ih =>
    obtain ⟨es, hm⟩ := ih
    exact ⟨es, hm.addVertex data⟩
  | setVertexData _ hs ih =>
    obtain ⟨es, hm⟩ := ih
    exact ⟨es, hm.setVertexData hs⟩
  | setEdgeData _ hs ih =>
    obtain ⟨es, hm⟩ := ih
    exact ⟨es, hm.setEdgeData hs⟩
  | link _ hl ih =>
    obtain ⟨es, hm⟩ := ih
    exact ⟨_, hm.link hl⟩
  | removeEdge _ hr ih =>
    obtain ⟨es, hm⟩ := ih
    exact mirrors_removeEdge hm hr
  | removeVertex _ hr ih =>
    obtain ⟨es, hm⟩ := ih
    exact mirrors_removeVertexBy hm hr
  | clear _ ih =>
    obtain ⟨es, hm⟩ := ih
    exact ⟨[], hm.clear⟩
  | redecorated _ hd ih =>
    obtain ⟨es, hm⟩ := ih
    exact ⟨es, hd.mirrors hm⟩

/-- A graph is as its ledger says. -/
structure Ledgered (g : Graph V E) (l : Ledger V E) : Prop where
  vertices : g.vertices.Chronicled Vertex.data l.vertices
  edges : g.edges.Chronicled Edge.arc l.edges

namespace Ledgered

/-- What leaves payloads alone leaves the chronicle alone. -/
theorem modifyVertices (h : g.Ledgered l) (v : VertexId) {f : Vertex V → Vertex V}
    (hf : ∀ x, (f x).data = x.data) :
    (g.vertices.modify v f).Chronicled Vertex.data l.vertices := by
  have hmodify := h.vertices.modify (φ := fun data => data) v hf
  rw [Chronicle.amend_same] at hmodify
  exact hmodify

theorem redecorated (h : g.Ledgered l) (hd : g.Redecorated g') : g'.Ledgered l := by
  induction hd with
  | refl => exact h
  | vertex _ v f ih => exact ⟨ih.modifyVertices v fun _ => rfl, ih.edges⟩
  | edge _ e f ih =>
    have hmodify := ih.edges.modify (φ := fun arc => arc) e (k := fun x =>
      { x with slots := f x.slots }) fun _ => rfl
    rw [Chronicle.amend_same] at hmodify
    exact ⟨ih.vertices, hmodify⟩
  | channels _ table ih => exact ⟨ih.vertices, ih.edges⟩

theorem addVertex (h : g.Ledgered l) (hb : l.Bounded) (data : V) :
    (g.addVertex data).2.Ledgered (l.addVertex (g.addVertex data).1 data) := by
  have hinsert := h.vertices.insertWith hb.vertices fun id => { id, data }
  rw [← Arena.insertWith_fst g.vertices fun id => { id, data }] at hinsert
  exact ⟨hinsert, h.edges⟩

theorem setVertexData (h : g.Ledgered l) {v : VertexId} {data old : V}
    (hs : g.setVertexData v data = .ok (old, g')) : g'.Ledgered (l.setVertexData v data) := by
  obtain ⟨_, _, _, rfl⟩ := setVertexData_eq_ok hs
  exact ⟨h.vertices.modify v fun _ => rfl, h.edges⟩

theorem setEdgeData (h : g.Ledgered l) {e : EdgeId} {data old : E}
    (hs : g.setEdgeData e data = .ok (old, g')) : g'.Ledgered (l.setEdgeData e data) := by
  obtain ⟨_, _, _, rfl⟩ := setEdgeData_eq_ok hs
  exact ⟨h.vertices, h.edges.modify e fun _ => rfl⟩

theorem leads_iff (h : g.Ledgered l) {a b : VertexId} :
    l.leads a b = true ↔ ∃ e, g.leads a b e = true := by
  rw [Ledger.leads, List.any_eq_true]
  constructor
  · intro hwhole
    obtain ⟨⟨e, arc?⟩, hp, hl⟩ := hwhole
    obtain ⟨arc, rfl, hl⟩ := (Option.any_eq_true _ _).mp hl
    obtain ⟨edge, hedge, rfl⟩ := Option.map_eq_some_iff.mp (h.edges.live.mp hp)
    exact ⟨e, Graph.leads_iff.mpr ⟨edge, hedge, hl⟩⟩
  · intro hwhole
    obtain ⟨e, hl⟩ := hwhole
    obtain ⟨edge, hedge, hl⟩ := Graph.leads_iff.mp hl
    exact ⟨(e, some edge.arc), h.edges.live.mpr (by rw [hedge]; rfl), hl⟩

theorem addEdge (h : g.Ledgered l) (hb : l.Bounded) (tail head : VertexId) (kind : EdgeKind)
    (data : E) : (g.addEdge tail head kind data).2.Ledgered
      (l.addEdge (g.addEdge tail head kind data).1 ⟨tail, head, kind, data⟩) := by
  have hinsert := h.edges.insertWith hb.edges fun id => { id, tail, head, kind, data }
  rw [← Mirrors.fst_addEdge g tail head kind data] at hinsert
  have htail := h.modifyVertices tail (f := (·.attach (g.addEdge tail head kind data).1 head
    kind.tailRoles)) fun _ => rfl
  have hboth := modifyVertices (g := { g with vertices := g.vertices.modify tail _ })
    ⟨htail, h.edges⟩ head (f := (·.attach (g.addEdge tail head kind data).1 tail
      kind.headRoles)) fun _ => rfl
  exact ⟨hboth, hinsert⟩

theorem link (h : g.Ledgered l) (hm : g.Mirrors es) (hb : l.Bounded) {tail head : VertexId}
    {kind : EdgeKind} {data : E} {e : EdgeId} (hl : g.link tail head kind data = .ok (e, g')) :
    g'.Ledgered (l.link e ⟨tail, head, kind, data⟩) := by
  rw [Ledger.link]
  obtain ⟨_, _, ⟨hfound, rfl⟩ | ⟨hnone, hadd⟩⟩ := link_eq_ok hl
  · rw [if_pos (h.leads_iff.mpr ⟨e, findEdge?_leads hfound⟩)]
    exact h
  · have hnew : ¬ l.leads tail head = true := by
      intro hold
      obtain ⟨d, hd⟩ := h.leads_iff.mp hold
      obtain ⟨d', hd'⟩ := hm.findEdge?_isSome hd
      rw [hnone] at hd'
      cases hd'
    have hrecorded := h.addEdge hb tail head kind data
    rw [hadd] at hrecorded
    rw [if_neg hnew]
    exact hrecorded

theorem removeEdge (h : g.Ledgered l) {e : EdgeId} {data : E}
    (hr : g.removeEdge e = .ok (data, g')) :
    g'.Ledgered (l.removeEdge e) := by
  obtain ⟨edge, edges, herase, _, rfl⟩ := removeEdge_eq_ok hr
  have htail := h.modifyVertices edge.tail (f := (·.detach e edge.head edge.kind.tailRoles))
    fun _ => rfl
  have hboth := modifyVertices (g := { g with vertices := g.vertices.modify edge.tail _ })
    ⟨htail, h.edges⟩ edge.head (f := (·.detach e edge.tail edge.kind.headRoles)) fun _ => rfl
  exact ⟨hboth, h.edges.erase? herase⟩

theorem removeEdges (h : g.Ledgered l) {order : List EdgeId}
    (hr : g.removeEdges order = .ok g') :
    g'.Ledgered { l with edges := l.edges.retire fun d _ => d ∈ order } := by
  induction order generalizing g l with
  | nil =>
    cases hr
    simpa [Chronicle.retire_nothing] using h
  | cons e rest ih =>
    obtain ⟨data, g₁, he, hr₁⟩ := removeEdges_cons_eq_ok hr
    have hrest := ih (h.removeEdge he) hr₁
    rw [Ledger.removeEdge, Chronicle.retire_retire] at hrest
    simpa using hrest

theorem removeVertex (h : g.Ledgered l) (hm : g.Mirrors es) {order : List EdgeId} {v : VertexId}
    {data : V} (hr : g.removeVertexBy order v = .ok (data, g')) :
    g'.Ledgered (l.removeVertex v) := by
  obtain ⟨x, order', hx, hperm, hr⟩ := removeVertexBy_eq_ok hr
  have htouching : l.edges.retire (fun d _ => d ∈ order') =
      l.edges.retire fun _ arc => arc.touches v := by
    refine Chronicle.retire_congr fun e arc hp => ?_
    obtain ⟨edge, hedge, rfl⟩ := Option.map_eq_some_iff.mp (h.edges.live.mp hp)
    have hmem := hperm.mem_iff.trans (hm.mem_incident (vertex_eq_ok.mp hx) (e := e))
    simp only [hedge, Option.some.injEq, exists_eq_left'] at hmem
    rw [Bool.eq_iff_iff, decide_eq_true_iff, Edge.touches_arc]
    exact hmem
  obtain ⟨g₁, y, vertices, ho, herase, _, rfl⟩ := removeVertexAlong_eq_ok hr
  have hremoved := h.removeEdges ho
  rw [htouching] at hremoved
  exact ⟨hremoved.vertices.erase? herase, hremoved.edges⟩

theorem clear (h : g.Ledgered l) : g.clear.Ledgered l.clear :=
  ⟨h.vertices.clear, h.edges.clear⟩

end Ledgered

/-- As long as no generation has come round, graph and ledger agree. -/
theorem Recorded.ledgered (h : g.Recorded l) (hb : l.Bounded) : g.Ledgered l := by
  induction h with
  | empty => exact ⟨Arena.chronicled_empty _, Arena.chronicled_empty _⟩
  | addVertex _ data ih => exact (ih hb.of_addVertex).addVertex hb.of_addVertex data
  | setVertexData _ hs ih => exact (ih hb.of_setVertexData).setVertexData hs
  | setEdgeData _ hs ih => exact (ih hb.of_setEdgeData).setEdgeData hs
  | link h hl ih =>
    obtain ⟨es, hm⟩ := h.mirrors
    exact (ih hb.of_link).link hm hb.of_link hl
  | removeEdge _ hr ih => exact (ih hb.of_removeEdge).removeEdge hr
  | removeVertex h hr ih =>
    obtain ⟨es, hm⟩ := h.mirrors
    exact (ih hb.of_removeVertex).removeVertex hm hr
  | clear _ ih => exact (ih hb.of_clear).clear
  | redecorated _ hd ih => exact (ih hb).redecorated hd

end Graph

end Waymark
