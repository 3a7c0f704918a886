import Waymark.Proofs.Graph.Removal
import Waymark.Proofs.Workspace.Unique

namespace Waymark

namespace Graph

variable {V E : Type} {g g' : Graph V E} {es : List EdgeId} {a b : VertexId}

/-- What a new edge adds to a graph: itself, its entries at its ends and one to the count. -/
structure With (g : Graph V E) (added : Edge E) (g' : Graph V E) : Prop where
  fresh : g.edge added.id = .error ⟨.edge added.id⟩
  edge : ∀ e, g'.edge e = if e = added.id then .ok added else g.edge e
  vertex : ∀ v, g'.vertex v = (g.vertex v).map (·.attachEnds v added)
  channels : g'.channels = g.channels
  vertexCount : g'.vertexCount = g.vertexCount
  edgeCount : g'.edgeCount = g.edgeCount + 1

namespace Mirrors

theorem with_addEdge (h : g.Mirrors es) (tail head : VertexId) (kind : EdgeKind) (data : E) :
    g.With { id := g.edges.nextId, tail, head, kind, data } (g.addEdge tail head kind data).2 := by
  refine ⟨?_, fun e => ?_, fun v => ?_, rfl, rfl, ?_⟩
  · rw [Graph.edge, Arena.get?_nextId h.edges_valid]
  · rw [Graph.edge, edges_addEdge, Arena.get?_insertWith h.edges_valid]
    by_cases he : e = g.edges.nextId
    · rw [if_pos he, if_pos he]
    · rw [if_neg he, if_neg he, Graph.edge]
  · rw [Graph.vertex, get?_addEdge, Graph.vertex]
    cases g.vertices.get? v <;> rfl
  · rw [edgeCount, edges_addEdge, edgeCount, Arena.insertWith]
    cases g.edges.free <;> rfl

theorem findEdge?_eq_none (h : g.Mirrors es) :
    g.findEdge? a b = none ↔ ∀ e, g.leads a b e = false := by
  constructor
  · intro hnone e
    by_contra hl
    obtain ⟨d, hd⟩ := h.findEdge?_isSome (Bool.not_eq_false _ ▸ hl)
    rw [hnone] at hd
    cases hd
  · intro hnone
    cases hf : g.findEdge? a b with
    | none => rfl
    | some e =>
      have hl := findEdge?_leads hf
      rw [hnone] at hl
      cases hl

/-- Linking names the end that is not there, `a` before `b`. -/
theorem link_eq_refused (h : g.Mirrors es) {c : VertexId}
    (hc : c = a ∨ c = b ∧ g.vertices.contains a = true) (hgone : g.vertices.contains c = false)
    (kind : EdgeKind) (data : E) : g.link a b kind data = .error ⟨.vertex c⟩ := by
  have hrefuses := refusesVertex h (v := c) (by simpa [Arena.contains] using hgone)
  obtain rfl | ⟨rfl, ha⟩ := hc
  · exact hrefuses.linkFrom b kind data
  · obtain ⟨x, hx⟩ := Arena.contains_iff.mp ha
    exact hrefuses.linkTo a x kind data (vertex_eq_ok.mpr hx)

/-- Where none is found between two live vertices an edge is added. -/
theorem link_eq_added (ha : g.vertices.contains a = true) (hb : g.vertices.contains b = true)
    (hf : g.findEdge? a b = none) (kind : EdgeKind) (data : E) :
    g.link a b kind data = .ok (g.addEdge a b kind data) := by
  obtain ⟨x, hx⟩ := Arena.contains_iff.mp ha
  obtain ⟨y, hy⟩ := Arena.contains_iff.mp hb
  rw [Graph.link, vertex_eq_ok.mpr hx, vertex_eq_ok.mpr hy, hf]
  rfl

/-- The new edge is found from then on, as no older one leads the same way. -/
theorem findEdge?_addEdge (h : g.Mirrors es) (ha : g.vertices.contains a = true)
    (hb : g.vertices.contains b = true) (hf : g.findEdge? a b = none) (kind : EdgeKind) (data : E) :
    (g.addEdge a b kind data).2.findEdge? a b = some g.edges.nextId := by
  have hget := (h.with_addEdge a b kind data).edge
  have hnew : (g.addEdge a b kind data).2.edges.get? g.edges.nextId =
      some { id := g.edges.nextId, tail := a, head := b, kind, data } := by
    rw [← edge_eq_ok, hget, if_pos rfl]
  have hnone : es.find? ((g.addEdge a b kind data).2.leads a b) = none := by
    rw [h.findEdge?_eq, List.find?_eq_none] at hf
    refine List.find?_eq_none.mpr fun d hd hl => hf d hd ?_
    obtain ⟨edge, hedge, hl⟩ := leads_iff.mp hl
    have hne : d ≠ g.edges.nextId := fun heq => h.nextId_not_mem (heq ▸ hd)
    rw [← edge_eq_ok, hget, if_neg hne, edge_eq_ok] at hedge
    exact leads_iff.mpr ⟨edge, hedge, hl⟩
  rw [(h.addEdge ha hb kind data).findEdge?_eq, List.find?_append, hnone]
  exact List.find?_cons_of_pos (leads_forth hnew)

end Mirrors

end Graph

namespace Workspace

variable {V E κ : Type} [Cost κ] {w : Workspace V E κ} {es : List EdgeId}

omit [Cost κ] in
/-- Linking adds nothing to what the graph makes of it but the id handed out. -/
theorem link_eq_ok (hw : w.tenants = []) {a b : VertexId} {kind : EdgeKind} {data : E} {e : EdgeId}
    {g : Graph V E} (hl : w.graph.link a b kind data = .ok (e, g)) :
    link a b kind data w = .ok e { w with graph := g, edges := w.edges.push e } := by
  have hedit := edit_eq_ok (f := fun g => g.link a b kind data) hw hl
  show EStateM.bind (edit fun g => g.link a b kind data) _ w = _
  rw [EStateM.bind, hedit]
  rfl

/-- Asking the lists for an edge from `a` to `b` comes to the same as going through all live edges
from the oldest on. Linking follows what is found: it is refused if `a` or `b` is not there, it
hands out an edge that is found, and otherwise it adds one, which is found from then on. -/
theorem link_follows_lookup {rs : List (Request V E κ)} (h : chronology rs = (w, es))
    (a b : VertexId) :
    (∀ e, e ∈ es ↔ ∃ edge, w.graph.edge e = .ok edge) ∧
      w.graph.findEdge? a b = es.find? (w.graph.leads a b) ∧
      (w.graph.findEdge? a b = none ↔ ∀ e, w.graph.leads a b e = false) ∧
      ∀ kind data,
        (∀ c, c = a ∨ c = b ∧ w.graph.vertices.contains a = true →
          w.graph.vertices.contains c = false →
            w.graph.link a b kind data = .error ⟨.vertex c⟩ ∧
              (w.tenants = [] →
                link a b kind data w = .error (.failed (.missing (.vertex c))) w)) ∧
        (∀ e, w.graph.findEdge? a b = some e →
          w.graph.link a b kind data = .ok (e, w.graph) ∧
            (w.tenants = [] →
              link a b kind data w = .ok e { w with edges := w.edges.push e })) ∧
        (w.graph.vertices.contains a = true → w.graph.vertices.contains b = true →
          w.graph.findEdge? a b = none →
            ∃ e g, w.graph.link a b kind data = .ok (e, g) ∧
              w.graph.With { id := e, tail := a, head := b, kind, data } g ∧
              g.seniority es = es ++ [e] ∧ g.findEdge? a b = some e ∧
              (∀ l, w.graph.Recorded l → l.Bounded → e ∉ l.edges.ids) ∧
              (w.tenants = [] → link a b kind data w =
                .ok e { w with graph := g, edges := w.edges.push e })) := by
  obtain ⟨hm, _⟩ := chronology_unrepeated rs
  rw [h] at hm
  refine ⟨fun e => ?_, hm.findEdge?_eq a b, hm.findEdge?_eq_none,
    fun kind data => ⟨?_, ?_, ?_⟩⟩
  · simp only [hm.mem_iff, Arena.contains_iff, Graph.edge_eq_ok]
  · intro c hc hgone
    have hlink := hm.link_eq_refused hc hgone kind data
    exact ⟨hlink, fun hw => bind_eq_error (edit_eq_error hw hlink) _⟩
  · intro e hf
    have hlink := hm.link_eq_found hf kind data
    exact ⟨hlink, fun hw => link_eq_ok hw hlink⟩
  · intro ha hb hf
    have hlink := Graph.Mirrors.link_eq_added ha hb hf kind data
    have hid := Graph.Mirrors.fst_addEdge w.graph a b kind data
    have hlink' : w.graph.link a b kind data =
        .ok (w.graph.edges.nextId, (w.graph.addEdge a b kind data).2) := by
      rw [hlink, ← hid]
    have hm' := hm.addEdge ha hb kind data
    have hsenior := Graph.Succeeds.linked hm hlink'
    rw [if_neg hm.nextId_not_mem] at hsenior
    refine ⟨_, _, hlink', hm.with_addEdge a b kind data,
      hsenior.eq_seniority hm.nodup hm'.nodup hm'.mem_iff,
      hm.findEdge?_addEdge ha hb hf kind data, fun l hl hbounded => ?_,
      fun hw => link_eq_ok hw hlink'⟩
    exact (hl.ledgered hbounded).edges.nextId_fresh hbounded.edges

/-- A bidirectional edge found against its declaration, after an older edge the same way has gone;
a new loop in the slot of that one, and a vertex that never was. -/
theorem link_follows_lookup_reused :
    ∃ (rs : List (Request Unit Unit Float)) (w : Workspace Unit Unit Float) (e : EdgeId)
      (g : Graph Unit Unit), chronology rs = (w, [⟨1, 0⟩]) ∧
        w.graph.link ⟨0, 0⟩ ⟨1, 0⟩ .directed () = .ok (⟨1, 0⟩, w.graph) ∧
        w.graph.link ⟨0, 0⟩ ⟨7, 0⟩ .directed () = .error ⟨.vertex ⟨7, 0⟩⟩ ∧
        w.graph.link ⟨0, 0⟩ ⟨0, 0⟩ .bidirectional () = .ok (e, g) ∧
        g.seniority [⟨1, 0⟩] = [⟨1, 0⟩, e] ∧ g.findEdge? ⟨0, 0⟩ ⟨0, 0⟩ = some e := by
  let rs : List (Request Unit Unit Float) := [.addVertices [(), ()],
    .link ⟨0, 0⟩ ⟨1, 0⟩ .directed (), .link ⟨1, 0⟩ ⟨0, 0⟩ .bidirectional (),
    .removeEdge ⟨0, 0⟩]
  have h : chronology rs = ((chronology rs).1, [⟨1, 0⟩]) := Prod.ext rfl (by decide +kernel)
  have hlive : (chronology rs).1.graph.vertices.contains ⟨0, 0⟩ = true := by decide +kernel
  have hgone : (chronology rs).1.graph.vertices.contains ⟨7, 0⟩ = false := by decide +kernel
  have hback : (chronology rs).1.graph.findEdge? ⟨0, 0⟩ ⟨1, 0⟩ = some ⟨1, 0⟩ := by decide +kernel
  have hnone : (chronology rs).1.graph.findEdge? ⟨0, 0⟩ ⟨0, 0⟩ = none := by decide +kernel
  obtain ⟨_, hfound, _⟩ := (link_follows_lookup h ⟨0, 0⟩ ⟨1, 0⟩).2.2.2 .directed ()
  obtain ⟨hrefused, _⟩ := (link_follows_lookup h ⟨0, 0⟩ ⟨7, 0⟩).2.2.2 .directed ()
  obtain ⟨_, _, hadded⟩ := (link_follows_lookup h ⟨0, 0⟩ ⟨0, 0⟩).2.2.2 .bidirectional ()
  obtain ⟨e, g, hloop, _, hsenior, hnew, _⟩ := hadded hlive hlive hnone
  exact ⟨rs, _, e, g, h, (hfound _ hback).1, (hrefused _ (Or.inr ⟨rfl, hlive⟩) hgone).1, hloop,
    hsenior, hnew⟩

end Workspace

end Waymark
