import Waymark.Proofs.Overlay.Entry
import Waymark.Proofs.Overlay.Registration

namespace Waymark

variable {V E κ : Type}

/-- The two ways in which a question brings a failure. -/
theorem Appraiser.price_eq_error [Cost κ] {a : Appraiser V E κ} {g : Graph V E} {edge : Edge E}
    {failure : Failure κ} : (∃ a', a.price g edge = (.error failure, a')) ↔
      (∃ reason, a.evaluator.answer a.asked.size g edge = .error reason ∧
        failure = .unpriced edge.id reason) ∨
      ∃ cost, a.evaluator.answer a.asked.size g edge = .ok cost ∧
        Cost.admissible cost = false ∧ failure = .invalidCost edge.id cost := by
  rw [price, ask]
  cases a.evaluator.answer a.asked.size g edge with
  | error reason =>
    constructor
    · intro h
      obtain ⟨a', h⟩ := h
      cases h
      exact Or.inl ⟨reason, rfl, rfl⟩
    · intro h
      obtain ⟨_, h, rfl⟩ | ⟨_, h, _⟩ := h <;> cases h
      exact ⟨_, rfl⟩
  | ok cost =>
    dsimp only
    constructor
    · intro h
      obtain ⟨a', h⟩ := h
      split at h <;> cases h
      exact Or.inr ⟨cost, rfl, Bool.eq_false_iff.mpr ‹_›, rfl⟩
    · intro h
      obtain ⟨_, h, _⟩ | ⟨_, h, hc, rfl⟩ := h <;> cases h
      exact ⟨_, by rw [hc]; rfl⟩

namespace Graph

variable {g : Graph V E} {evaluator : Evaluator V E κ} {k : Nat}

/-- A graph at question number `k` of a mounting: a channel is taken, and under it all vertices and
the first `k` edges carry their positions. -/
def halfway (g : Graph V E) (k : Nat) : Graph V E :=
  let c := g.acquireChannel.1
  let marked := g.vertices.ids.zipIdx.foldl
    (fun h p => h.setVertexHandle p.1 c (.vertex p.2)) g.acquireChannel.2
  (g.edges.ids.zipIdx.take k).foldl (fun h p => h.setEdgeHandle p.1 c (.edge p.2)) marked

theorem halfway_succ {e : EdgeId} (he : g.edges.ids[k]? = some e) :
    g.halfway (k + 1) = (g.halfway k).setEdgeHandle e g.acquireChannel.1 (.edge k) := by
  have hnext : g.edges.ids.zipIdx[k]? = some (e, k) := by simp [List.getElem?_zipIdx, he]
  simp only [halfway, List.take_add_one, hnext, Option.toList_some, List.foldl_append,
    List.foldl_cons, List.foldl_nil]

/-- The evaluator of a mounting before question number `k`. -/
def appraiserAt (g : Graph V E) (evaluator : Evaluator V E κ) (k : Nat) : Appraiser V E κ where
  evaluator
  asked := (g.edges.ids.take k).toArray

theorem appraiserAt_succ {edge : Edge E} (he : g.edges.ids[k]? = some edge.id) (g' : Graph V E) :
    ((g.appraiserAt evaluator k).ask g' edge).2 = g.appraiserAt evaluator (k + 1) := by
  simp [appraiserAt, Appraiser.ask, List.take_add_one, he]

theorem size_asked_appraiserAt {edge : Edge E} (he : g.edges.ids[k]? = some edge.id) :
    (g.appraiserAt evaluator k).asked.size = k := by
  have hlt := (List.getElem?_eq_some_iff.mp he).1
  rw [appraiserAt, List.size_toArray, List.length_take]
  omega

variable [Cost κ]

/-- Question number `k` of a mounting, the one about the edge at position `k`, ends it with this
failure. -/
def Objection (g : Graph V E) (evaluator : Evaluator V E κ) (k : Nat) (failure : Failure κ) :
    Prop :=
  ∃ edge appraiser, g.edges.values[k]? = some edge ∧
    (g.appraiserAt evaluator k).price (g.halfway k) edge = (.error failure, appraiser)

end Graph

namespace Mounting

variable {g : Graph V E} {evaluator : Evaluator V E κ} {m m' : Mounting V E κ} {k : Nat}
  {es : List EdgeId}

/-- The mounting has come to question number `k` without an objection. -/
structure Stage [Cost κ] (g : Graph V E) (evaluator : Evaluator V E κ) (k : Nat)
    (m : Mounting V E κ) : Prop where
  channel : m.overlay.channel = g.acquireChannel.1
  graph : m.graph = g.halfway k
  appraiser : m.overlay.appraiser = g.appraiserAt evaluator k
  edges : m.overlay.edges.size = k
  clear : ∀ j < k, ∀ failure, ¬ g.Objection evaluator j failure

theorem addVertices_course {xs : List (Vertex V)} (hok : xs.foldlM Mounting.addVertex m = .ok m') :
    m'.graph = ((xs.map Vertex.id).zipIdx m.overlay.vertices.size).foldl
        (fun h p => h.setVertexHandle p.1 m.overlay.channel (.vertex p.2)) m.graph ∧
      m'.overlay.channel = m.overlay.channel ∧ m'.overlay.appraiser = m.overlay.appraiser ∧
      m'.overlay.edges = m.overlay.edges := by
  induction xs generalizing m with
  | nil =>
    cases hok
    exact ⟨rfl, rfl, rfl, rfl⟩
  | cons x xs ih =>
    obtain ⟨m₁, hx, hrest⟩ := foldlM_cons_eq_ok hok
    obtain ⟨hgraph, hchannel, happraiser, hedges⟩ := ih hrest
    rw [addVertex_eq_ok hx] at hgraph hchannel happraiser hedges
    refine ⟨?_, hchannel, happraiser, hedges⟩
    rw [hgraph, List.map_cons, List.zipIdx_cons, List.foldl_cons]
    simp

variable [Cost κ]

/-- Once all vertices are marked, the first question is next. -/
theorem stage_zero (hm : g.Mirrors es) (hv : g.Vacant g.acquireChannel.1)
    (evaluator : Evaluator V E κ) :
    ∃ m, Stage g evaluator 0 m ∧ m.graph.edges = g.edges ∧
      (begin g evaluator).graph.vertices.values.foldlM Mounting.addVertex (begin g evaluator) =
        .ok m := by
  obtain ⟨m, hok, hedges, _⟩ := addVertices_eq_ok (m := begin g evaluator) hv.handles.1
  obtain ⟨hgraph, hchannel, happraiser, hsize⟩ := addVertices_course hok
  rw [hm.map_vertex_id] at hgraph
  refine ⟨m, ⟨hchannel, hgraph, happraiser, ?_, fun j hj => absurd hj (Nat.not_lt_zero j)⟩, hedges,
    hok⟩
  rw [hsize]
  rfl

/-- One question: it leads the mounting to the next one, or ends it. -/
theorem Stage.addEdge (h : Stage g evaluator k m) {edge : Edge E}
    (hedge : g.edges.values[k]? = some edge) (he : g.edges.ids[k]? = some edge.id)
    (hfree : edge.handle? g.acquireChannel.1 = none) :
    (∃ m', m.addEdge edge = .ok m' ∧ Stage g evaluator (k + 1) m') ∨
      ∃ failure m', m.addEdge edge = .error (failure, m') ∧ g.Objection evaluator k failure ∧
        m'.overlay.appraiser = g.appraiserAt evaluator (k + 1) := by
  have hnext : (m.overlay.appraiser.price m.graph edge).2 = g.appraiserAt evaluator (k + 1) := by
    rw [Appraiser.snd_price, h.appraiser, Graph.appraiserAt_succ he]
  cases hp : m.overlay.appraiser.price m.graph edge with
  | mk priced appraiser =>
    rw [hp] at hnext
    change appraiser = _ at hnext
    cases priced with
    | ok cost =>
      have hok : ∃ m', m.addEdge edge = .ok m' := by
        simp [Mounting.addEdge, hp, h.channel, hfree]
      obtain ⟨m', hok⟩ := hok
      obtain ⟨appraiser', cost', hp', rfl⟩ := addEdge_eq_ok hok
      rw [hp] at hp'
      cases hp'
      refine Or.inl ⟨_, hok, h.channel, ?_, hnext, by simp [h.edges], fun j hj failure hobj => ?_⟩
      · show m.graph.setEdgeHandle edge.id m.overlay.channel (.edge m.overlay.edges.size) = _
        rw [Graph.halfway_succ he, h.graph, h.channel, h.edges]
      · obtain hlt | rfl := Nat.lt_succ_iff_lt_or_eq.mp hj
        · exact h.clear j hlt failure hobj
        · obtain ⟨edge', appraiser', hedge', herror⟩ := hobj
          rw [hedge] at hedge'
          cases hedge'
          rw [← h.appraiser, ← h.graph, hp] at herror
          cases herror
    | error failure =>
      refine Or.inr ⟨failure, _, by rw [Mounting.addEdge, hp], ⟨edge, appraiser, hedge, ?_⟩, hnext⟩
      rw [← h.appraiser, ← h.graph]
      exact hp

/-- A mounting goes through if there is no objection, or ends at the first one. -/
theorem Stage.addEdges (hm : g.Mirrors es) (hv : g.Vacant g.acquireChannel.1)
    (h : Stage g evaluator k m) {xs : List (Edge E)} (hxs : g.edges.values.drop k = xs) :
    (∃ m', xs.foldlM Mounting.addEdge m = .ok m' ∧
        ∀ j failure, ¬ g.Objection evaluator j failure) ∨
      ∃ j failure m', xs.foldlM Mounting.addEdge m = .error (failure, m') ∧
        g.Objection evaluator j failure ∧
        (∀ i < j, ∀ failure, ¬ g.Objection evaluator i failure) ∧
        m'.overlay.appraiser = g.appraiserAt evaluator (j + 1) := by
  induction xs generalizing k m with
  | nil =>
    refine Or.inl ⟨m, rfl, fun j failure hobj => ?_⟩
    have hobj' := hobj
    obtain ⟨edge, _, hedge, _⟩ := hobj'
    have hlt := (List.getElem?_eq_some_iff.mp hedge).1
    have hall := List.drop_eq_nil_iff.mp hxs
    exact h.clear j (by omega) failure hobj
  | cons x xs ih =>
    have hedge : g.edges.values[k]? = some x := by
      have hfirst := congrArg List.head? hxs
      simpa [List.head?_drop] using hfirst
    have hrest : g.edges.values.drop (k + 1) = xs := by
      rw [← List.tail_drop, hxs]
      rfl
    have he : g.edges.ids[k]? = some x.id := by simp [← hm.map_edge_id, hedge]
    have hfree := hv.handles.2 x (List.mem_of_getElem? hedge)
    rw [List.foldlM_cons]
    obtain ⟨m₁, hok, hstage⟩ | ⟨failure, m₁, herror, hobj, hasked⟩ := h.addEdge hedge he hfree
    · rw [hok]
      exact ih hstage hrest
    · rw [herror]
      exact Or.inr ⟨k, failure, m₁, rfl, hobj, h.clear, hasked⟩

end Mounting

/-- On a vacant channel an overlay is mounted exactly if there is no objection. Otherwise the first
one is reported, and nothing is asked after it. -/
theorem Graph.mount_course [Cost κ] {g g' : Graph V E} {es : List EdgeId} (hm : g.Mirrors es)
    (hv : g.Vacant g.acquireChannel.1) {evaluator : Evaluator V E κ}
    {mounted : Except (Failure κ × Appraiser V E κ) (Overlay V E κ)}
    (h : g.mount evaluator = (mounted, g')) :
    (∃ o, mounted = .ok o ∧ ∀ k failure, ¬ g.Objection evaluator k failure) ∨
      ∃ k failure, mounted = .error (failure, g.appraiserAt evaluator (k + 1)) ∧
        g.Objection evaluator k failure ∧
        ∀ j < k, ∀ failure, ¬ g.Objection evaluator j failure := by
  obtain ⟨m, hstage, hedges, hok⟩ := Mounting.stage_zero hm hv evaluator
  have hadd : (Mounting.begin g evaluator).addAll = g.edges.values.foldlM Mounting.addEdge m := by
    rw [Mounting.addAll_eq hok, hedges]
  obtain ⟨m', hall, hnone⟩ | ⟨k, failure, m', hend, hobj, hnone, hasked⟩ :=
    hstage.addEdges hm hv List.drop_zero
  · rw [mount, hadd, hall] at h
    cases h
    exact Or.inl ⟨_, rfl, hnone⟩
  · rw [mount, hadd, hend] at h
    cases h
    exact Or.inr ⟨k, failure, by rw [hasked], hobj, hnone⟩

end Waymark
