import Waymark.Proofs.Graph.Ledger
import Waymark.Proofs.Workspace.Request

namespace Waymark

open Waymark.Graph (Recorded Redecorated)

variable {V E κ : Type}

/-! Histories -/

section Histories

variable {g g' : Graph V E} {l : Ledger V E}

theorem Overlay.redecorated_unmount (o : Overlay V E κ) (h : g.Redecorated g') :
    g.Redecorated (o.unmount g') := by
  simp only [unmount, ← Array.foldl_toList]
  refine Redecorated.channels ?_ _
  refine List.foldlRecOn _ _ (List.foldlRecOn _ _ h fun g₁ h₁ mark _ => ?_) fun g₁ h₁ mark _ => ?_
  · exact h₁.vertex mark.vertex fun t => (t.reset o.channel.index).2
  · exact h₁.edge mark.edge fun t => (t.reset o.channel.index).2

theorem Mounting.redecorated_addAll [Cost κ] {m : Mounting V E κ} (h : g.Redecorated m.graph) :
    g.Redecorated (leftBehind m.addAll).graph := by
  refine leftBehind_addAll (P := fun m => g.Redecorated m.graph) (fun m x hm => ?_)
    (fun m x hm => ?_) h
  · cases hx : m.addVertex x with
    | error e =>
      obtain ⟨failure, m₁⟩ := e
      rw [leftBehind, addVertex_eq_error hx]
      exact hm
    | ok m₁ =>
      rw [leftBehind, addVertex_eq_ok hx]
      exact hm.vertex x.id fun t => (t.set m.overlay.channel.index _).2
  · cases hx : m.addEdge x with
    | error e =>
      obtain ⟨failure, m₁⟩ := e
      obtain ⟨appraiser, rfl⟩ := addEdge_eq_error hx
      exact hm
    | ok m₁ =>
      obtain ⟨appraiser, cost, _, rfl⟩ := addEdge_eq_ok hx
      exact hm.edge x.id fun t => (t.set m.overlay.channel.index _).2

theorem Graph.redecorated_mount [Cost κ] {evaluator : Evaluator V E κ}
    {mounted : Except (Failure κ × Appraiser V E κ) (Overlay V E κ)}
    (h : g.mount evaluator = (mounted, g')) : g.Redecorated g' := by
  have hall := Mounting.redecorated_addAll (m := Mounting.begin g evaluator)
    (Redecorated.refl.channels (g.channels.set g.channels.freeIndex .channel).2)
  obtain ⟨m, hadd, rfl, rfl⟩ | ⟨failure, m, hadd, rfl, rfl⟩ := mount_cases h
  · rw [hadd] at hall
    exact hall
  · rw [hadd] at hall
    exact m.overlay.redecorated_unmount hall

theorem Graph.Recorded.addVertices (h : g.Recorded l) (data : List V) :
    ∃ l', (g.addVertices data).2.Recorded l' := by
  induction data generalizing g l with
  | nil => exact ⟨l, h⟩
  | cons d rest ih => exact ih (h.addVertex d)

theorem Graph.Edited.recorded (he : g.Edited g') (h : g.Recorded l) : ∃ l', g'.Recorded l' := by
  cases he with
  | addVertex data => exact ⟨_, h.addVertex data⟩
  | addVertices data => exact h.addVertices data
  | link hl => exact ⟨_, h.link hl⟩
  | removeVertex hr => exact ⟨_, h.removeVertex hr⟩
  | removeEdge hr => exact ⟨_, h.removeEdge hr⟩
  | setVertexData hs => exact ⟨_, h.setVertexData hs⟩
  | setEdgeData hs => exact ⟨_, h.setEdgeData hs⟩
  | clear => exact ⟨_, h.clear⟩

/-- A ledger can be kept of whatever is done in a workspace. -/
theorem Workspace.Reachable.recorded [Cost κ] {w : Workspace V E κ} (h : w.Reachable) :
    ∃ l, w.graph.Recorded l := by
  refine h.invariant (P := fun w => ∃ l, w.graph.Recorded l) ⟨_, .empty⟩ ?_
  intro w w' trouble? ht hw
  obtain ⟨l, hl⟩ := hw
  cases ht with
  | refused refusal => exact ⟨l, hl⟩
  | missing m => exact ⟨l, hl⟩
  | answered => exact ⟨l, hl⟩
  | unanswered hn hfailure => exact ⟨l, hl⟩
  | edited hempty hg vertices edges => exact hg.recorded hl
  | mounted hn hmount ht hidle => exact ⟨l, hl.redecorated (Graph.redecorated_mount hmount)⟩
  | notMounted hmount => exact ⟨l, hl.redecorated (Graph.redecorated_mount hmount)⟩
  | @unmounted n t hn => exact ⟨l, hl.redecorated (t.toOverlay.redecorated_unmount .refl)⟩
  | moved hn hmoves => exact ⟨l, hl⟩

end Histories

/-! Ids that resolve and ids that do not -/

namespace Graph

variable {g : Graph V E} {l : Ledger V E} {es : List EdgeId} {v : VertexId} {e : EdgeId}

/-- A vertex answers to its id, with its payload. -/
structure AcceptsVertex (g : Graph V E) (v : VertexId) (data : V) : Prop where
  vertex : ∃ x, g.vertex v = .ok x ∧ x.id = v ∧ x.data = data
  contains : g.vertices.contains v = true
  setData : ∀ data', ∃ g', g.setVertexData v data' = .ok (data, g')

/-- An edge answers to its id, with its ends, kind and payload. -/
structure AcceptsEdge (g : Graph V E) (e : EdgeId) (arc : Arc E) : Prop where
  edge : ∃ x, g.edge e = .ok x ∧ x.id = e ∧ x.arc = arc
  contains : g.edges.contains e = true
  setData : ∀ data', ∃ g', g.setEdgeData e data' = .ok (arc.data, g')

/-- Nothing is done about a vertex, and nobody is taken for it. -/
structure RefusesVertex (g : Graph V E) (v : VertexId) : Prop where
  vertex : g.vertex v = .error ⟨.vertex v⟩
  contains : g.vertices.contains v = false
  setData : ∀ data, g.setVertexData v data = .error ⟨.vertex v⟩
  remove : g.removeVertex v = .error ⟨.vertex v⟩
  removeBy : ∀ order, g.removeVertexBy order v = .error ⟨.vertex v⟩
  linkFrom : ∀ head kind data, g.link v head kind data = .error ⟨.vertex v⟩
  linkTo : ∀ tail x kind data, g.vertex tail = .ok x →
    g.link tail v kind data = .error ⟨.vertex v⟩
  findFrom : ∀ b, g.findEdge? v b = none
  findTo : ∀ a, g.findEdge? a v = none
  mark : ∀ {κ : Type} (o : Overlay V E κ), o.vertexMark g v = .error (.missing (.vertex v))
  path : ∀ {κ : Type} (o : Overlay V E κ), o.pathTo g v = .error (.missing (.vertex v))
  searchFrom : ∀ {κ : Type} (o : Overlay V E κ) b, o.vertices.isEmpty = false →
    Search.refusal? o g v b = some (.missing (.vertex v))
  searchTo : ∀ {κ : Type} (o : Overlay V E κ) a mark, o.vertexMark g a = .ok mark →
    Search.refusal? o g a v = some (.missing (.vertex v))

structure RefusesEdge (g : Graph V E) (e : EdgeId) : Prop where
  edge : g.edge e = .error ⟨.edge e⟩
  contains : g.edges.contains e = false
  setData : ∀ data, g.setEdgeData e data = .error ⟨.edge e⟩
  remove : g.removeEdge e = .error ⟨.edge e⟩
  leads : ∀ a b, g.leads a b e = false
  mark : ∀ {κ : Type} (o : Overlay V E κ), o.edgeMark g e = .error (.missing (.edge e))

theorem acceptsVertex (hm : g.Mirrors es) {x : Vertex V} (hx : g.vertices.get? v = some x) :
    g.AcceptsVertex v x.data where
  vertex := ⟨x, vertex_eq_ok.mpr hx, hm.vertex_id hx, rfl⟩
  contains := Arena.contains_iff.mpr ⟨x, hx⟩
  setData data' := by
    rw [setVertexData, vertex_eq_ok.mpr hx]
    exact ⟨_, rfl⟩

theorem acceptsEdge (hm : g.Mirrors es) {x : Edge E} (hx : g.edges.get? e = some x) :
    g.AcceptsEdge e x.arc where
  edge := ⟨x, edge_eq_ok.mpr hx, hm.edge_id hx, rfl⟩
  contains := Arena.contains_iff.mpr ⟨x, hx⟩
  setData data' := by
    rw [setEdgeData, edge_eq_ok.mpr hx]
    exact ⟨_, rfl⟩

theorem refusesVertex (hm : g.Mirrors es) (hv : g.vertices.get? v = none) : g.RefusesVertex v := by
  have hvertex : g.vertex v = .error ⟨.vertex v⟩ := by rw [vertex, hv]
  have hmark {κ : Type} (o : Overlay V E κ) :
      o.vertexMark g v = .error (.missing (.vertex v)) := by
    rw [Overlay.vertexMark]
    rw [Overlay.findVertex, hv]
    rfl
  refine ⟨hvertex, by simp [Arena.contains, hv], fun data => ?_, ?_, fun order => ?_,
    fun head kind data => ?_, fun tail x kind data hx => ?_, fun b => ?_, fun a => ?_, hmark,
    fun o => ?_, fun o b ho => ?_, fun o a mark ha => ?_⟩
  · rw [setVertexData, hvertex]
    rfl
  · rw [removeVertex, hvertex]
    rfl
  · rw [removeVertexBy, hvertex]
    rfl
  · rw [link, hvertex]
    rfl
  · rw [link, hx, hvertex]
    rfl
  · cases hf : g.findEdge? v b with
    | none => rfl
    | some d =>
      obtain ⟨x, hx⟩ := Arena.contains_iff.mp (hm.live_of_leads (findEdge?_leads hf)).1
      rw [hv] at hx
      cases hx
  · rw [findEdge?, hv]
  · rw [Overlay.pathTo, Overlay.backtrack_eq, hmark]
    rfl
  · rw [Search.refusal?, hmark]
    simp [ho]
  · rw [Search.refusal?, ha, hmark]
    obtain ⟨i, hi⟩ := Overlay.vertexMark_eq_ok.mp ha
    have hmem := Array.mem_of_getElem? (Overlay.findVertex_eq_ok.mp hi).2.1
    have hsome : o.vertices.isEmpty = false := by
      rw [Array.isEmpty_eq_false_iff]
      exact Array.ne_empty_of_mem hmem
    simp [hsome]

theorem refusesEdge (he : g.edges.get? e = none) : g.RefusesEdge e := by
  have hedge : g.edge e = .error ⟨.edge e⟩ := by rw [edge, he]
  refine ⟨hedge, by simp [Arena.contains, he], fun data => ?_, ?_, fun a b => ?_, fun o => ?_⟩
  · rw [setEdgeData, hedge]
    rfl
  · rw [removeEdge, Arena.erase?, he]
    rfl
  · rw [leads, he]
  · rw [Overlay.edgeMark]
    rw [Overlay.findEdge, he]
    rfl

def Live (g : Graph V E) : AnyId → Prop
  | .vertex v => g.vertices.contains v = true
  | .edge e => g.edges.contains e = true

end Graph

/-- The elements that an edit is to work on. -/
def Request.subjects : Request V E κ → List AnyId
  | link tail head _ _ => [.vertex tail, .vertex head]
  | removeVertex v _ => [.vertex v]
  | removeEdge e => [.edge e]
  | setVertexData v _ => [.vertex v]
  | setEdgeData e _ => [.edge e]
  | _ => []

namespace Workspace

theorem bind_eq_error {α β : Type} {act : Act V E κ β} {w w' : Workspace V E κ}
    {trouble : Trouble κ} (h : act w = .error trouble w') (k : β → Act V E κ α) :
    (act >>= k) w = .error trouble w' := by
  show EStateM.bind act k w = _
  rw [EStateM.bind, h]

/-- An edit that the graph refuses leaves the workspace as it was. -/
theorem edit_eq_error {α : Type} {w : Workspace V E κ} (hw : w.tenants = [])
    {f : Graph V E → Except Missing (α × Graph V E)} {m : Missing} (hf : f w.graph = .error m) :
    (edit f : Act V E κ α) w = .error (.failed (.missing m.element)) w := by
  have hends : Ends (edit f) w (fun _ _ => False) fun trouble w' =>
      trouble = .failed (.missing m.element) ∧ w' = w := by
    refine Ends.bind (Ends.bind (ends_get ?_))
    rw [hw]
    refine ends_pure (Ends.bind (ends_get (Ends.bind ?_)))
    rw [hf]
    exact ends_throw ⟨rfl, rfl⟩
  rw [Ends] at hends
  cases hact : (edit f : Act V E κ α) w with
  | ok a w' =>
    rw [hact] at hends
    exact hends.elim
  | error trouble w' =>
    rw [hact] at hends
    rw [hends.1, hends.2]

/-- An edit of an element that is not there is refused, and changes nothing. -/
theorem perform_eq_error [Cost κ] {w : Workspace V E κ} {es : List EdgeId}
    (hm : w.graph.Mirrors es) (hw : w.tenants = []) {r : Request V E κ} {id : AnyId}
    (hid : id ∈ r.subjects) (hlive : ¬ w.graph.Live id) :
    ∃ dead ∈ r.subjects, ¬ w.graph.Live dead ∧
      r.perform w = .error (.failed (.missing dead)) w := by
  have hvertex {v : VertexId} (hv : ¬ w.graph.Live (.vertex v)) : w.graph.RefusesVertex v :=
    Graph.refusesVertex hm (by simpa [Graph.Live, Arena.contains] using hv)
  have hedge {e : EdgeId} (he : ¬ w.graph.Live (.edge e)) : w.graph.RefusesEdge e :=
    Graph.refusesEdge (by simpa [Graph.Live, Arena.contains] using he)
  cases r with
  | link tail head kind data =>
    by_cases ht : w.graph.Live (.vertex tail)
    · have hhead : ¬ w.graph.Live (.vertex head) := by
        obtain rfl | hid := List.mem_cons.mp hid
        · exact (hlive ht).elim
        · rw [← List.mem_singleton.mp hid]
          exact hlive
      obtain ⟨x, hx⟩ := Arena.contains_iff.mp ht
      have hlink := (hvertex hhead).linkTo tail x kind data (Graph.vertex_eq_ok.mpr hx)
      exact ⟨.vertex head, by simp [Request.subjects], hhead,
        bind_eq_error (bind_eq_error (edit_eq_error hw hlink) _) _⟩
    · exact ⟨.vertex tail, by simp [Request.subjects], ht, bind_eq_error
        (bind_eq_error (edit_eq_error hw ((hvertex ht).linkFrom head kind data)) _) _⟩
  | removeVertex v order =>
    obtain rfl := List.mem_singleton.mp hid
    exact ⟨_, hid, hlive, bind_eq_error (edit_eq_error hw ((hvertex hlive).removeBy order)) _⟩
  | removeEdge e =>
    obtain rfl := List.mem_singleton.mp hid
    exact ⟨_, hid, hlive, bind_eq_error (edit_eq_error hw (hedge hlive).remove) _⟩
  | setVertexData v data =>
    obtain rfl := List.mem_singleton.mp hid
    exact ⟨_, hid, hlive, bind_eq_error (edit_eq_error hw ((hvertex hlive).setData data)) _⟩
  | setEdgeData e data =>
    obtain rfl := List.mem_singleton.mp hid
    exact ⟨_, hid, hlive, bind_eq_error (edit_eq_error hw ((hedge hlive).setData data)) _⟩
  | _ => cases hid

end Workspace

/-- As long as no generation has come round, no id is issued twice, each one issued stands for its
element as long as that is there, and every other id is refused and changes nothing. -/
theorem Graph.Recorded.ids_exact {g : Graph V E} {l : Ledger V E} (h : g.Recorded l)
    (hb : l.Bounded) :
    l.vertices.ids.Nodup ∧ l.edges.ids.Nodup ∧
      (∀ v data, (v, some data) ∈ l.vertices → g.AcceptsVertex v data) ∧
      (∀ e arc, (e, some arc) ∈ l.edges → g.AcceptsEdge e arc) ∧
      (∀ v, (∀ data, (v, some data) ∉ l.vertices) → g.RefusesVertex v) ∧
      (∀ e, (∀ arc, (e, some arc) ∉ l.edges) → g.RefusesEdge e) ∧
      ∀ {κ : Type} [Cost κ] (w : Workspace V E κ), w.graph = g → w.tenants = [] →
        ∀ r : Request V E κ, ∀ id ∈ r.subjects, ¬ g.Live id →
          ∃ dead ∈ r.subjects, ¬ g.Live dead ∧
            r.perform w = .error (.failed (.missing dead)) w := by
  obtain ⟨es, hm⟩ := h.mirrors
  have hl := h.ledgered hb
  refine ⟨hl.vertices.distinct, hl.edges.distinct, fun v data hp => ?_, fun e arc hp => ?_,
    fun v hp => ?_, fun e hp => ?_, fun w hg hw r id hid hlive => ?_⟩
  · obtain ⟨x, hx, rfl⟩ := Option.map_eq_some_iff.mp (hl.vertices.live.mp hp)
    exact acceptsVertex hm hx
  · obtain ⟨x, hx, rfl⟩ := Option.map_eq_some_iff.mp (hl.edges.live.mp hp)
    exact acceptsEdge hm hx
  · refine refusesVertex hm ?_
    cases hx : g.vertices.get? v with
    | none => rfl
    | some x => exact (hp x.data (hl.vertices.live.mpr (by rw [hx]; rfl))).elim
  · refine refusesEdge ?_
    cases hx : g.edges.get? e with
    | none => rfl
    | some x => exact (hp x.arc (hl.edges.live.mpr (by rw [hx]; rfl))).elim
  · subst hg
    exact Workspace.perform_eq_error hm hw hid hlive

/-- A vertex is removed with its only edge, and its slot filled anew. The old ids stay refused. -/
theorem Graph.Recorded.ids_exact_reused : ∃ (g : Graph Nat Nat) (l : Ledger Nat Nat),
    g.Recorded l ∧ l.Bounded ∧
      l.vertices = [(⟨0, 0⟩, none), (⟨1, 0⟩, some 11), (⟨0, 1⟩, some 12)] ∧
      g.AcceptsVertex ⟨0, 1⟩ 12 ∧ g.RefusesVertex ⟨0, 0⟩ ∧ g.RefusesEdge ⟨0, 0⟩ := by
  have h₂ : Recorded (V := Nat) (E := Nat) _ _ := (Recorded.empty.addVertex 10).addVertex 11
  have h₃ := h₂.link (show Graph.link _ ⟨0, 0⟩ ⟨1, 0⟩ .directed 5 = .ok (_, _) from rfl)
  have h₄ := h₃.removeVertex (show Graph.removeVertexBy _ [] ⟨0, 0⟩ = .ok (_, _) from rfl)
  have hrun : ∃ (g : Graph Nat Nat) (l : Ledger Nat Nat), g.Recorded l ∧
      l.vertices = [(⟨0, 0⟩, none), (⟨1, 0⟩, some 11), (⟨0, 1⟩, some 12)] ∧
      (l.edges.map fun p => (p.1, p.2.isSome)) = [(⟨0, 0⟩, false)] :=
    ⟨_, _, h₄.addVertex 12, rfl, rfl⟩
  obtain ⟨g, l, h, hv, he⟩ := hrun
  have hlength := congrArg List.length he
  rw [List.length_map] at hlength
  have hb : l.Bounded := ⟨Chronicle.bounded_of_length (by rw [hv]; decide),
    Chronicle.bounded_of_length (by rw [hlength]; decide)⟩
  obtain ⟨_, _, hvertices, _, hgone, hgoneEdge, _⟩ := Recorded.ids_exact h hb
  refine ⟨g, l, h, hb, hv, hvertices _ _ (by simp [hv]), hgone _ (by simp [hv]),
    hgoneEdge _ fun arc harc => ?_⟩
  have hmem := List.mem_map_of_mem (f := fun p => (p.1, p.2.isSome)) harc
  rw [he] at hmem
  simp at hmem

end Waymark
