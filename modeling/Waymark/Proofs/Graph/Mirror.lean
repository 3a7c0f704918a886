import Waymark.Proofs.Arena.Occupancy
import Waymark.Proofs.Graph.Occurrence

namespace Waymark.Graph

variable {V E : Type}

/-- The adjacency lists say what the live edges say, and nothing else. `es` are the live edges in
the order in which the lists mention them. -/
structure Mirrors (g : Graph V E) (es : List EdgeId) : Prop where
  vertices_valid : g.vertices.Valid
  edges_valid : g.edges.Valid
  vertex_id : ∀ {v x}, g.vertices.get? v = some x → x.id = v
  edge_id : ∀ {e edge}, g.edges.get? e = some edge → edge.id = e
  nodup : es.Nodup
  mem_iff : ∀ {e}, e ∈ es ↔ g.edges.contains e = true
  tail_live : ∀ {e edge}, g.edges.get? e = some edge → g.vertices.contains edge.tail = true
  head_live : ∀ {e edge}, g.edges.get? e = some edge → g.vertices.contains edge.head = true
  lists : ∀ {v x}, g.vertices.get? v = some x → ∀ side,
    (x.list side).Lists (g.occurrences es v side)

theorem findEdge?_mem {g : Graph V E} {a b : VertexId} {e : EdgeId}
    (h : g.findEdge? a b = some e) : (g.edges.get? e).isSome = true := by
  rw [findEdge?] at h
  split at h
  · split at h
    · have hl := List.find?_some h
      rw [Graph.leads] at hl
      split at hl
      · rename_i edge he
        rw [he]
        rfl
      · cases hl
    · cases h
  · cases h

/-- An edge handed out was found between two live vertices, or is new there. -/
theorem link_eq_ok {g g' : Graph V E} {tail head : VertexId} {kind : EdgeKind} {data : E}
    {e : EdgeId} (h : g.link tail head kind data = .ok (e, g')) :
    g.vertices.contains tail = true ∧ g.vertices.contains head = true ∧
      ((g.findEdge? tail head = some e ∧ g' = g) ∨
        (g.findEdge? tail head = none ∧ g.addEdge tail head kind data = (e, g'))) := by
  rw [link] at h
  cases ht : g.vertices.get? tail with
  | none => simp [vertex, ht, bind, Except.bind] at h
  | some x =>
    cases hh : g.vertices.get? head with
    | none => simp [vertex, ht, hh, bind, Except.bind] at h
    | some y =>
      simp only [vertex, ht, hh, bind, Except.bind, pure, Except.pure] at h
      refine ⟨Arena.contains_iff.mpr ⟨x, ht⟩, Arena.contains_iff.mpr ⟨y, hh⟩, ?_⟩
      cases hf : g.findEdge? tail head with
      | some d =>
        rw [hf] at h
        cases h
        exact Or.inl ⟨rfl, rfl⟩
      | none =>
        rw [hf] at h
        exact Or.inr ⟨rfl, Except.ok.inj h⟩

/-- Nothing that the mirror is about differs. -/
structure SameShape (g g' : Graph V E) : Prop where
  vertex : ∀ {v x'}, g'.vertices.get? v = some x' →
    ∃ x, g.vertices.get? v = some x ∧ x'.id = x.id ∧ ∀ side, x'.list side = x.list side
  edge : ∀ {e x'}, g'.edges.get? e = some x' → ∃ x, g.edges.get? e = some x ∧ x'.id = x.id ∧
    x'.tail = x.tail ∧ x'.head = x.head ∧ x'.kind = x.kind
  contains_vertex : ∀ v, g'.vertices.contains v = g.vertices.contains v
  contains_edge : ∀ e, g'.edges.contains e = g.edges.contains e

theorem SameShape.endsAt {g g' : Graph V E} (hs : SameShape g g') (v : VertexId) (side : Side)
    (e : EdgeId) : g'.endsAt v side e = g.endsAt v side e := by
  cases he' : g'.edges.get? e with
  | none =>
    have hcontains := hs.contains_edge e
    rw [Arena.contains, Arena.contains, he', Option.isSome_none, eq_comm,
      Option.isSome_eq_false_iff, Option.isNone_iff_eq_none] at hcontains
    rw [Graph.endsAt, Graph.endsAt, he', hcontains]
  | some x' =>
    obtain ⟨x, hx, _, ht, hh, hk⟩ := hs.edge he'
    rw [endsAt_of_get? he', endsAt_of_get? hx]
    cases side <;> simp [Edge.ends, ht, hh, hk]

namespace Mirrors

variable {g : Graph V E} {es : List EdgeId}

theorem get?_of_mem (h : g.Mirrors es) {e : EdgeId} (he : e ∈ es) :
    ∃ edge, g.edges.get? e = some edge :=
  Arena.contains_iff.mp (h.mem_iff.mp he)

theorem mem_of_get? (h : g.Mirrors es) {e : EdgeId} {edge : Edge E}
    (he : g.edges.get? e = some edge) : e ∈ es :=
  h.mem_iff.mpr (Arena.contains_iff.mpr ⟨edge, he⟩)

theorem empty : Mirrors ({} : Graph V E) [] where
  vertices_valid := Arena.valid_empty
  edges_valid := Arena.valid_empty
  vertex_id h := by simp [Arena.get?] at h
  edge_id h := by simp [Arena.get?] at h
  nodup := List.nodup_nil
  mem_iff := by simp [Arena.contains, Arena.get?]
  tail_live h := by simp [Arena.get?] at h
  head_live h := by simp [Arena.get?] at h
  lists h := by simp [Arena.get?] at h

theorem of_sameShape (h : g.Mirrors es) {g' : Graph V E} (hs : SameShape g g')
    (hvertices : g'.vertices.Valid) (hedges : g'.edges.Valid) : g'.Mirrors es where
  vertices_valid := hvertices
  edges_valid := hedges
  vertex_id hx' := by
    obtain ⟨x, hx, hid, _⟩ := hs.vertex hx'
    exact hid.trans (h.vertex_id hx)
  edge_id hx' := by
    obtain ⟨x, hx, hid, _⟩ := hs.edge hx'
    exact hid.trans (h.edge_id hx)
  nodup := h.nodup
  mem_iff {e} := by
    rw [hs.contains_edge]
    exact h.mem_iff
  tail_live hx' := by
    obtain ⟨x, hx, _, ht, _⟩ := hs.edge hx'
    rw [hs.contains_vertex, ht]
    exact h.tail_live hx
  head_live hx' := by
    obtain ⟨x, hx, _, _, hh, _⟩ := hs.edge hx'
    rw [hs.contains_vertex, hh]
    exact h.head_live hx
  lists {v x'} hx' side := by
    obtain ⟨x, hx, _, hlist⟩ := hs.vertex hx'
    rw [hlist side, occurrences_congr fun e _ => hs.endsAt v side e]
    exact h.lists hx side

/-- Whatever does not touch ids and adjacency lists of a vertex keeps the mirror. -/
theorem modifyVertex (h : g.Mirrors es) (v : VertexId) {f : Vertex V → Vertex V}
    (hid : ∀ x, (f x).id = x.id) (hlist : ∀ x side, (f x).list side = x.list side) :
    Mirrors { g with vertices := g.vertices.modify v f } es := by
  refine h.of_sameShape ⟨fun {w x} hx => ?_, fun he => ⟨_, he, rfl, rfl, rfl, rfl⟩,
    fun w => by simp, fun e => rfl⟩ (Arena.valid_modify h.vertices_valid v f) h.edges_valid
  rw [Arena.get?_modify] at hx
  split at hx
  · rename_i hw
    obtain ⟨y, hy, rfl⟩ := Option.map_eq_some_iff.mp hx
    exact ⟨y, hw ▸ hy, hid y, hlist y⟩
  · exact ⟨x, hx, rfl, fun _ => rfl⟩

/-- Whatever does not touch id, ends and kind of an edge keeps the mirror. -/
theorem modifyEdge (h : g.Mirrors es) (e : EdgeId) {f : Edge E → Edge E}
    (hid : ∀ x, (f x).id = x.id) (htail : ∀ x, (f x).tail = x.tail)
    (hhead : ∀ x, (f x).head = x.head) (hkind : ∀ x, (f x).kind = x.kind) :
    Mirrors { g with edges := g.edges.modify e f } es := by
  refine h.of_sameShape ⟨fun hv => ⟨_, hv, rfl, fun _ => rfl⟩, fun {d x} hx => ?_, fun v => rfl,
    fun d => by simp⟩ h.vertices_valid (Arena.valid_modify h.edges_valid e f)
  rw [Arena.get?_modify] at hx
  split at hx
  · rename_i hd
    obtain ⟨y, hy, rfl⟩ := Option.map_eq_some_iff.mp hx
    exact ⟨y, hd ▸ hy, hid y, htail y, hhead y, hkind y⟩
  · exact ⟨x, hx, rfl, rfl, rfl, rfl⟩

theorem withChannels (h : g.Mirrors es) (channels : SlotTable) :
    Mirrors { g with channels } es :=
  ⟨h.vertices_valid, h.edges_valid, h.vertex_id, h.edge_id, h.nodup, h.mem_iff, h.tail_live,
    h.head_live, h.lists⟩

/-! Growth -/

theorem vertices_addVertex (g : Graph V E) (data : V) :
    (g.addVertex data).2.vertices = (g.vertices.insertWith fun id => { id, data }).2 :=
  rfl

theorem addVertex (h : g.Mirrors es) (data : V) : (g.addVertex data).2.Mirrors es := by
  have hnone := Arena.get?_nextId h.vertices_valid
  have hlive {v : VertexId} (hv : g.vertices.contains v = true) :
      (g.addVertex data).2.vertices.contains v = true := by
    rw [vertices_addVertex, Arena.contains_insertWith h.vertices_valid, hv, Bool.or_true]
  have hget {v : VertexId} {x : Vertex V} (hx : (g.addVertex data).2.vertices.get? v = some x) :
      (v = g.vertices.nextId ∧ x = { id := v, data }) ∨ g.vertices.get? v = some x := by
    rw [vertices_addVertex, Arena.get?_insertWith h.vertices_valid] at hx
    split at hx
    · rename_i hv
      cases hx
      exact Or.inl ⟨hv, by rw [hv]⟩
    · exact Or.inr hx
  have hvalid : (g.addVertex data).2.vertices.Valid := by
    rw [vertices_addVertex]
    exact Arena.valid_insertWith h.vertices_valid _
  refine ⟨hvalid, h.edges_valid, ?_, h.edge_id, h.nodup, h.mem_iff,
    fun he => hlive (h.tail_live he), fun he => hlive (h.head_live he), ?_⟩
  · intro v x hx
    obtain ⟨_, rfl⟩ | hx := hget hx
    · rfl
    · exact h.vertex_id hx
  · intro v x hx side
    obtain ⟨rfl, rfl⟩ | hx := hget hx
    · have hocc : (g.addVertex data).2.occurrences es g.vertices.nextId side = [] := by
        refine occurrences_eq_nil fun e he => ?_
        obtain ⟨edge, hedge⟩ := h.get?_of_mem he
        rw [endsAt_of_get? (g := (g.addVertex data).2) hedge]
        have hne {u : VertexId} (hu : g.vertices.contains u = true) : u ≠ g.vertices.nextId := by
          intro heq
          subst heq
          rw [Arena.contains, hnone] at hu
          cases hu
        exact Edge.ends_eq_nil (hne (h.tail_live hedge)) (hne (h.head_live hedge)) side
      rw [hocc]
      cases side <;> exact Adjacency.lists_empty
    · exact h.lists hx side

theorem addVertices (h : g.Mirrors es) (data : List V) : (g.addVertices data).2.Mirrors es := by
  induction data generalizing g with
  | nil => exact h
  | cons d rest ih => exact ih (h.addVertex d)

theorem get?_addEdge (g : Graph V E) (tail head : VertexId) (kind : EdgeKind) (data : E)
    (v : VertexId) :
    (g.addEdge tail head kind data).2.vertices.get? v = (g.vertices.get? v).map fun x =>
      x.attachEnds v ({ id := g.edges.nextId, tail, head, kind, data } : Edge E) := by
  simp only [Graph.addEdge, Arena.get?_modify_modify, Arena.insertWith_fst, Vertex.attachEnds]

theorem edges_addEdge (g : Graph V E) (tail head : VertexId) (kind : EdgeKind) (data : E) :
    (g.addEdge tail head kind data).2.edges =
      (g.edges.insertWith fun id => { id, tail, head, kind, data }).2 :=
  rfl

theorem fst_addEdge (g : Graph V E) (tail head : VertexId) (kind : EdgeKind) (data : E) :
    (g.addEdge tail head kind data).1 = g.edges.nextId := by
  rw [Graph.addEdge]
  exact Arena.insertWith_fst _ _

theorem nextId_not_mem (h : g.Mirrors es) : g.edges.nextId ∉ es := by
  intro hm
  obtain ⟨edge, hedge⟩ := h.get?_of_mem hm
  rw [Arena.get?_nextId h.edges_valid] at hedge
  cases hedge

theorem addEdge (h : g.Mirrors es) {tail head : VertexId} (ht : g.vertices.contains tail = true)
    (hh : g.vertices.contains head = true) (kind : EdgeKind) (data : E) :
    (g.addEdge tail head kind data).2.Mirrors (es ++ [g.edges.nextId]) := by
  let edge : Edge E := { id := g.edges.nextId, tail, head, kind, data }
  have hedges (e : EdgeId) : (g.addEdge tail head kind data).2.edges.get? e =
      if e = g.edges.nextId then some edge else g.edges.get? e := by
    rw [edges_addEdge, Arena.get?_insertWith h.edges_valid]
  have hfresh := h.nextId_not_mem
  have hlive {v : VertexId} (hv : g.vertices.contains v = true) :
      (g.addEdge tail head kind data).2.vertices.contains v = true := by
    simpa [Graph.addEdge] using hv
  have hvalid : (g.addEdge tail head kind data).2.edges.Valid := by
    rw [edges_addEdge]
    exact Arena.valid_insertWith h.edges_valid _
  refine ⟨Arena.valid_modify (Arena.valid_modify h.vertices_valid _ _) _ _, hvalid, ?_, ?_, ?_, ?_,
    ?_, ?_, ?_⟩
  · intro v x hx
    rw [get?_addEdge] at hx
    obtain ⟨y, hy, rfl⟩ := Option.map_eq_some_iff.mp hx
    rw [Vertex.id_attachEnds]
    exact h.vertex_id hy
  · intro e x hx
    rw [hedges] at hx
    split at hx
    · cases hx
      exact Eq.symm ‹_›
    · exact h.edge_id hx
  · refine List.nodup_append.mpr ⟨h.nodup, List.nodup_singleton _, ?_⟩
    intro e he d hd heq
    subst heq
    exact hfresh (List.mem_singleton.mp hd ▸ he)
  · intro e
    rw [Arena.contains_iff, List.mem_append, List.mem_singleton]
    simp only [hedges]
    by_cases he : e = g.edges.nextId
    · simp [he]
    · simp [he, h.mem_iff, Arena.contains_iff]
  · intro e x hx
    rw [hedges] at hx
    split at hx
    · cases hx
      exact hlive ht
    · exact hlive (h.tail_live hx)
  · intro e x hx
    rw [hedges] at hx
    split at hx
    · cases hx
      exact hlive hh
    · exact hlive (h.head_live hx)
  · intro v x hx side
    rw [get?_addEdge] at hx
    obtain ⟨y, hy, rfl⟩ := Option.map_eq_some_iff.mp hx
    have hold : (g.addEdge tail head kind data).2.occurrences es v side =
        g.occurrences es v side := by
      refine occurrences_congr fun e he => ?_
      have hne : e ≠ g.edges.nextId := fun heq => hfresh (heq ▸ he)
      rw [endsAt, endsAt, hedges, if_neg hne]
    have hnew : (g.addEdge tail head kind data).2.endsAt v side g.edges.nextId =
        edge.ends v side := by
      rw [endsAt, hedges, if_pos rfl]
    rw [occurrences_append, hold, occurrences_cons, hnew]
    simpa [occurrences] using Vertex.lists_attachEnds (h.lists hy side) v edge

theorem link (h : g.Mirrors es) {tail head : VertexId} {kind : EdgeKind} {data : E} {e : EdgeId}
    {g' : Graph V E} (hl : g.link tail head kind data = .ok (e, g')) :
    g'.Mirrors (if e ∈ es then es else es ++ [e]) := by
  obtain ⟨ht, hh, ⟨hfound, rfl⟩ | ⟨_, hadd⟩⟩ := link_eq_ok hl
  · obtain ⟨edge, hedge⟩ := Option.isSome_iff_exists.mp (findEdge?_mem hfound)
    rw [if_pos (h.mem_of_get? hedge)]
    exact h
  · have hid : e = g.edges.nextId := by rw [← fst_addEdge g tail head kind data, hadd]
    have hg : g' = (g.addEdge tail head kind data).2 := by rw [hadd]
    rw [hid, if_neg h.nextId_not_mem, hg]
    exact h.addEdge ht hh kind data

/-! Removal -/

theorem get?_removeEdge {e : EdgeId} {edge : Edge E} (hid : edge.id = e) (v : VertexId) :
    ((g.vertices.modify edge.tail (·.detach e edge.head edge.kind.tailRoles)).modify edge.head
      (·.detach e edge.tail edge.kind.headRoles)).get? v =
      (g.vertices.get? v).map fun x => x.detachEnds v edge := by
  subst hid
  simp only [Arena.get?_modify_modify, Vertex.detachEnds]

theorem removeEdge (h : g.Mirrors es) {e : EdgeId} {edge : Edge E}
    (he : g.edges.get? e = some edge) :
    ∃ g', g.removeEdge e = .ok (edge.data, g') ∧ g'.Mirrors (es.erase e) ∧
      (∀ v, g'.vertices.get? v = (g.vertices.get? v).map fun x => x.detachEnds v edge) ∧
      ∀ d, g'.edges.get? d = if d = e then none else g.edges.get? d := by
  have hid := h.edge_id he
  have herase : ∃ edges, g.edges.erase? e = some (edge, edges) := by
    rw [Arena.erase?, he]
    exact ⟨_, rfl⟩
  obtain ⟨edges, herase⟩ := herase
  have hvertices := get?_removeEdge (g := g) hid
  have hedges := Arena.get?_erase? herase
  have hremoved : g.removeEdge e = .ok (edge.data, { g with
      vertices := (g.vertices.modify edge.tail (·.detach e edge.head edge.kind.tailRoles)).modify
        edge.head (·.detach e edge.tail edge.kind.headRoles)
      edges }) := by
    rw [Graph.removeEdge, herase]
  refine ⟨_, hremoved, ?_, hvertices, hedges⟩
  obtain ⟨before, after, rfl⟩ := List.append_of_mem (h.mem_of_get? he)
  have hnd := List.nodup_middle.mp h.nodup
  have hout := (List.nodup_cons.mp hnd).1
  have hbefore : e ∉ before := fun hm => hout (List.mem_append_left _ hm)
  rw [List.erase_append_right _ hbefore, List.erase_cons_head]
  refine ⟨Arena.valid_modify (Arena.valid_modify h.vertices_valid _ _) _ _,
    Arena.valid_erase? h.edges_valid herase, ?_, ?_, (List.nodup_cons.mp hnd).2, ?_, ?_, ?_, ?_⟩
  · intro v x hx
    rw [hvertices] at hx
    obtain ⟨y, hy, rfl⟩ := Option.map_eq_some_iff.mp hx
    rw [Vertex.id_detachEnds]
    exact h.vertex_id hy
  · intro d x hx
    rw [hedges] at hx
    split at hx
    · cases hx
    · exact h.edge_id hx
  · intro d
    rw [Arena.contains_erase? herase]
    by_cases hd : d = e
    · subst hd
      simpa using hout
    · have := h.mem_iff (e := d)
      simpa [hd] using this
  · intro d x hx
    rw [hedges] at hx
    split at hx
    · cases hx
    · simpa using h.tail_live hx
  · intro d x hx
    rw [hedges] at hx
    split at hx
    · cases hx
    · simpa using h.head_live hx
  · intro v x hx side
    rw [hvertices] at hx
    obtain ⟨y, hy, rfl⟩ := Option.map_eq_some_iff.mp hx
    have hold := h.lists hy side
    rw [occurrences_append, occurrences_cons, endsAt_of_get? he, ← hid, ← List.append_assoc] at hold
    have hkeep {ds : List EdgeId} (hds : e ∉ ds) (g' : Graph V E)
        (hg' : ∀ d, g'.edges.get? d = if d = e then none else g.edges.get? d) :
        g'.occurrences ds v side = g.occurrences ds v side := by
      refine occurrences_congr fun d hd => ?_
      have hne : d ≠ e := fun heq => hds (heq ▸ hd)
      rw [endsAt, endsAt, hg', if_neg hne]
    rw [occurrences_append, hkeep hbefore _ hedges,
      hkeep (fun hm => hout (List.mem_append_right _ hm)) _ hedges]
    refine Vertex.lists_detachEnds hold ?_
    rw [hid, mem_edges_occurrences]
    exact fun hm => hbefore hm.1

end Mirrors

end Waymark.Graph
