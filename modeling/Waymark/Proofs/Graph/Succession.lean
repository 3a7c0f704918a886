import Mathlib.Data.List.Perm.Subperm
import Waymark.Proofs.Graph.Ledger
import Waymark.Proofs.Graph.Lookup

namespace Waymark

/-- From where to where an edge is declared, and of what kind it is. -/
def Edge.declaration {E : Type} (edge : Edge E) : VertexId × VertexId × EdgeKind :=
  (edge.tail, edge.head, edge.kind)

theorem Edge.ends_of_declaration {E : Type} {edge edge' : Edge E}
    (h : edge'.declaration = edge.declaration) : edge'.tail = edge.tail ∧ edge'.head = edge.head ∧
      edge'.isBidirectional = edge.isBidirectional := by
  obtain ⟨ht, hh, hk⟩ : edge'.tail = edge.tail ∧ edge'.head = edge.head ∧ edge'.kind = edge.kind :=
    by simpa [declaration] using h
  exact ⟨ht, hh, by rw [isBidirectional, isBidirectional, hk]⟩

theorem Edge.leads_of_declaration {E : Type} {edge edge' : Edge E}
    (h : edge'.declaration = edge.declaration) (a b : VertexId) :
    edge'.leads a b = edge.leads a b := by
  obtain ⟨ht, hh, hboth⟩ := ends_of_declaration h
  rw [leads, leads, ht, hh, hboth]

namespace Graph

variable {V E : Type} {g g' g'' : Graph V E} {es es' : List EdgeId} {e : EdgeId}

def declaration? (g : Graph V E) (e : EdgeId) : Option (VertexId × VertexId × EdgeKind) :=
  (g.edges.get? e).map Edge.declaration

theorem leads_of_declaration? (h : g'.declaration? e = g.declaration? e) (a b : VertexId) :
    g'.leads a b e = g.leads a b e := by
  unfold declaration? at h
  rw [leads, leads]
  cases he : g.edges.get? e with
  | none =>
    rw [he] at h
    rw [Option.map_eq_none_iff.mp h]
  | some edge =>
    rw [he] at h
    obtain ⟨edge', he', hd⟩ := Option.map_eq_some_iff.mp h
    rw [he']
    exact Edge.leads_of_declaration hd a b

theorem declaration?_of_get? (h : g'.edges.get? e = g.edges.get? e) :
    g'.declaration? e = g.declaration? e := by
  rw [declaration?, declaration?, h]

theorem declaration?_modify (d : EdgeId) {f : Edge E → Edge E}
    (hf : ∀ x, (f x).declaration = x.declaration) (e : EdgeId) :
    declaration? { g with edges := g.edges.modify d f } e = g.declaration? e := by
  simp only [declaration?]
  rw [Arena.get?_modify_eq_map, Option.map_map]
  congr 1
  funext x
  by_cases he : e = d <;> simp [he, hf]

/-- The live edges after a change, oldest first, if `es` were those before it. -/
def seniority (g : Graph V E) (es : List EdgeId) : List EdgeId :=
  es.filter g.edges.contains ++ g.edges.ids.filter (· ∉ es)

/-- What a change makes of the live edges: some go and the others stay as declared, or there is one
more, leading where none did. -/
inductive Succeeds (g g' : Graph V E) (es : List EdgeId) : List EdgeId → Prop
  | kept {es' : List EdgeId} (hsub : es'.Sublist es)
    (hsame : ∀ e ∈ es', g'.declaration? e = g.declaration? e) : Succeeds g g' es es'
  | grown {e : EdgeId} {edge : Edge E} (he : g'.edges.get? e = some edge)
    (hsame : ∀ d ∈ es, g'.declaration? d = g.declaration? d)
    (hnone : ∀ d ∈ es, g.leads edge.tail edge.head d = false) : Succeeds g g' es (es ++ [e])

theorem Succeeds.same (h : ∀ e, g'.declaration? e = g.declaration? e) : Succeeds g g' es es :=
  .kept (List.Sublist.refl es) fun e _ => h e

theorem filter_eq_of_sublist {l l' : List EdgeId} {p : EdgeId → Bool} (h : l'.Sublist l)
    (hn : l.Nodup) (hp : ∀ e ∈ l, e ∈ l' ↔ p e = true) : l.filter p = l' := by
  have hsub : l'.Sublist (l.filter p) := by
    have hself : l'.filter p = l' :=
      List.filter_eq_self.mpr fun e he => (hp e (h.subset he)).mp he
    rw [← hself]
    exact h.filter p
  have hsuperset : l.filter p ⊆ l' := fun e he =>
    (hp e (List.mem_of_mem_filter he)).mpr (List.of_mem_filter he)
  exact (hsub.eq_of_length_le ((hn.filter p).subperm hsuperset).length_le).symm

/-- Which edges are live says which of them are old and which is new. -/
theorem Succeeds.eq_seniority (h : Succeeds g g' es es') (hn : es.Nodup) (hn' : es'.Nodup)
    (hm : ∀ {e}, e ∈ es' ↔ g'.edges.contains e = true) : g'.seniority es = es' := by
  cases h with
  | kept hsub hsame =>
    have hnew : g'.edges.ids.filter (· ∉ es) = [] := by
      refine List.filter_eq_nil_iff.mpr fun e he hnot => ?_
      have hold := hsub.subset (hm.mpr (Arena.mem_ids.mp he))
      simp [hold] at hnot
    rw [seniority, hnew, List.append_nil, filter_eq_of_sublist hsub hn fun _ _ => hm]
  | @grown e edge he hsame hnone =>
    have hfresh : e ∉ es := fun hmem =>
      (List.nodup_append.mp hn').2.2 e hmem e (List.mem_singleton_self e) rfl
    have hold : es.filter g'.edges.contains = es :=
      List.filter_eq_self.mpr fun d hd => hm.mp (List.mem_append_left _ hd)
    have hnew : g'.edges.ids.filter (· ∉ es) = [e] := by
      have hids : g'.edges.ids.Nodup := g'.edges.nodup_ids_index.of_map _
      have hlive : e ∈ g'.edges.ids :=
        Arena.mem_ids.mpr (hm.mp (List.mem_append_right _ (List.mem_singleton_self e)))
      refine filter_eq_of_sublist (List.singleton_sublist.mpr hlive) hids fun d hd => ?_
      have hmem := hm.mpr (Arena.mem_ids.mp hd)
      rw [List.mem_append] at hmem
      simp only [decide_not, Bool.not_eq_true', decide_eq_false_iff_not]
      constructor
      · intro hde hmem
        exact hfresh (List.mem_singleton.mp hde ▸ hmem)
      · intro hnot
        exact hmem.resolve_left hnot
    rw [seniority, hold, hnew]

/-! Edits -/

theorem edges_addVertices (g : Graph V E) (data : List V) :
    (g.addVertices data).2.edges = g.edges := by
  induction data generalizing g with
  | nil => rfl
  | cons d rest ih => exact ih (g.addVertex d).2

theorem declaration?_of_edges (h : g'.edges = g.edges) (e : EdgeId) :
    g'.declaration? e = g.declaration? e := by
  rw [declaration?, declaration?, h]

theorem declaration?_setEdgeData {data old : E} (hs : g.setEdgeData e data = .ok (old, g'))
    (d : EdgeId) : g'.declaration? d = g.declaration? d := by
  obtain ⟨_, _, _, rfl⟩ := setEdgeData_eq_ok hs
  refine declaration?_modify (g := g) e ?_ d
  intro y
  rfl

theorem edges_setVertexData {v : VertexId} {data old : V}
    (hs : g.setVertexData v data = .ok (old, g')) : g'.edges = g.edges := by
  obtain ⟨_, _, _, rfl⟩ := setVertexData_eq_ok hs
  rfl

/-- Edges that are not among those removed stay as they are. -/
theorem Succeeds.removed {gone : List EdgeId}
    (hget : ∀ d, g'.edges.get? d = if d ∈ gone then none else g.edges.get? d) :
    Succeeds g g' es (es.filter (· ∉ gone)) := by
  refine .kept List.filter_sublist fun e he => ?_
  have hnot := List.of_mem_filter he
  simp only [decide_not, Bool.not_eq_true', decide_eq_false_iff_not] at hnot
  rw [declaration?, declaration?, hget, if_neg hnot]

theorem Succeeds.linked (hm : g.Mirrors es) {tail head : VertexId} {kind : EdgeKind} {data : E}
    (hl : g.link tail head kind data = .ok (e, g')) :
    Succeeds g g' es (if e ∈ es then es else es ++ [e]) := by
  obtain ⟨_, _, ⟨hfound, rfl⟩ | ⟨hnone, hadd⟩⟩ := link_eq_ok hl
  · obtain ⟨edge, hedge⟩ := Option.isSome_iff_exists.mp (findEdge?_mem hfound)
    rw [if_pos (hm.mem_of_get? hedge)]
    exact .same fun _ => rfl
  · have hid : e = g.edges.nextId := by rw [← Mirrors.fst_addEdge g tail head kind data, hadd]
    have hedges : g'.edges = (g.edges.insertWith fun id => { id, tail, head, kind, data }).2 := by
      rw [← Mirrors.edges_addEdge, hadd]
    have hget (d : EdgeId) := Arena.get?_insertWith hm.edges_valid
      (fun id => ({ id, tail, head, kind, data } : Edge E)) d
    have hold {d : EdgeId} (hd : d ∈ es) : d ≠ g.edges.nextId :=
      fun heq => hm.nextId_not_mem (heq ▸ hd)
    rw [hid, if_neg hm.nextId_not_mem]
    have hadded : g'.edges.get? g.edges.nextId =
        some { id := g.edges.nextId, tail, head, kind, data } := by
      rw [hedges, hget, if_pos rfl]
    refine .grown hadded ?_ ?_
    · intro d hd
      refine declaration?_of_get? ?_
      rw [hedges, hget, if_neg (hold hd)]
    · intro d hd
      rw [hm.findEdge?_eq, List.find?_eq_none] at hnone
      exact Bool.eq_false_iff.mpr (hnone d hd)

theorem Edited.succeeds (h : g.Edited g') (hm : g.Mirrors es) :
    ∃ es', Succeeds g g' es es' ∧ g'.Mirrors es' := by
  cases h with
  | addVertex data => exact ⟨es, .same fun _ => rfl, hm.addVertex data⟩
  | addVertices data =>
    exact ⟨es, .same (declaration?_of_edges (g.edges_addVertices data)), hm.addVertices data⟩
  | link hl => exact ⟨_, .linked hm hl, hm.link hl⟩
  | removeVertex hr =>
    obtain ⟨x, order, hx, hperm, hr⟩ := removeVertexBy_eq_ok hr
    obtain ⟨g₁, hok, hm', hget⟩ := hm.removeVertexAlong (vertex_eq_ok.mp hx) hperm
    rw [hok] at hr
    cases hr
    exact ⟨_, .removed hget, hm'⟩
  | @removeEdge _ e data hr =>
    obtain ⟨edge, _, herase, _⟩ := removeEdge_eq_ok hr
    obtain ⟨g₁, hok, hm', _, hget⟩ := hm.removeEdge (Arena.erase?_eq_some herase)
    rw [hok] at hr
    cases hr
    have hfilter : es.erase e = es.filter (· ∉ [e]) := by
      rw [hm.nodup.erase_eq_filter]
      refine List.filter_congr fun d _ => ?_
      by_cases hd : d = e <;> simp [hd]
    rw [hfilter] at hm'
    exact ⟨_, .removed fun d => by simpa using hget d, hm'⟩
  | setVertexData hs =>
    exact ⟨es, .same (declaration?_of_edges (edges_setVertexData hs)), hm.setVertexData hs⟩
  | setEdgeData hs => exact ⟨es, .same (declaration?_setEdgeData hs), hm.setEdgeData hs⟩
  | clear => exact ⟨[], .kept (List.nil_sublist es) fun e he => (List.not_mem_nil he).elim, hm.clear⟩

theorem Redecorated.declaration? (h : g.Redecorated g') (e : EdgeId) :
    g'.declaration? e = g.declaration? e := by
  induction h with
  | refl => rfl
  | vertex _ v f ih => exact ih
  | @edge g₁ _ d f ih =>
    refine Eq.trans ?_ ih
    refine declaration?_modify (g := g₁) d ?_ e
    intro y
    rfl
  | channels _ table ih => exact ih

end Graph

end Waymark
