import Waymark.Proofs.Overlay.Quote
import Waymark.Proofs.Search.Start

namespace Waymark

variable {V E κ : Type} {g g' : Graph V E} {es : List EdgeId}

namespace Appraiser

variable {a : Appraiser V E κ}

/-- An evaluator that has been asked about these edges, too. -/
def through (a : Appraiser V E κ) (es : List EdgeId) : Appraiser V E κ :=
  { a with asked := a.asked ++ es }

theorem through_nil (a : Appraiser V E κ) : a.through [] = a := by
  simp [through]

theorem through_ask (a : Appraiser V E κ) (g : Graph V E) (edge : Edge E) (es : List EdgeId) :
    (a.ask g edge).2.through es = a.through (edge.id :: es) := by
  simp [through, ask]

theorem through_through (a : Appraiser V E κ) (es fs : List EdgeId) :
    (a.through es).through fs = a.through (es ++ fs) := by
  have hasked : a.asked ++ es ++ fs = a.asked ++ (es ++ fs) := Array.toList_inj.mp (by simp)
  rw [through, through, through, hasked]

theorem toList_asked_through (a : Appraiser V E κ) (es : List EdgeId) :
    (a.through es).asked.toList = a.asked.toList ++ es := by
  simp [through]

end Appraiser

/-- The evaluator with all that it was asked, and whether there was a search since the costs were
taken. -/
def Overlay.account (o : Overlay V E κ) : Appraiser V E κ × Bool := (o.appraiser, o.used)

/-- What makes an evaluator go over the edges. -/
inductive Episode
  | reset
  | accepted
  deriving DecidableEq

/-- A reset asks about all edges, and so does a search that is let through, unless it is the first
since the costs were taken. -/
def Episode.on (ids : List EdgeId) : Episode → Appraiser V E κ × Bool → Appraiser V E κ × Bool
  | reset, account => (account.1.through ids, false)
  | accepted, account => (if account.2 then account.1.through ids else account.1, true)

theorem Episode.evaluator_on (ids : List EdgeId) (e : Episode)
    (account : Appraiser V E κ × Bool) : (e.on ids account).1.evaluator = account.1.evaluator := by
  cases e with
  | reset => rfl
  | accepted =>
    rw [Episode.on]
    split <;> rfl

/-- Whether a search from `a` to `b` is to be let through. -/
def Graph.Admits (g : Graph V E) (a b : VertexId) : Prop :=
  g.vertices.contains a = true ∧ g.vertices.contains b = true ∧ a ≠ b

instance (g : Graph V E) (a b : VertexId) : Decidable (g.Admits a b) :=
  inferInstanceAs (Decidable (_ ∧ _ ∧ _))

theorem Graph.admits_of_bare {a b : VertexId} (hb : g'.bare = g.bare) :
    g'.Admits a b ↔ g.Admits a b := by
  rw [Admits, Admits, contains_vertices_of_bare hb, contains_vertices_of_bare hb]

variable [Cost κ]

/-! Mounting -/

namespace Mounting

variable {m m' : Mounting V E κ}

omit [Cost κ] in
theorem account_addVertices {xs : List (Vertex V)} (h : xs.foldlM Mounting.addVertex m = .ok m') :
    m'.overlay.account = m.overlay.account := by
  induction xs generalizing m with
  | nil =>
    cases h
    rfl
  | cons x xs ih =>
    obtain ⟨m₁, hx, hrest⟩ := foldlM_cons_eq_ok h
    rw [ih hrest, addVertex_eq_ok hx]
    rfl

theorem account_addEdges {xs : List (Edge E)} (h : xs.foldlM Mounting.addEdge m = .ok m') :
    m'.overlay.account = (m.overlay.appraiser.through (xs.map Edge.id), m.overlay.used) := by
  induction xs generalizing m with
  | nil =>
    cases h
    rw [List.map_nil, Appraiser.through_nil]
    rfl
  | cons x xs ih =>
    obtain ⟨m₁, hx, hrest⟩ := foldlM_cons_eq_ok h
    obtain ⟨appraiser, cost, hp, rfl⟩ := addEdge_eq_ok hx
    have ha : appraiser = (m.overlay.appraiser.ask m.graph x).2 := by
      rw [← Appraiser.snd_price, hp]
    rw [ih hrest, ha, Appraiser.through_ask]
    rfl

end Mounting

/-- A new overlay has asked about each edge once. -/
theorem Graph.account_mount (hm : g.Mirrors es) {evaluator : Evaluator V E κ}
    {o : Overlay V E κ} (h : g.mount evaluator = (.ok o, g')) :
    o.account = (Appraiser.through { evaluator } g.edges.ids, false) := by
  obtain ⟨m, hadd, ho, _⟩ | ⟨_, m, _, ho, _⟩ := mount_cases h
  · cases ho
    obtain ⟨m₁, hx, hadd⟩ := Mounting.addAll_eq_ok hadd
    have hb := ((Mounting.Entered.begin g evaluator).addVertices hx).bare
    have hvertices := Mounting.account_addVertices hx
    have hedges := Mounting.account_addEdges hadd
    rw [(Graph.mirrors_of_bare hb hm).map_edge_id, Graph.edge_ids_of_bare hb] at hedges
    rw [hedges]
    exact congrArg (fun p => (p.1.through g.edges.ids, p.2)) hvertices
  · cases ho

/-! Resetting -/

namespace Overlay

variable {o o' s s' : Overlay V E κ}

/-- A pass over the positions from `k` on asks about the edges there. -/
theorem appraiser_pass (hm : g.Mirrors es) {n k : Nat} (hl : s.Listed g)
    (hn : k + n = g.edges.ids.length)
    (h : (List.range' k n).foldlM (fun o i => o.reprice g i) s = .ok s') :
    s'.appraiser = s.appraiser.through (g.edges.ids.drop k) := by
  induction n generalizing k s with
  | zero =>
    cases h
    rw [List.drop_of_length_le (show g.edges.ids.length ≤ k by omega), Appraiser.through_nil]
  | succ n ih =>
    rw [List.range'_succ] at h
    obtain ⟨s₁, hr, hrest⟩ := foldlM_cons_eq_ok h
    have hk : k < s.edges.size := by rw [hl.size_edges]; omega
    have hmark := Array.getElem?_eq_getElem hk
    obtain ⟨edge, he⟩ := hl.edge_live (Array.getElem_mem hk)
    have hid : g.edges.ids[k]? = some edge.id := by
      rw [← hl.edges, List.getElem?_map, Array.getElem?_toList, hmark, hm.edge_id he]
      rfl
    obtain ⟨hlt, hget⟩ := List.getElem?_eq_some_iff.mp hid
    rw [List.drop_eq_getElem_cons hlt, hget]
    obtain ⟨cost, _, hr'⟩ | ⟨_, _, hr'⟩ := reprice_of_live hmark he
    · rw [hr'] at hr
      cases hr
      have hlayout : SameLayout s { s with
          appraiser := (s.appraiser.ask g edge).2
          edges := s.edges.setIfInBounds k { edge := s.edges[k].edge, cost } } :=
        ⟨rfl, rfl, map_setIfInBounds hmark rfl⟩
      rw [ih (hl.of_sameLayout hlayout) (by omega) hrest, Appraiser.through_ask]
    · rw [hr'] at hr
      cases hr

theorem account_reset (hm : g.Mirrors es) (hl : o.Listed g) (h : o.reset g = .ok o') :
    o'.account = Episode.reset.on g.edges.ids o.account := by
  rw [reset] at h
  cases hr : (List.range o.edges.size).foldlM (fun o i => o.reprice g i) o.clearHops with
  | error e =>
    rw [hr] at h
    cases h
  | ok o₁ =>
    rw [hr] at h
    cases h
    rw [List.range_eq_range', hl.size_edges] at hr
    have hpass := appraiser_pass hm (hl.of_sameLayout o.sameLayout_clearHops) (Nat.zero_add _) hr
    rw [List.drop_zero] at hpass
    exact congrArg (fun a => (a, false)) hpass

theorem account_beginRun (hm : g.Mirrors es) (hl : o.Listed g) (h : o.beginRun g = .ok o') :
    o'.account = Episode.accepted.on g.edges.ids o.account := by
  obtain ⟨hu, rfl⟩ | ⟨hu, o₁, hr, rfl⟩ := beginRun_eq_ok h
  · simp [account, Episode.on, hu]
  · have hreset := congrArg Prod.fst (account_reset hm hl hr)
    simp only [account, Episode.on, hu, if_true] at hreset ⊢
    rw [hreset]

omit [Cost κ] in
theorem Touched.account (h : Touched g o o') : o'.account = o.account := by
  rw [Overlay.account, Overlay.account, h.appraiser, h.used]

end Overlay

/-! Searching -/

namespace Search

variable {o : Overlay V E κ} {a b : VertexId} {config : SearchConfig}

/-- Once it is let through, a search asks all that it asks before its first step. -/
theorem account_start (hm : g.Mirrors es) (hl : o.Listed g) {s : Search V E κ}
    (h : start o g a b config = .ok s) :
    s.overlay.account = Episode.accepted.on g.edges.ids o.account := by
  obtain ⟨_, o₁, hb, rfl⟩ := start_eq_ok.mp h
  have htouched := (touched_fresh o₁ g a b config 0).account
  exact htouched.trans (Overlay.account_beginRun hm hl hb)

/-- A reliable evaluator leaves it to the ends of a search whether it is let through. -/
theorem start_of_admits (hf : o.Fits g) (hl : o.Listed g)
    (ha : o.appraiser.evaluator.Reliable g) (hab : g.Admits a b) (config : SearchConfig) :
    ∃ s, start o g a b config = .ok s := by
  obtain ⟨o₁, hb⟩ := Overlay.beginRun_of_reliable hl ha
  exact ⟨_, start_eq_ok.mpr ⟨(refusal?_eq_none hf).mpr hab, o₁, hb, rfl⟩⟩

/-- A search that is turned away finds the overlay as it was and leaves it so. -/
theorem start_of_not_admits (hf : o.Fits g) (hab : ¬ g.Admits a b) (config : SearchConfig) :
    ∃ failure, start o g a b config = .error (failure, o) := by
  cases hr : refusal? o g a b with
  | none => exact (hab ((refusal?_eq_none hf).mp hr)).elim
  | some failure => exact ⟨failure, by rw [start, hr]⟩

end Search

/-- However it ends, a search comes to no more questions than its beginning. -/
theorem Overlay.account_search {o : Overlay V E κ} (hm : g.Mirrors es) (hf : o.Fits g)
    (hl : o.Listed g) (ha : o.appraiser.evaluator.Reliable g) (a b : VertexId)
    (config : SearchConfig) : (givenBack (o.search g a b config)).account =
      if g.Admits a b then Episode.accepted.on g.edges.ids o.account else o.account := by
  rw [Overlay.search]
  by_cases hab : g.Admits a b
  · obtain ⟨s, hs⟩ := Search.start_of_admits hf hl ha hab config
    rw [if_pos hab, hs]
    exact (s.touched_run (g := g)).account.trans (Search.account_start hm hl hs)
  · obtain ⟨failure, hs⟩ := Search.start_of_not_admits hf hab config
    rw [if_neg hab, hs]
    rfl

end Waymark
