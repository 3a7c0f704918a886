import Waymark.Proofs.Search.Chart
import Waymark.Proofs.Search.Settled

namespace Waymark

namespace Chart

variable {V E κ : Type} [Cost κ] {g : Graph V E} {cost : EdgeId → κ} {source v : VertexId}
  {opened : VertexId → Prop} {inHand : EdgeId → Prop} {c : Chart κ} {es : List EdgeId}

/-- The invariant of exploring by the order of keys. -/
structure Settled (g : Graph V E) (cost : EdgeId → κ) (source : VertexId)
    (opened : VertexId → Prop) (inHand : EdgeId → Prop) (c : Chart κ) : Prop extends
    Ways.Settled g cost source opened inHand c.ways c.states c.frontier.queue where
  ordered : c.frontier.kind = .costOrdered

/-- An edge that has been seen has been seen for good. -/
theorem seen_discover (c : Chart κ) (base : κ) (e : EdgeId) (price : κ) {d : EdgeId}
    (hd : d = e ∨ c.states d ≠ .unexplored) :
    (c.discover base e price).states d ≠ .unexplored := by
  rw [discover]
  split
  · dsimp only
    by_cases hde : d = e
    · rw [hde, Function.update_self]
      decide
    · rw [Function.update_of_ne hde]
      exact hd.resolve_left hde
  · rename_i hseen
    obtain rfl | hd := hd
    · exact hseen
    · exact hd

theorem seen_discoverAll (c : Chart κ) (base : κ) (cost : EdgeId → κ) (l : List EdgeId)
    {d : EdgeId} (hd : d ∈ l ∨ c.states d ≠ .unexplored) :
    (c.discoverAll base cost l).states d ≠ .unexplored := by
  induction l generalizing c with
  | nil => exact hd.resolve_left (by simp)
  | cons e l ih =>
    refine ih _ ?_
    rw [List.mem_cons] at hd
    obtain (hde | hdl) | hseen := hd
    · exact Or.inr (c.seen_discover base e _ (Or.inl hde))
    · exact Or.inl hdl
    · exact Or.inr (c.seen_discover base e _ (Or.inr hseen))

theorem seen_expand (c : Chart κ) (g : Graph V E) (cost : EdgeId → κ) (source v : VertexId)
    {d : EdgeId} (hd : c.states d ≠ .unexplored) :
    (c.expand g cost source v).states d ≠ .unexplored := by
  rw [expand]
  split
  · exact c.seen_discoverAll _ cost _ (Or.inr hd)
  · exact hd

theorem discoverAll_of_seen (base : κ) (cost : EdgeId → κ) {l : List EdgeId}
    (hl : ∀ e ∈ l, c.states e ≠ .unexplored) : c.discoverAll base cost l = c := by
  induction l with
  | nil => rfl
  | cons e l ih =>
    have hfirst : c.discover base e (cost e) = c := if_neg (hl e (.head l))
    rw [discoverAll, List.foldl_cons, hfirst]
    exact ih fun d hd => hl d (.tail e hd)

/-- There is nothing to do at a vertex all of whose edges have been seen. -/
theorem expand_of_seen (hg : g.Mirrors es) (cost : EdgeId → κ) (source : VertexId)
    (hv : ∀ b e, g.leads v b e = true → c.states e ≠ .unexplored) :
    c.expand g cost source v = c := by
  rw [expand]
  cases hx : g.vertices.get? v with
  | none => rfl
  | some x =>
    refine discoverAll_of_seen _ cost fun e he => ?_
    obtain ⟨b, hb⟩ := (hg.mem_outgoing hx).mp he
    exact hv b e hb

namespace Settled

variable [LawfulCost κ]

theorem discover (h : c.Settled g cost source opened inHand) (hc : ∀ e, 0 ≤ cost e) {base : κ}
    (hv : c.ways.total? source v = some base) {b : VertexId} {e : EdgeId}
    (he : g.leads v b e = true) :
    (c.discover base e (cost e)).Settled g cost source opened inHand := by
  rw [Chart.discover]
  split
  · have hqueue : (c.frontier.push e (base + cost e)).queue =
        Frontier.insertByKey ⟨e, base + cost e⟩ c.frontier.queue := by
      rw [Frontier.push]
      rw [h.ordered]
    refine ⟨?_, (Search.kind_push _ e _).trans h.ordered⟩
    rw [hqueue]
    exact h.toSettled.discover hc hv he
  · exact h

/-- The edges out of a vertex are seen one after another. -/
theorem discoverAll (hc : ∀ e, 0 ≤ cost e) {base : κ} (l : List EdgeId)
    (hl : ∀ e ∈ l, ∃ b, g.leads v b e = true) (h : c.Settled g cost source opened inHand)
    (hv : c.ways.total? source v = some base) :
    (c.discoverAll base cost l).Settled g cost source opened inHand := by
  induction l generalizing c with
  | nil => exact h
  | cons e l ih =>
    obtain ⟨b, hb⟩ := hl e (.head l)
    refine ih (fun d hd => hl d (.tail e hd)) (h.discover hc hv hb) ?_
    rw [ways_discover]
    exact hv

/-- A vertex that has been expanded is closed. -/
theorem expand (h : c.Settled g cost source opened inHand) (hg : g.Mirrors es)
    (hc : ∀ e, 0 ≤ cost e) (hv : c.ways.total? source v ≠ none) :
    (c.expand g cost source v).Settled g cost source (fun u => opened u ∧ u ≠ v) inHand := by
  obtain ⟨base, hv⟩ := Option.ne_none_iff_exists'.mp hv
  rw [Chart.expand]
  cases hx : g.vertices.get? v with
  | none =>
    refine ⟨h.toSettled.close fun b e he => ?_, h.ordered⟩
    obtain ⟨x, hlive⟩ := Arena.contains_iff.mp (hg.live_of_leads he).1
    rw [hx] at hlive
    cases hlive
  | some x =>
    dsimp only
    rw [hv]
    have hall := h.discoverAll hc x.outgoing.edges (fun e he => (hg.mem_outgoing hx).mp he) hv
    refine ⟨hall.toSettled.close fun b e he => ?_, hall.ordered⟩
    exact c.seen_discoverAll _ cost _ (Or.inl ((hg.mem_outgoing hx).mpr ⟨b, he⟩))

/-- Expanding both ends of an edge closes them. -/
theorem expandEnds {e : EdgeId} {edge : Edge E}
    (h : c.Settled g cost source (fun u => ∃ a, g.leads a u e = true) inHand) (hg : g.Mirrors es)
    (hc : ∀ e, 0 ≤ cost e) (hedge : g.edges.get? e = some edge)
    (hends : ∀ a b, g.leads a b e = true → c.ways.total? source b ≠ none) :
    (c.expandEnds g cost source edge).Settled g cost source (fun _ => False) inHand := by
  have he := Graph.leads_forth hedge
  have hhead := h.expand hg hc (hends _ _ he)
  unfold Chart.expandEnds
  dsimp only
  split
  · rename_i hboth
    have he' := Graph.leads_back hedge hboth
    have hreached : (c.expand g cost source edge.head).ways.total? source edge.tail ≠ none := by
      rw [ways_expand]
      exact hends _ _ he'
    have htail := hhead.expand hg hc hreached
    refine { htail with seen := fun hv hl => (htail.seen hv hl).imp_left ?_ }
    intro hwhole
    obtain ⟨⟨⟨a, ha⟩, hnhead⟩, hntail⟩ := hwhole
    obtain ⟨_, hu⟩ | ⟨_, hu⟩ := Graph.leads_ends he ha
    · exact hnhead hu
    · exact hntail hu
  · rename_i hone
    refine { hhead with seen := fun hv hl => (hhead.seen hv hl).imp_left ?_ }
    intro hwhole
    obtain ⟨⟨a, ha⟩, hnhead⟩ := hwhole
    obtain ⟨_, hu⟩ | ⟨hboth, _⟩ := Graph.leads_cases hedge ha
    · exact hnhead hu
    · exact hone hboth

omit [LawfulCost κ] in
theorem live (h : c.Settled g cost source opened inHand) {q : Queued κ} {rest : List (Queued κ)}
    (hq : c.frontier.queue = q :: rest) : g.edges.contains q.edge = true := by
  obtain ⟨a, b, _, _, hl, _⟩ := h.keyed q (by simp [hq])
  exact Graph.contains_of_leads hl

/-- After the next edge has been walked both its ends have been reached. -/
theorem relaxEnds (h : c.Settled g cost source (fun _ => False) (fun _ => False))
    (hg : g.Mirrors es) (hc : ∀ e, 0 ≤ cost e) {q : Queued κ} {rest : List (Queued κ)}
    (hq : c.frontier.queue = q :: rest) {edge : Edge E} (hedge : g.edges.get? q.edge = some edge) :
    ((c.popped rest).relaxEnds source edge (cost q.edge)).Settled g cost source
        (fun u => ∃ a, g.leads a u q.edge = true) (· = q.edge) ∧
      ∀ a b, g.leads a b q.edge = true →
        (c.ways.relaxEnds source edge (cost q.edge)).total? source b ≠ none := by
  have hsettled := h.toSettled
  rw [hq] at hsettled
  have hx := Search.explored_relaxEnds hg c.ways source hedge (cost q.edge)
  obtain ⟨hwalked, hends⟩ := hsettled.walked hc hx
  exact ⟨⟨hwalked, h.ordered⟩, hends⟩

/-- Exploring the next edge keeps a chart settled. -/
theorem explore (h : c.Settled g cost source (fun _ => False) (fun _ => False)) (hg : g.Mirrors es)
    (hc : ∀ e, 0 ≤ cost e) {q : Queued κ} {rest : List (Queued κ)}
    (hq : c.frontier.queue = q :: rest) :
    ((c.popped rest).explore g cost source q.edge).Settled g cost source (fun _ => False)
      (fun _ => False) := by
  obtain ⟨edge, hedge⟩ := Arena.contains_iff.mp (h.live hq)
  rw [Chart.explore, hedge]
  obtain ⟨hrelaxed, hends⟩ := h.relaxEnds hg hc hq hedge
  have hclosed := hrelaxed.expandEnds hg hc hedge hends
  refine ⟨hclosed.toSettled.finish fun a b hl => ?_, hclosed.ordered⟩
  rw [ways_expandEnds]
  exact hends a b hl

/-- Walking the next edge reaches one vertex at most, and that from the other end of the edge. -/
theorem ways_relaxEnds (h : c.Settled g cost source (fun _ => False) (fun _ => False))
    (hg : g.Mirrors es) (hc : ∀ e, 0 ≤ cost e) {q : Queued κ} {rest : List (Queued κ)}
    (hq : c.frontier.queue = q :: rest) {edge : Edge E} (hedge : g.edges.get? q.edge = some edge) :
    c.ways.relaxEnds source edge (cost q.edge) = c.ways ∨
      ∃ a b total, g.leads a b q.edge = true ∧ c.ways.total? source a = some total ∧
        q.key = total + cost q.edge ∧ b ≠ source ∧ c.ways.total? source b = none ∧
        c.ways.relaxEnds source edge (cost q.edge) = c.ways.reach b ⟨a, q.edge, q.key⟩ := by
  have hsettled := h.toSettled
  rw [hq] at hsettled
  have hx := Search.explored_relaxEnds hg c.ways source hedge (cost q.edge)
  obtain ⟨hw, _⟩ | ⟨a, b, he, _, hne, hb, hw⟩ := hsettled.explored_cases hc hx
  · exact Or.inl hw
  · obtain ⟨total, ha, hkey⟩ := hsettled.key_eq he hb
    exact Or.inr ⟨a, b, total, he, ha, hkey, hne, hb, hw⟩

/-- A vertex that has been reached is not reached anew. -/
theorem kept_explore (h : c.Settled g cost source (fun _ => False) (fun _ => False))
    (hg : g.Mirrors es) (hc : ∀ e, 0 ≤ cost e) {q : Queued κ} {rest : List (Queued κ)}
    (hq : c.frontier.queue = q :: rest) (hv : c.ways.total? source v ≠ none) :
    ((c.popped rest).explore g cost source q.edge).ways v = c.ways v := by
  obtain ⟨edge, hedge⟩ := Arena.contains_iff.mp (h.live hq)
  rw [ways_explore _ g cost source hedge]
  obtain hw | ⟨a, b, _, _, _, _, _, hnew, hw⟩ := h.ways_relaxEnds hg hc hq hedge
  · exact congrFun hw v
  · have hvb : v ≠ b := by
      intro heq
      subst heq
      exact hv hnew
    exact (congrFun hw v).trans (Ways.reach_of_ne _ hvb _)

omit [LawfulCost κ] in
theorem total?_blank {total : κ} (h : Ways.total? (fun _ => none) source v = some total) :
    v = source ∧ total = 0 := by
  rw [Ways.total?] at h
  split at h
  · cases h
    exact ⟨‹_›, rfl⟩
  · cases h

/-- A search that begins has its source opened and closed. -/
theorem begun (hg : g.Mirrors es) (hc : ∀ e, 0 ≤ cost e) (source : VertexId) :
    ((blank .costOrdered).expand g cost source source).Settled g cost source (fun _ => False)
      (fun _ => False) := by
  have hopened : (blank .costOrdered).Settled g cost source (· = source) (fun _ => False) := by
    refine ⟨⟨?_, ?_, List.Pairwise.nil, ?_, ?_, ?_, ?_⟩, rfl⟩
    · intro v total hv
      obtain ⟨rfl, rfl⟩ := total?_blank hv
      exact .source g hc v
    · intro q hq
      cases hq
    · intro e he
      cases he
    · intro v b e hv _
      obtain ⟨total, hv⟩ := Option.ne_none_iff_exists'.mp hv
      exact Or.inl (total?_blank hv).1
    · intro a b e he
      cases he
    · intro e he
      cases he
  have hreached := (blank .costOrdered : Chart κ).ways.source_reached source
  have hexpanded := hopened.expand hg hc hreached
  exact { hexpanded with
    seen := fun hv hl => (hexpanded.seen hv hl).imp_left fun hopen => hopen.2 hopen.1 }

end Settled

end Chart

end Waymark
