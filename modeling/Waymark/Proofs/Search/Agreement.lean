import Waymark.Proofs.Search.Fewest
import Waymark.Proofs.Search.Halting

namespace Waymark

namespace Search

variable {V E κ : Type} [Cost κ] {g : Graph V E} {c : κ} {source : VertexId}
  {s s' : Search V E κ} {es : List EdgeId} {q : Queued κ} {rest : List (Queued κ)}

/-- Two searches under way, the first one in the order of discovery, that have come to the same
point. -/
structure Abreast (g : Graph V E) (c : κ) (source : VertexId) (s s' : Search V E κ) : Prop where
  counts : ∃ t, Counts g c source s t ∧ Counts g c source s' t
  kind : s.frontier.kind = .fifo
  underway : s.finished = false ∧ s'.finished = false
  unlimited : s.maxExpansions? = none ∧ s'.maxExpansions? = none

namespace Abreast

theorem ways_eq (h : Abreast g c source s s') : s'.overlay.ways g = s.overlay.ways g := by
  obtain ⟨t, ht, ht'⟩ := h.counts
  exact ht'.ways_eq.trans ht.ways_eq.symm

theorem queue_eq (h : Abreast g c source s s') : s'.frontier.queue = s.frontier.queue := by
  obtain ⟨t, ht, ht'⟩ := h.counts
  exact ht'.queue_eq.trans ht.queue_eq.symm

theorem even (h : Abreast g c source s s') : Even g c source s := by
  obtain ⟨t, ht, _⟩ := h.counts
  refine ⟨⟨t, ht⟩, h.kind, fun hfinished => ?_⟩
  rw [h.underway.1] at hfinished
  cases hfinished

variable [LawfulCost κ]

/-- Both explore the same edge next, and come to the same point. -/
theorem explore (h : Abreast g c source s s') (hg : g.Mirrors es) (hc : 0 ≤ c)
    (hq : s'.frontier.queue = q :: rest) :
    s.step g = (.expanded q.edge, (s.popped rest).explore g q.edge) ∧
      Abreast g c source ((s.popped rest).explore g q.edge)
        ((s'.popped rest).explore g q.edge) := by
  obtain ⟨t, ht, ht'⟩ := h.counts
  have hq₁ : s.frontier.queue = q :: rest := h.queue_eq.symm.trans hq
  have hworks := (s.popped rest).works_explore (g := g) q.edge
  have hworks' := (s'.popped rest).works_explore (g := g) q.edge
  constructor
  · exact step_of_waiting h.underway.1 (limitReached?_eq_none h.unlimited.1) hq₁
      (not_beaten_of_fifo h.kind q)
  · obtain ⟨counted, left, hleft, _, hnext⟩ := ht.explore hg hc hq₁
    obtain ⟨counted', left', hleft', _, hnext'⟩ := ht'.explore hg hc hq
    rw [hleft] at hleft'
    cases hleft'
    exact ⟨⟨_, hnext, hnext'⟩, hworks.kind.trans h.kind,
      ⟨hworks.finished.trans h.underway.1, hworks'.finished.trans h.underway.2⟩,
      ⟨hworks.limit.trans h.unlimited.1, hworks'.limit.trans h.unlimited.2⟩⟩

omit [LawfulCost κ] in
/-- When nothing is left to explore the first search ends where the second one stands. -/
theorem exhaust_of_dry (h : Abreast g c source s s') (hq : s'.frontier.queue = []) :
    (s.exhaust g).2.overlay.ways g = s'.overlay.ways g := by
  have hstep := step_of_dry (g := g) h.underway.1 (limitReached?_eq_none h.unlimited.1)
    (h.queue_eq.symm.trans hq)
  rw [exhaust_of_finished (by rw [hstep])]
  show (s.step g).2.overlay.ways g = s'.overlay.ways g
  rw [hstep]
  exact h.ways_eq.symm

/-- Going on to its end the first search takes back no hop. -/
theorem kept_exhaust (h : Abreast g c source s s') (hg : g.Mirrors es) (hc : 0 ≤ c) {v : VertexId}
    {hop : Hop κ} (hv : s'.overlay.ways g v = some hop) :
    (s.exhaust g).2.overlay.ways g v = some hop := by
  obtain ⟨n, hn, _⟩ := s.exhaust_eq_after (g := g)
  rw [hn]
  rw [h.ways_eq] at hv
  exact h.even.kept hg hc hv (n + 1)

/-- The second search explores what the first one does, perhaps not all of it. It stops before only
once it has reached its destination, and the first one takes back none of its hops. -/
theorem ends (h : Abreast g c source s s') (hg : g.Mirrors es) (hc : 0 ≤ c) :
    s'.exploration g <+: s.exploration g ∧
      (∀ v hop, (s'.exhaust g).2.overlay.ways g v = some hop →
        (s.exhaust g).2.overlay.ways g v = some hop) ∧
      ((s'.exhaust g).2.overlay.ways g = (s.exhaust g).2.overlay.ways g ∨
        (s'.exhaust g).2.overlay.ways g s'.destination ≠ none) := by
  induction s' using steps_induct generalizing s with
  | expanded s' next e hstep ih =>
    have hstepped := s'.stepped g
    rw [hstep] at hstepped
    cases hstepped with
    | @explored q rest _ hq _ =>
      obtain ⟨hfirst, hnext⟩ := h.explore hg hc hq
      obtain ⟨hstem, hkept, hcases⟩ := ih hnext
      have hdestination := ((s'.popped rest).works_explore (g := g) q.edge).destination
      rw [exploration_of_expanded hstep, exploration_of_expanded hfirst,
        exhaust_of_expanded hstep, exhaust_of_expanded hfirst]
      rw [hdestination] at hcases
      exact ⟨List.cons_prefix_cons.mpr ⟨rfl, hstem⟩, hkept, hcases⟩
  | ended s' hended =>
    rw [exploration_of_ended hended, exhaust_of_ended hended]
    have hnone : [] <+: s.exploration g := List.nil_prefix
    refine ⟨hnone, ?_⟩
    have hstepped := s'.stepped g
    generalize s'.step g = r at hstepped hended
    cases hstepped with
    | idle hf =>
      rw [h.underway.2] at hf
      cases hf
    | atLimit _ hlimit =>
      rw [limitReached?, h.unlimited.2] at hlimit
      cases hlimit
    | dry _ hq =>
      rw [h.exhaust_of_dry hq]
      exact ⟨fun _ _ hv => hv, Or.inl rfl⟩
    | beaten _ _ hb =>
      refine ⟨fun v hop hv => h.kept_exhaust hg hc hv, Or.inr fun hnone => ?_⟩
      change s'.overlay.hop? g s'.destination = none at hnone
      simp [beaten, hnone] at hb
    | explored _ _ _ => exact (hended _ rfl).elim

end Abreast

end Search

/-- Over edges that all cost the same both kinds of frontier lead to the same path, and without a
limit a search by the order of keys explores the first of the edges that a search in the order of
discovery explores, in the same order. -/
theorem Overlay.searches_agree {V E κ : Type} [Cost κ] [LawfulCost κ] {g : Graph V E}
    {o o₁ : Overlay V E κ} (h : g.Hosts o) {a b : VertexId} (ha : g.vertices.contains a = true)
    (hb : g.vertices.contains b = true) (hne : a ≠ b) (ho : o.beginRun g = .ok o₁) {c : κ}
    (hc : 0 ≤ c) (hcost : ∀ e, g.edges.contains e = true → o₁.cost g e = c) :
    ∃ s s' path o₂ o₂', Search.start o g a b { frontier := .fifo } = .ok s ∧
      Search.start o g a b { frontier := .costOrdered } = .ok s' ∧
      o.search g a b { frontier := .fifo } = .ok (path, o₂) ∧
      o.search g a b { frontier := .costOrdered } = .ok (path, o₂') ∧
      s'.exploration g <+: s.exploration g := by
  obtain ⟨s, hs, hbegun, hcounts, hkind, hunderway, hlimit⟩ :=
    Search.Counts.start h { frontier := .fifo } ha hb hne ho hc hcost
  obtain ⟨s', hs', hbegun', hcounts', _, hunderway', hlimit'⟩ :=
    Search.Counts.start h { frontier := .costOrdered } ha hb hne ho hc hcost
  obtain ⟨es, hg⟩ := hbegun.mirrors
  have habreast : Search.Abreast g c a s s' :=
    ⟨⟨_, hcounts, hcounts'⟩, hkind, ⟨hunderway, hunderway'⟩, ⟨hlimit, hlimit'⟩⟩
  obtain ⟨hstem, hkept, hcases⟩ := habreast.ends hg hc
  obtain ⟨n, path, hn, _, hsearch, hpath⟩ := hbegun.search_ends hs habreast.unlimited.1 hb
  obtain ⟨n', path', hn', _, hsearch', hpath'⟩ := hbegun'.search_ends hs' habreast.unlimited.2 hb
  rw [hn, hn'] at hkept hcases
  rw [hbegun'.destination] at hcases
  have hsame : path = path' := by
    obtain ⟨hnone', rfl⟩ | ⟨hop', hhop', _, htrace'⟩ := hpath'
    · have hways := hcases.resolve_right fun hreached => hreached hnone'
      obtain ⟨_, rfl⟩ | ⟨hop, hhop, _, _⟩ := hpath
      · rfl
      · have hcontra := (congrFun hways b).symm.trans hnone'
        rw [hhop] at hcontra
        cases hcontra
    · obtain ⟨hnone, _⟩ | ⟨_, _, _, htrace⟩ := hpath
      · have hcontra := (hkept b hop' hhop').symm.trans hnone
        cases hcontra
      · have hhops := htrace.unique (htrace'.mono hkept)
        cases path
        cases path'
        exact congrArg Path.mk hhops
  subst hsame
  exact ⟨s, s', path, _, _, hs, hs', hsearch, hsearch', hstem⟩

/-- On a roundabout both go the same way. -/
theorem Overlay.searches_agree_roundabout : ∃ (o o₁ o₂ o₂' : Overlay Unit Float Float)
    (s s' : Search Unit Float Float) (path : Path Float),
    Search.roundabout.graph.Hosts o ∧ o.beginRun Search.roundabout.graph = .ok o₁ ∧
    (∀ e, Search.roundabout.graph.edges.contains e = true →
      o₁.cost Search.roundabout.graph e = 1) ∧
    Search.start o Search.roundabout.graph ⟨0, 0⟩ ⟨4, 0⟩ { frontier := .fifo } = .ok s ∧
    Search.start o Search.roundabout.graph ⟨0, 0⟩ ⟨4, 0⟩ { frontier := .costOrdered } = .ok s' ∧
    o.search Search.roundabout.graph ⟨0, 0⟩ ⟨4, 0⟩ { frontier := .fifo } = .ok (path, o₂) ∧
    o.search Search.roundabout.graph ⟨0, 0⟩ ⟨4, 0⟩ { frontier := .costOrdered } =
      .ok (path, o₂') ∧
    s'.exploration Search.roundabout.graph <+: s.exploration Search.roundabout.graph := by
  obtain ⟨o, h, o₁, ho, hcost⟩ := Search.hosts_roundabout
  obtain ⟨s, s', path, o₂, o₂', hs, hs', hsearch, hsearch', hstem⟩ := Overlay.searches_agree h
    (a := ⟨0, 0⟩) (b := ⟨4, 0⟩) (by decide) (by decide) (by decide) ho (by decide +kernel) hcost
  exact ⟨o, o₁, o₂, o₂', s, s', path, h, ho, hcost, hs, hs', hsearch, hsearch', hstem⟩

end Waymark
