import Waymark.Proofs.Search.Optimal
import Waymark.Proofs.Search.Uniform

namespace Waymark

/-- A way from `a` to `b` over as few edges as any walk takes, each of which adds `c`. -/
structure Graph.Fewest {V E κ : Type} [Cost κ] (g : Graph V E) (c : κ) (a b : VertexId)
    (path : Path κ) : Prop where
  walk : g.Walk a b path.edges
  fewest : ∀ es, g.Walk a b es → path.length ≤ es.length
  costs : ∀ k hop, path.hops[k]? = some hop → hop.cost = multiple c (k + 1)

namespace Ways

variable {κ : Type} [Cost κ] {w : Ways Nat} {c : κ} {source v : VertexId} {hops : List (Hop κ)}

theorem scale_eq_some {hop : Hop κ} (h : w.scale c v = some hop) :
    ∃ counted, w v = some counted ∧ hop = counted.scale c := by
  obtain ⟨counted, hcounted, rfl⟩ := Option.map_eq_some_iff.mp h
  exact ⟨counted, hcounted, rfl⟩

/-- Where each vertex is one level above the one before, the way to it has as many hops as its
level. -/
theorem Stacked.traced (h : w.Stacked source) (ht : (w.scale c).Traced source v hops) :
    w.total? source v = some hops.length ∧
      ∀ k hop, hops[k]? = some hop → hop.cost = multiple c (k + 1) := by
  induction ht with
  | source => exact ⟨total?_source w source, fun k hop hk => by simp at hk⟩
  | @along v last hops hne hv _ ih =>
    obtain ⟨hlevel, hcosts⟩ := ih
    obtain ⟨counted, hcounted, rfl⟩ := scale_eq_some hv
    obtain ⟨total, horigin, hcost⟩ := h v counted hcounted
    change w.total? source counted.origin = some hops.length at hlevel
    rw [horigin] at hlevel
    cases hlevel
    constructor
    · rw [total?_of_ne _ hne, hcounted, List.length_append, List.length_singleton, ← hcost]
      rfl
    · intro k hop hk
      rw [List.getElem?_append] at hk
      split at hk
      · exact hcosts k hop hk
      · obtain ⟨hlt, hlast⟩ := List.getElem?_eq_some_iff.mp hk
        rw [List.length_singleton] at hlt
        have hlength : k = hops.length := by omega
        rw [← hlast, List.getElem_singleton, hlength, ← hcost]
        rfl

end Ways

namespace Search

variable {V E κ : Type} [Cost κ] {g : Graph V E} {c : κ} {source v : VertexId}
  {s : Search V E κ} {t : Chart Nat} {es : List EdgeId}

/-- A search over edges that all cost `c`, and the chart on which they are counted. -/
structure Counts (g : Graph V E) (c : κ) (source : VertexId) (s : Search V E κ) (t : Chart Nat) :
    Prop where
  surveys : ∃ cost, Surveys g cost source s ∧ ∀ e, g.edges.contains e = true → cost e = c
  layered : t.Layered g source
  chart_eq : s.chart g = t.scale c s.frontier.kind

namespace Counts

theorem ways_eq (h : Counts g c source s t) : s.overlay.ways g = t.ways.scale c :=
  congrArg Chart.ways h.chart_eq

theorem queue_eq (h : Counts g c source s t) :
    s.frontier.queue = t.frontier.queue.map (Queued.scale c) :=
  congrArg (fun chart => chart.frontier.queue) h.chart_eq

/-- Hops that lead to a vertex do so over as few edges as can be. -/
theorem fewest (h : Counts g c source s t) {cost : EdgeId → κ}
    (htree : (s.overlay.ways g).Tree g cost source) {path : Path κ}
    (htrace : (s.overlay.ways g).Traced source v path.hops) : g.Fewest c source v path := by
  have hwalk := htrace.walk htree.leads
  rw [h.ways_eq] at htrace
  obtain ⟨hlevel, hcosts⟩ := h.layered.stacked.traced htrace
  refine ⟨hwalk, fun es hw => ?_, hcosts⟩
  have hle := (h.layered.settled.least v _ hlevel).least es hw
  rw [accumulate_one] at hle
  exact hle

variable [LawfulCost κ]

theorem begun {o : Overlay V E κ} (hg : g.Mirrors es) (hf : o.Fits g) (hb : o.Blank)
    {a : VertexId} (ha : g.vertices.contains a = true) (b : VertexId) (config : SearchConfig)
    (hc : 0 ≤ c) (hcost : ∀ e, g.edges.contains e = true → o.cost g e = c) :
    Counts g c a ((fresh o g a b config).expand g a)
      ((Chart.blank .costOrdered).expand g (fun _ => 1) a a) := by
  have hsurveys := Surveys.fresh (g := g) hf a b config
  have hworks := (fresh o g a b config).works_expand (g := g) a
  refine ⟨⟨o.cost g, hsurveys.follows hworks.toFollows, hcost⟩, .begun hg a, ?_⟩
  rw [Chart.Layered.scale_begun hg hc hcost, hsurveys.chart_expand hg, chart_fresh hf hb ha,
    hworks.kind]
  rfl

/-- Where all edges cost the same every search between two live vertices begins on the same
chart. -/
theorem start {o o₁ : Overlay V E κ} (h : g.Hosts o) (config : SearchConfig) {a b : VertexId}
    (ha : g.vertices.contains a = true) (hb : g.vertices.contains b = true) (hne : a ≠ b)
    (ho : o.beginRun g = .ok o₁) (hc : 0 ≤ c)
    (hcost : ∀ e, g.edges.contains e = true → o₁.cost g e = c) :
    ∃ s, Search.start o g a b config = .ok s ∧ Begun g a b s ∧
      Counts g c a s ((Chart.blank .costOrdered).expand g (fun _ => 1) a a) ∧
      s.frontier.kind = config.frontier ∧ s.finished = false ∧
      s.maxExpansions? = config.maxExpansions? := by
  obtain ⟨hstart, hbegun⟩ := start_of_hosts h config ha hb hne ho
  obtain ⟨es, hg⟩ := hbegun.mirrors
  obtain ⟨hl, _, hblank, _⟩ := h.sound.2.beginRun_eq_ok ho
  have hworks := (fresh o₁ g a b config).works_expand (g := g) a
  exact ⟨_, hstart, hbegun, .begun hg (hl.fits h.sound.2.fits) hblank ha b config hc hcost,
    hworks.kind, hworks.finished, hworks.limit⟩

/-- The next edge is the next one on the chart, and both are explored alike. -/
theorem explore (h : Counts g c source s t) (hg : g.Mirrors es) (hc : 0 ≤ c) {q : Queued κ}
    {rest : List (Queued κ)} (hq : s.frontier.queue = q :: rest) :
    ∃ counted left, t.frontier.queue = counted :: left ∧ q = counted.scale c ∧
      Counts g c source ((s.popped rest).explore g q.edge)
        ((t.popped left).explore g (fun _ => 1) source counted.edge) := by
  obtain ⟨cost, hsurveys, hcost⟩ := h.surveys
  have hqueue := h.queue_eq
  rw [hq] at hqueue
  obtain ⟨counted, left, hleft, rfl, rfl⟩ := List.map_eq_cons_iff.mp hqueue.symm
  have hworks := (s.popped (left.map (Queued.scale c))).works_explore (g := g)
    (counted.scale c).edge
  have hlive := h.layered.settled.live hleft
  have hbefore : Surveys g cost source (s.popped (left.map (Queued.scale c))) :=
    ⟨hsurveys.fits, hsurveys.cost_eq, hsurveys.source_eq⟩
  refine ⟨counted, left, hleft, rfl, ⟨cost, hbefore.follows hworks.toFollows, hcost⟩,
    h.layered.explore hg hleft, ?_⟩
  have hchart := hsurveys.chart_explore hg (left.map (Queued.scale c)) hlive
  rw [h.chart_eq] at hchart
  rw [h.layered.scale_explore hg hc hcost _ hleft]
  rw [hworks.kind]
  exact hchart

omit [LawfulCost κ] in
/-- No vertex that has been reached is reached anew. -/
theorem kept_explore (h : Counts g c source s t) (hg : g.Mirrors es) {counted : Queued Nat}
    {left : List (Queued Nat)} (hq : t.frontier.queue = counted :: left) {v : VertexId}
    {hop : Hop κ} (hv : s.overlay.ways g v = some hop) :
    ((((t.popped left).explore g (fun _ => 1) source counted.edge).ways).scale c) v =
      some hop := by
  rw [h.ways_eq] at hv
  obtain ⟨first, hfirst, rfl⟩ := Ways.scale_eq_some hv
  have hreached := t.ways.reached_of_hop source hfirst
  have hkept := h.layered.settled.kept_explore hg (fun _ => Nat.zero_le _) hq hreached
  rw [Ways.scale, hkept, hfirst]
  rfl

end Counts

/-- What holds of a search in the order of discovery over edges that all cost the same. -/
structure Even (g : Graph V E) (c : κ) (source : VertexId) (s : Search V E κ) : Prop where
  counts : ∃ t, Counts g c source s t
  kind : s.frontier.kind = .fifo
  dry : s.finished = true → s.frontier.queue = []

namespace Even

variable [LawfulCost κ]

/-- A step keeps it, and keeps every hop. -/
theorem step (h : Even g c source s) (hg : g.Mirrors es) (hc : 0 ≤ c) :
    Even g c source (s.step g).2 ∧ ∀ v hop, s.overlay.ways g v = some hop →
      (s.step g).2.overlay.ways g v = some hop := by
  obtain ⟨t, ht⟩ := h.counts
  have hstep := s.stepped g
  generalize s.step g = r at hstep
  cases hstep with
  | idle => exact ⟨h, fun _ _ hv => hv⟩
  | atLimit => exact ⟨h, fun _ _ hv => hv⟩
  | dry _ hq =>
    obtain ⟨cost, hsurveys, hcost⟩ := ht.surveys
    have ht' : Counts g c source { s with finished := true } t :=
      ⟨⟨cost, ⟨hsurveys.fits, hsurveys.cost_eq, hsurveys.source_eq⟩, hcost⟩, ht.layered,
        ht.chart_eq⟩
    exact ⟨⟨⟨t, ht'⟩, h.kind, fun _ => hq⟩, fun _ _ hv => hv⟩
  | @beaten q _ _ _ hb =>
    rw [not_beaten_of_fifo h.kind] at hb
    cases hb
  | @explored q rest hf hq _ =>
    obtain ⟨counted, left, hleft, rfl, hnext⟩ := ht.explore hg hc hq
    have hworks := (s.popped rest).works_explore (g := g) counted.edge
    refine ⟨⟨⟨_, hnext⟩, hworks.kind.trans h.kind, fun hfinished => ?_⟩, fun v hop hv => ?_⟩
    · change ((s.popped rest).explore g counted.edge).finished = true at hfinished
      rw [hworks.finished] at hfinished
      change s.finished = true at hfinished
      rw [hf] at hfinished
      cases hfinished
    · have hkept := ht.kept_explore hg hleft hv
      rw [← hnext.ways_eq] at hkept
      exact hkept

theorem after (h : Even g c source s) (hg : g.Mirrors es) (hc : 0 ≤ c) (n : Nat) :
    Even g c source (s.after g n) := by
  induction n with
  | zero => exact h
  | succ n ih =>
    rw [after_succ]
    exact (ih.step hg hc).1

theorem kept (h : Even g c source s) (hg : g.Mirrors es) (hc : 0 ≤ c) {hop : Hop κ}
    (hv : s.overlay.ways g v = some hop) (n : Nat) :
    (s.after g n).overlay.ways g v = some hop := by
  induction n with
  | zero => exact hv
  | succ n ih =>
    rw [after_succ]
    exact ((h.after hg hc n).step hg hc).2 v hop ih

omit [LawfulCost κ] in
/-- At the end every vertex that can be walked to has been reached. -/
theorem reached (h : Even g c source s) (hf : s.finished = true) (hw : g.Walk source v es) :
    (s.overlay.ways g).total? source v ≠ none := by
  obtain ⟨t, ht⟩ := h.counts
  intro hnone
  rw [ht.ways_eq, Ways.total?_scale, Option.map_eq_none_iff] at hnone
  obtain ⟨q, hq, _⟩ := ht.layered.settled.exists_waiting (fun _ => Nat.zero_le _) hw hnone
  have hempty := ht.queue_eq
  rw [h.dry hf] at hempty
  rw [List.map_eq_nil_iff.mp hempty.symm] at hq
  cases hq

end Even

end Search

/-- In the order of discovery and without a limit a search over edges that all cost the same finds a
way over as few edges as can be, if there is one. At every step the same is true of the way to each
vertex that has been reached, and it is not reached anew. -/
theorem Overlay.search_fewest_edges {V E κ : Type} [Cost κ] [LawfulCost κ] {g : Graph V E}
    {o o₁ : Overlay V E κ} (h : g.Hosts o) {config : SearchConfig}
    (hk : config.frontier = .fifo) (hm : config.maxExpansions? = none) {a b : VertexId}
    (ha : g.vertices.contains a = true) (hb : g.vertices.contains b = true) (hne : a ≠ b)
    (ho : o.beginRun g = .ok o₁) {c : κ} (hc : 0 ≤ c)
    (hcost : ∀ e, g.edges.contains e = true → o₁.cost g e = c) :
    ∃ s, Search.start o g a b config = .ok s ∧
      (∃ n path, o.search g a b config = .ok (path, (s.after g n).overlay) ∧
        ((∃ es, g.Walk a b es) → g.Fewest c a b path)) ∧
      ∀ n v hop, (s.after g n).overlay.hop? g v = some hop →
        (∃ path, (s.after g n).overlay.pathTo g v = .ok path ∧
          path.hops.getLast? = some hop ∧ g.Fewest c a v path) ∧
        ∀ m, n ≤ m → (s.after g m).overlay.hop? g v = some hop := by
  obtain ⟨s, hstart, hbegun, hcounts, hkind, hunderway, hlimit⟩ :=
    Search.Counts.start h config ha hb hne ho hc hcost
  obtain ⟨es, hg⟩ := hbegun.mirrors
  have heven : Search.Even g c a s := by
    refine ⟨⟨_, hcounts⟩, hkind.trans hk, fun hfinished => ?_⟩
    rw [hunderway] at hfinished
    cases hfinished
  refine ⟨s, hstart, ?_, fun n v hop hhop => ?_⟩
  · obtain ⟨n, path, _, hfinished, hrun, hcases⟩ := hbegun.search_ends hstart (hlimit.trans hm) hb
    refine ⟨n, path, hrun, fun hwalk => ?_⟩
    obtain ⟨es, hw⟩ := hwalk
    have hreached := (heven.after hg hc n).reached hfinished hw
    rw [Ways.total?_of_ne _ hne.symm] at hreached
    obtain ⟨hnone, _⟩ | ⟨_, _, _, htrace⟩ := hcases
    · rw [hnone] at hreached
      exact (hreached rfl).elim
    · obtain ⟨t, ht⟩ := (heven.after hg hc n).counts
      exact ht.fewest (hbegun.tree n) htrace
  · have hv := (hg.live_of_leads ((hbegun.tree n).leads hhop)).2
    obtain ⟨path, hpath, ⟨hnone, _⟩ | ⟨last, hlast, hva, htrace⟩⟩ := hbegun.pathTo n hv
    · have hcontra := hhop.symm.trans hnone
      cases hcontra
    · obtain ⟨t, ht⟩ := (heven.after hg hc n).counts
      refine ⟨⟨path, hpath, (htrace.getLast? hva).trans hhop, ht.fewest (hbegun.tree n) htrace⟩, ?_⟩
      intro m hm
      have hkept := (heven.after hg hc n).kept hg hc hhop (m - n)
      rw [Search.after_add, Nat.sub_add_cancel hm] at hkept
      exact hkept

/-- Two ways round, the later and shorter one over edges declared backwards, and a loop. -/
def Search.roundabout : Workspace Unit Float Float :=
  [.addVertices [(), (), (), (), ()], .link ⟨0, 0⟩ ⟨0, 0⟩ .bidirectional 3,
    .link ⟨0, 0⟩ ⟨1, 0⟩ .directed 1, .link ⟨1, 0⟩ ⟨2, 0⟩ .directed 1,
    .link ⟨2, 0⟩ ⟨4, 0⟩ .directed 1, .link ⟨3, 0⟩ ⟨0, 0⟩ .bidirectional 5,
    .link ⟨4, 0⟩ ⟨3, 0⟩ .bidirectional 5, .deed 0 (.mount (.constant 1))].foldl Workspace.obey {}

theorem Search.hosts_roundabout : ∃ o : Overlay Unit Float Float,
    Search.roundabout.graph.Hosts o ∧ ∃ o₁, o.beginRun Search.roundabout.graph = .ok o₁ ∧
      ∀ e, Search.roundabout.graph.edges.contains e = true →
        o₁.cost Search.roundabout.graph e = 1 := by
  refine ⟨_, ⟨Search.roundabout, ⟨_, rfl⟩, rfl, _, List.mem_cons_self, rfl⟩, _, rfl, ?_⟩
  simp only [← Arena.mem_ids]
  decide +kernel

/-- On a roundabout the way with fewer edges is found. -/
theorem Overlay.search_fewest_edges_roundabout : ∃ (o o₁ : Overlay Unit Float Float)
    (s : Search Unit Float Float) (n : Nat) (path : Path Float),
    Search.roundabout.graph.Hosts o ∧ o.beginRun Search.roundabout.graph = .ok o₁ ∧
    (∀ e, Search.roundabout.graph.edges.contains e = true →
      o₁.cost Search.roundabout.graph e = 1) ∧
    o.search Search.roundabout.graph ⟨0, 0⟩ ⟨4, 0⟩ {} =
      .ok (path, (s.after Search.roundabout.graph n).overlay) ∧
    Search.roundabout.graph.Fewest 1 ⟨0, 0⟩ ⟨4, 0⟩ path ∧ path.length ≤ 2 := by
  obtain ⟨o, h, o₁, ho, hcost⟩ := Search.hosts_roundabout
  obtain ⟨s, _, ⟨n, path, hsearch, hfewest⟩, _⟩ := Overlay.search_fewest_edges (a := ⟨0, 0⟩)
    (b := ⟨4, 0⟩) h (show SearchConfig.frontier {} = .fifo from rfl) rfl (by decide) (by decide)
    (by decide) ho (by decide +kernel) hcost
  have hwalk : Search.roundabout.graph.Walk ⟨0, 0⟩ ⟨4, 0⟩ ([] ++ [⟨4, 0⟩] ++ [⟨5, 0⟩]) :=
    (Graph.Walk.start.along (b := ⟨0, 0⟩) (c := ⟨3, 0⟩) (by decide)).along (by decide)
  have hpath := hfewest ⟨_, hwalk⟩
  exact ⟨o, o₁, s, n, path, h, ho, hcost, hsearch, hpath, hpath.fewest _ hwalk⟩

end Waymark
