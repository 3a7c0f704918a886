import Waymark.Proofs.Search.Queue

namespace Waymark

/-- A search without its overlay: the ways found, how far each edge has come and which ones wait. -/
structure Chart (κ : Type) where
  ways : Ways κ
  states : EdgeId → EdgeState
  frontier : Frontier κ

namespace Chart

variable {V E κ : Type}

/-- The chart of a search that has found nothing as yet. -/
def blank (kind : FrontierKind) : Chart κ := ⟨fun _ => none, fun _ => .unexplored, { kind }⟩

/-- The chart with others left in the queue. -/
def popped (c : Chart κ) (rest : List (Queued κ)) : Chart κ :=
  { c with frontier := { c.frontier with queue := rest } }

variable [Cost κ]

/-- Lets an unexplored edge into the frontier. -/
def discover (c : Chart κ) (base : κ) (e : EdgeId) (cost : κ) : Chart κ :=
  if c.states e = .unexplored then
    { c with
      states := Function.update c.states e .discovered
      frontier := c.frontier.push e (base + cost) }
  else c

def discoverAll (c : Chart κ) (base : κ) (cost : EdgeId → κ) (l : List EdgeId) : Chart κ :=
  l.foldl (fun c e => c.discover base e (cost e)) c

/-- Lets the unexplored edges out of a vertex into the frontier. -/
def expand (c : Chart κ) (g : Graph V E) (cost : EdgeId → κ) (source v : VertexId) : Chart κ :=
  match g.vertices.get? v with
  | some vertex =>
    c.discoverAll ((c.ways.total? source v).getD 0) cost vertex.outgoing.edges
  | none => c

def relaxEnds (c : Chart κ) (source : VertexId) (edge : Edge E) (cost : κ) : Chart κ :=
  { c with ways := c.ways.relaxEnds source edge cost }

def expandEnds (c : Chart κ) (g : Graph V E) (cost : EdgeId → κ) (source : VertexId)
    (edge : Edge E) : Chart κ :=
  let c := c.expand g cost source edge.head
  if edge.isBidirectional then c.expand g cost source edge.tail else c

def mark (c : Chart κ) (e : EdgeId) (state : EdgeState) : Chart κ :=
  { c with states := Function.update c.states e state }

/-- The chart after an edge has been explored. -/
def explore (c : Chart κ) (g : Graph V E) (cost : EdgeId → κ) (source : VertexId) (e : EdgeId) :
    Chart κ :=
  match g.edges.get? e with
  | some edge =>
    ((c.relaxEnds source edge (cost e)).expandEnds g cost source edge).mark e .explored
  | none => c

theorem ways_discover (c : Chart κ) (base : κ) (e : EdgeId) (cost : κ) :
    (c.discover base e cost).ways = c.ways := by
  rw [discover]
  split <;> rfl

theorem ways_discoverAll (c : Chart κ) (base : κ) (cost : EdgeId → κ) (l : List EdgeId) :
    (c.discoverAll base cost l).ways = c.ways := by
  induction l generalizing c with
  | nil => rfl
  | cons e l ih => exact (ih _).trans (c.ways_discover base e (cost e))

theorem ways_expand (c : Chart κ) (g : Graph V E) (cost : EdgeId → κ) (source v : VertexId) :
    (c.expand g cost source v).ways = c.ways := by
  rw [expand]
  split
  · exact c.ways_discoverAll _ cost _
  · rfl

theorem ways_expandEnds (c : Chart κ) (g : Graph V E) (cost : EdgeId → κ) (source : VertexId)
    (edge : Edge E) : (c.expandEnds g cost source edge).ways = c.ways := by
  unfold expandEnds
  dsimp only
  split <;> simp only [ways_expand]

theorem ways_explore (c : Chart κ) (g : Graph V E) (cost : EdgeId → κ) (source : VertexId)
    {e : EdgeId} {edge : Edge E} (hedge : g.edges.get? e = some edge) :
    (c.explore g cost source e).ways = c.ways.relaxEnds source edge (cost e) := by
  rw [explore, hedge]
  exact ways_expandEnds _ g cost source edge

end Chart

namespace Search

variable {V E κ : Type} [Cost κ] {g : Graph V E} {s : Search V E κ}

def chart (s : Search V E κ) (g : Graph V E) : Chart κ :=
  ⟨s.overlay.ways g, s.overlay.state g, s.frontier⟩

theorem chart_discover (hf : s.overlay.Fits g) (base : κ) {e : EdgeId}
    (he : g.edges.contains e = true) :
    (s.discover g base e).chart g = (s.chart g).discover base e (s.overlay.cost g e) := by
  obtain ⟨mark, hm⟩ := hf.edgeMark he
  have hstate : (s.chart g).states e = mark.state := by
    show s.overlay.state g e = mark.state
    rw [Overlay.state, hm]
  have hcost : s.overlay.cost g e = mark.cost := by rw [Overlay.cost, hm]
  rw [discover, Chart.discover, hstate, hcost]
  rw [hm]
  dsimp only
  split
  · rw [chart, chart]
    dsimp only
    rw [ways_setState, hf.state_setState he]
  · rfl

theorem chart_discoverAll (hf : s.overlay.Fits g) (base : κ) (l : List EdgeId)
    (hl : ∀ e ∈ l, g.edges.contains e = true) :
    (l.foldl (fun s e => s.discover g base e) s).chart g =
      (s.chart g).discoverAll base (s.overlay.cost g) l := by
  induction l generalizing s with
  | nil => rfl
  | cons e l ih =>
    have htouched := (s.works_discover (g := g) base e).touched
    have hrest := ih (htouched.fits hf) fun d hd => hl d (.tail e hd)
    rw [htouched.cost hf, chart_discover hf base (hl e (.head l))] at hrest
    exact hrest

variable {es : List EdgeId}

theorem chart_expand (hg : g.Mirrors es) (hf : s.overlay.Fits g) (v : VertexId) :
    (s.expand g v).chart g = (s.chart g).expand g (s.overlay.cost g) s.source v := by
  rw [expand, Chart.expand]
  cases hx : g.vertices.get? v with
  | none => rfl
  | some x =>
    refine chart_discoverAll hf _ _ fun e he => ?_
    obtain ⟨b, hb⟩ := (hg.mem_outgoing hx).mp he
    exact Graph.contains_of_leads hb

theorem chart_expandEnds (hg : g.Mirrors es) (hf : s.overlay.Fits g) (edge : Edge E) :
    (s.expandEnds g edge).chart g =
      (s.chart g).expandEnds g (s.overlay.cost g) s.source edge := by
  have hworks := s.works_expand (g := g) edge.head
  have htail := chart_expand hg (hworks.touched.fits hf) edge.tail
  rw [hworks.touched.cost hf, hworks.source, chart_expand hg hf] at htail
  unfold expandEnds Chart.expandEnds
  dsimp only
  split
  · exact htail
  · exact chart_expand hg hf edge.head

theorem chart_relaxEnds (hg : g.Mirrors es) (hf : s.overlay.Fits g) {e : EdgeId} {edge : Edge E}
    (hedge : g.edges.get? e = some edge) (cost : κ) :
    (s.relaxEnds g edge cost).chart g = (s.chart g).relaxEnds s.source edge cost := by
  obtain ⟨hstate, hfrontier⟩ := s.state_relaxEnds g edge cost
  rw [chart, ways_relaxEnds hg hf hedge, hstate, hfrontier]
  rfl

/-- What exploring a live edge does is done to the chart alone. -/
theorem chart_explore (hg : g.Mirrors es) (hf : s.overlay.Fits g) {e : EdgeId}
    (he : g.edges.contains e = true) :
    (s.explore g e).chart g = (s.chart g).explore g (s.overlay.cost g) s.source e := by
  obtain ⟨edge, hedge⟩ := Arena.contains_iff.mp he
  have hrelax := s.works_relaxEnds (g := g) edge (s.overlay.cost g e)
  have hf₁ := hrelax.touched.fits hf
  have hexpand := (s.relaxEnds g edge (s.overlay.cost g e)).works_expandEnds (g := g) edge
  have hf₂ := hexpand.touched.fits hf₁
  have hchart := chart_expandEnds hg hf₁ edge
  rw [hrelax.touched.cost hf, hrelax.source, chart_relaxEnds hg hf hedge] at hchart
  rw [explore_of_live hf hedge, Chart.explore, hedge]
  dsimp only
  rw [← hchart, chart, chart, Chart.mark]
  dsimp only
  rw [ways_setState, hf₂.state_setState he]

omit [Cost κ] in
theorem chart_fresh {o : Overlay V E κ} (hf : o.Fits g) (hb : o.Blank) {a : VertexId}
    (ha : g.vertices.contains a = true) (b : VertexId) (config : SearchConfig) :
    (fresh o g a b config).chart g = .blank config.frontier := by
  have hstate : (fresh o g a b config).overlay.state g = o.state g := o.state_setHop g a none
  rw [chart, ways_fresh hf hb ha, hstate, hb.state]
  rfl

/-- What a search goes by, which stays as it is all the time. -/
structure Surveys (g : Graph V E) (cost : EdgeId → κ) (source : VertexId) (s : Search V E κ) :
    Prop where
  fits : s.overlay.Fits g
  cost_eq : s.overlay.cost g = cost
  source_eq : s.source = source

namespace Surveys

variable {cost : EdgeId → κ} {source : VertexId} {s' : Search V E κ}

theorem follows (h : Surveys g cost source s) (hf : Follows g s s') :
    Surveys g cost source s' where
  fits := hf.touched.fits h.fits
  cost_eq := (hf.touched.cost h.fits).trans h.cost_eq
  source_eq := hf.source.trans h.source_eq

theorem fresh {o : Overlay V E κ} (hf : o.Fits g) (a b : VertexId) (config : SearchConfig) :
    Surveys g (o.cost g) a (fresh o g a b config) :=
  have ht : Overlay.Touched g o (Search.fresh o g a b config).overlay :=
    Overlay.Touched.refl.setHop a none
  ⟨ht.fits hf, ht.cost hf, rfl⟩

theorem chart_expand (h : Surveys g cost source s) (hg : g.Mirrors es) (v : VertexId) :
    (s.expand g v).chart g = (s.chart g).expand g cost source v := by
  rw [Search.chart_expand hg h.fits, h.cost_eq, h.source_eq]

/-- What exploring the next edge does to the chart. -/
theorem chart_explore (h : Surveys g cost source s) (hg : g.Mirrors es) (rest : List (Queued κ))
    {e : EdgeId} (he : g.edges.contains e = true) :
    ((s.popped rest).explore g e).chart g =
      ((s.chart g).popped rest).explore g cost source e := by
  have hchart := Search.chart_explore (s := s.popped rest) hg h.fits he
  change _ = ((s.chart g).popped rest).explore g (s.overlay.cost g) s.source e at hchart
  rw [hchart, h.cost_eq, h.source_eq]

end Surveys

end Search

end Waymark
