import Waymark.Proofs.Search.Account

namespace Waymark

namespace Ways

variable {V E κ : Type} [Cost κ] {g : Graph V E} {w w' : Ways κ} {source a b v : VertexId}
  {e : EdgeId} {cost : κ}

/-- Whatever has been reached can be walked to. -/
def Walkable (g : Graph V E) (source : VertexId) (w : Ways κ) : Prop :=
  ∀ v, w.total? source v ≠ none → ∃ es, g.Walk source v es

namespace Relaxed

theorem keeps (h : Relaxed source a b e cost w w') (hv : w.total? source v ≠ none) :
    w'.total? source v ≠ none := by
  cases h with
  | toSource => exact hv
  | unreached => exact hv
  | known => exact hv
  | improved hb _ _ =>
    by_cases hvb : v = b
    · rw [hvb, total?_reach_self w hb]
      simp
    · rw [total?_reach_of_ne w hvb]
      exact hv

theorem reaches (h : Relaxed source a b e cost w w') (ha : w.total? source a ≠ none) :
    w'.total? source b ≠ none := by
  cases h with
  | toSource hb =>
    rw [hb]
    exact w.source_reached source
  | unreached hnone => exact (ha hnone).elim
  | known _ hb _ => exact w.reached_of_hop source hb
  | improved hb _ _ =>
    rw [total?_reach_self w hb]
    simp

theorem reached_cases (h : Relaxed source a b e cost w w') (hv : w'.total? source v ≠ none) :
    w.total? source v ≠ none ∨ v = b ∧ w.total? source a ≠ none := by
  cases h with
  | toSource => exact Or.inl hv
  | unreached => exact Or.inl hv
  | known => exact Or.inl hv
  | improved _ ha _ =>
    by_cases hvb : v = b
    · exact Or.inr ⟨hvb, by simp [ha]⟩
    · rw [total?_reach_of_ne w hvb] at hv
      exact Or.inl hv

theorem walkable (h : Relaxed source a b e cost w w') (he : g.leads a b e = true)
    (hw : w.Walkable g source) : w'.Walkable g source := by
  intro v hv
  obtain hold | ⟨rfl, ha⟩ := h.reached_cases hv
  · exact hw v hold
  · obtain ⟨es, hes⟩ := hw a ha
    exact ⟨_, hes.along he⟩

theorem rooted (h : Relaxed source a b e cost w w') (hw : w source = none) : w' source = none := by
  cases h with
  | toSource => exact hw
  | unreached => exact hw
  | known => exact hw
  | improved hb _ _ =>
    rw [reach_of_ne w (Ne.symm hb)]
    exact hw

end Relaxed

end Ways

namespace Search.Explored

variable {V E κ : Type} [Cost κ] {g : Graph V E} {w w' : Ways κ} {source a b v : VertexId}
  {e : EdgeId} {cost : κ}

theorem keeps (h : Explored g source e cost w w') (hv : w.total? source v ≠ none) :
    w'.total? source v ≠ none := by
  cases h with
  | oneWay _ _ h => exact h.keeps hv
  | bothWays _ _ _ h h' => exact h'.keeps (h.keeps hv)

theorem walkable (h : Explored g source e cost w w') (hw : w.Walkable g source) :
    w'.Walkable g source := by
  cases h with
  | oneWay hedge _ h => exact h.walkable (Graph.leads_forth hedge) hw
  | bothWays hedge hboth _ h h' =>
    exact h'.walkable (Graph.leads_back hedge hboth) (h.walkable (Graph.leads_forth hedge) hw)

theorem rooted (h : Explored g source e cost w w') (hw : w source = none) : w' source = none := by
  cases h with
  | oneWay _ _ h => exact h.rooted hw
  | bothWays _ _ _ h h' => exact h'.rooted (h.rooted hw)

/-- Nothing is reached but what the edge leads to. -/
theorem reached_cases (h : Explored g source e cost w w') (hv : w'.total? source v ≠ none) :
    w.total? source v ≠ none ∨ ∃ a, g.leads a v e = true := by
  cases h with
  | oneWay hedge _ h =>
    obtain hold | ⟨rfl, _⟩ := h.reached_cases hv
    · exact Or.inl hold
    · exact Or.inr ⟨_, Graph.leads_forth hedge⟩
  | bothWays hedge hboth _ h h' =>
    obtain hmid | ⟨rfl, _⟩ := h'.reached_cases hv
    · obtain hold | ⟨rfl, _⟩ := h.reached_cases hmid
      · exact Or.inl hold
      · exact Or.inr ⟨_, Graph.leads_forth hedge⟩
    · exact Or.inr ⟨_, Graph.leads_back hedge hboth⟩

/-- An edge that leaves some vertex that has been reached comes to have both its ends reached. If
that vertex is the head, walking from the tail does nothing, and walking back from the head does. -/
theorem ends_reached (h : Explored g source e cost w w') (he : g.leads a b e = true)
    (ha : w.total? source a ≠ none) {c d : VertexId} (hcd : g.leads c d e = true) :
    w'.total? source d ≠ none := by
  cases h with
  | @oneWay edge _ hedge hone h =>
    have htail : w.total? source edge.tail ≠ none := by
      obtain ⟨rfl, _⟩ | ⟨hboth, _, _⟩ := Graph.leads_cases hedge he
      · exact ha
      · have hsource : edge.tail = source := by simpa [hboth] using hone
        rw [hsource]
        exact w.source_reached source
    obtain ⟨_, rfl⟩ | ⟨_, _, rfl⟩ := Graph.leads_cases hedge hcd
    · exact h.reaches htail
    · exact h.keeps htail
  | @bothWays edge w₁ _ hedge _ _ h h' =>
    have hhead : w₁.total? source edge.head ≠ none := by
      obtain ⟨rfl, _⟩ | ⟨_, rfl, _⟩ := Graph.leads_cases hedge he
      · exact h.reaches ha
      · exact h.keeps ha
    obtain ⟨_, rfl⟩ | ⟨_, _, rfl⟩ := Graph.leads_cases hedge hcd
    · exact h'.keeps hhead
    · exact h'.reaches hhead

end Search.Explored

namespace Chart

variable {V E κ : Type} [Cost κ] {g : Graph V E} {source v : VertexId} {c : Chart κ}
  {opened : VertexId → Prop} {e : EdgeId} {es : List EdgeId} {cost : EdgeId → κ}

/-- How the vertices reached and the edges seen hang together, whatever the costs: all that can be
reached over explored edges has been reached, and its edges are seen unless it is just opened. -/
structure Spreads (g : Graph V E) (source : VertexId) (opened : VertexId → Prop) (c : Chart κ) :
    Prop where
  walkable : c.ways.Walkable g source
  rooted : c.ways source = none
  origin : ∀ {e}, c.states e ≠ .unexplored →
    ∃ a b, g.leads a b e = true ∧ c.ways.total? source a ≠ none
  closed : ∀ {v b e}, c.ways.total? source v ≠ none → g.leads v b e = true →
    opened v ∨ c.states e ≠ .unexplored
  passed : ∀ {a b e}, c.states e = .explored → g.leads a b e = true →
    c.ways.total? source b ≠ none

namespace Spreads

/-- What waits does not matter. -/
theorem popped (h : c.Spreads g source opened) (rest : List (Queued κ)) :
    (c.popped rest).Spreads g source opened :=
  ⟨h.walkable, h.rooted, h.origin, h.closed, h.passed⟩

theorem discover (h : c.Spreads g source opened) (hv : c.ways.total? source v ≠ none)
    {b : VertexId} (he : g.leads v b e = true) (base price : κ) :
    (c.discover base e price).Spreads g source opened := by
  have hways := c.ways_discover base e price
  have hdiscovers := c.discovers_discover base (Graph.contains_of_leads he) price
  refine ⟨?_, ?_, fun {d} hd => ?_, fun {u d f} hu hl => ?_, fun {a d f} hf hl => ?_⟩
  · rw [hways]
    exact h.walkable
  · rw [hways]
    exact h.rooted
  · rw [hways]
    by_cases hde : d = e
    · rw [hde]
      exact ⟨v, b, he, hv⟩
    · refine h.origin fun hu => hd ?_
      rw [Chart.discover]
      split
      · exact (Function.update_of_ne hde ..).trans hu
      · exact hu
  · rw [hways] at hu
    exact (h.closed hu hl).imp_right fun hseen => c.seen_discover base e price (Or.inr hseen)
  · rw [hways]
    exact h.passed ((hdiscovers.explored_iff f).mp hf) hl

theorem discoverAll (h : c.Spreads g source opened) (hv : c.ways.total? source v ≠ none)
    (base : κ) (cost : EdgeId → κ) (l : List EdgeId) (hl : ∀ e ∈ l, ∃ b, g.leads v b e = true) :
    (c.discoverAll base cost l).Spreads g source opened := by
  induction l generalizing c with
  | nil => exact h
  | cons e l ih =>
    obtain ⟨b, hb⟩ := hl e (.head l)
    refine ih (h.discover hv hb base (cost e)) ?_ fun d hd => hl d (.tail e hd)
    rw [ways_discover]
    exact hv

/-- A vertex all of whose edges have been seen is closed. -/
theorem close (h : c.Spreads g source opened)
    (hv : ∀ b e, g.leads v b e = true → c.states e ≠ .unexplored) :
    c.Spreads g source (fun u => opened u ∧ u ≠ v) := by
  refine { h with closed := fun {u b e} hu hl => ?_ }
  by_cases huv : u = v
  · rw [huv] at hl
    exact Or.inr (hv b e hl)
  · exact (h.closed hu hl).imp_left fun hopen => ⟨hopen, huv⟩

theorem expand (h : c.Spreads g source opened) (hg : g.Mirrors es) (cost : EdgeId → κ)
    (hv : c.ways.total? source v ≠ none) :
    (c.expand g cost source v).Spreads g source (fun u => opened u ∧ u ≠ v) := by
  rw [Chart.expand]
  cases hx : g.vertices.get? v with
  | none =>
    refine h.close fun b e he => ?_
    obtain ⟨x, hlive⟩ := Arena.contains_iff.mp (hg.live_of_leads he).1
    rw [hx] at hlive
    cases hlive
  | some x =>
    have hall := h.discoverAll hv ((c.ways.total? source v).getD 0) cost x.outgoing.edges
      fun e he => (hg.mem_outgoing hx).mp he
    refine hall.close fun b e he => ?_
    exact c.seen_discoverAll _ cost _ (Or.inl ((hg.mem_outgoing hx).mpr ⟨b, he⟩))

theorem expandEnds {edge : Edge E} (h : c.Spreads g source (fun u => ∃ a, g.leads a u e = true))
    (hg : g.Mirrors es) (cost : EdgeId → κ) (hedge : g.edges.get? e = some edge)
    (hends : ∀ a b, g.leads a b e = true → c.ways.total? source b ≠ none) :
    (c.expandEnds g cost source edge).Spreads g source (fun _ => False) := by
  have he := Graph.leads_forth hedge
  have hhead := h.expand hg cost (hends _ _ he)
  unfold Chart.expandEnds
  dsimp only
  split
  · rename_i hboth
    have hreached : (c.expand g cost source edge.head).ways.total? source edge.tail ≠ none := by
      rw [ways_expand]
      exact hends _ _ (Graph.leads_back hedge hboth)
    have htail := hhead.expand hg cost hreached
    refine { htail with closed := fun hv hl => (htail.closed hv hl).imp_left ?_ }
    intro hopen
    obtain ⟨⟨⟨a, ha⟩, hnhead⟩, hntail⟩ := hopen
    obtain ⟨_, hu⟩ | ⟨_, hu⟩ := Graph.leads_ends he ha
    · exact hnhead hu
    · exact hntail hu
  · rename_i hone
    refine { hhead with closed := fun hv hl => (hhead.closed hv hl).imp_left ?_ }
    intro hopen
    obtain ⟨⟨a, ha⟩, hnhead⟩ := hopen
    obtain ⟨_, hu⟩ | ⟨hboth, _⟩ := Graph.leads_cases hedge ha
    · exact hnhead hu
    · exact hone hboth

/-- Walking an edge that has been seen opens the ends that are new. -/
theorem relaxEnds {edge : Edge E} (h : c.Spreads g source (fun _ => False)) (hg : g.Mirrors es)
    (hedge : g.edges.get? e = some edge) (hseen : c.states e ≠ .unexplored) (price : κ) :
    (c.relaxEnds source edge price).Spreads g source (fun u => ∃ a, g.leads a u e = true) ∧
      ∀ a b, g.leads a b e = true →
        (c.ways.relaxEnds source edge price).total? source b ≠ none := by
  have hx := Search.explored_relaxEnds hg c.ways source hedge price
  obtain ⟨a, b, he, ha⟩ := h.origin hseen
  constructor
  · refine ⟨hx.walkable h.walkable, hx.rooted h.rooted, fun hd => ?_, fun {u d f} hu hl => ?_,
      fun hf hl => hx.keeps (h.passed hf hl)⟩
    · obtain ⟨a, b, hl, hreached⟩ := h.origin hd
      exact ⟨a, b, hl, hx.keeps hreached⟩
    · obtain hold | hnew := hx.reached_cases hu
      · exact Or.inr ((h.closed hold hl).resolve_left id)
      · exact Or.inl hnew
  · exact fun _ _ hcd => hx.ends_reached he ha hcd

/-- An edge whose ends have been reached is done. -/
theorem mark (h : c.Spreads g source opened)
    (hends : ∀ a b, g.leads a b e = true → c.ways.total? source b ≠ none)
    (hseen : c.states e ≠ .unexplored) : (c.mark e .explored).Spreads g source opened := by
  refine ⟨h.walkable, h.rooted, fun {d} hd => ?_, fun {u b d} hu hl => ?_, fun {a b d} hd hl => ?_⟩
  · by_cases hde : d = e
    · rw [hde]
      exact h.origin hseen
    · rw [states_mark, if_neg hde] at hd
      exact h.origin hd
  · refine (h.closed hu hl).imp_right fun hd => ?_
    rw [states_mark]
    split
    · decide
    · exact hd
  · by_cases hde : d = e
    · rw [hde] at hl
      exact hends a b hl
    · rw [states_mark, if_neg hde] at hd
      exact h.passed hd hl

/-- Exploring an edge that has been seen keeps a chart spread. -/
theorem explore (h : c.Spreads g source (fun _ => False)) (hg : g.Mirrors es) (cost : EdgeId → κ)
    (hlive : g.edges.contains e = true) (hseen : c.states e ≠ .unexplored) :
    (c.explore g cost source e).Spreads g source (fun _ => False) := by
  obtain ⟨edge, hedge⟩ := Arena.contains_iff.mp hlive
  obtain ⟨hrelaxed, hends⟩ := h.relaxEnds hg hedge hseen (cost e)
  have hexpanded := hrelaxed.expandEnds hg cost hedge hends
  have hdiscovers :=
    discovers_expandEnds hg (c.relaxEnds source edge (cost e)) cost source edge
  rw [Chart.explore, hedge]
  refine hexpanded.mark (fun a b hl => ?_) ?_
  · rw [ways_expandEnds]
    exact hends a b hl
  · obtain hkept | ⟨_, hd, _⟩ := hdiscovers e
    · rw [hkept]
      exact hseen
    · rw [hd]
      decide

/-- A search that begins has its source opened and closed. -/
theorem begun (hg : g.Mirrors es) (cost : EdgeId → κ) (kind : FrontierKind) (source : VertexId) :
    ((blank kind).expand g cost source source).Spreads g source (fun _ => False) := by
  have hopened : (blank kind : Chart κ).Spreads g source (· = source) := by
    refine ⟨fun v hv => ?_, rfl, fun hd => (hd rfl).elim, fun {v b e} hv _ => ?_, fun hd => ?_⟩
    · obtain ⟨total, hv⟩ := Option.ne_none_iff_exists'.mp hv
      rw [(Settled.total?_blank hv).1]
      exact ⟨[], .start⟩
    · obtain ⟨total, hv⟩ := Option.ne_none_iff_exists'.mp hv
      exact Or.inl (Settled.total?_blank hv).1
    · cases hd
  have hexpanded := hopened.expand hg cost ((blank kind : Chart κ).ways.source_reached source)
  exact { hexpanded with
    closed := fun hv hl => (hexpanded.closed hv hl).imp_left fun hopen => hopen.2 hopen.1 }

/-- Once no edge waits any more, exactly what can be walked to has been reached. -/
theorem reached_iff (h : c.Spreads g source (fun _ => False)) (hp : c.Plain g)
    (hdone : ∀ e, c.states e ≠ .discovered) :
    c.ways.total? source v ≠ none ↔ ∃ es, g.Walk source v es := by
  constructor
  · exact h.walkable v
  · intro hwalk
    obtain ⟨es, hw⟩ := hwalk
    induction hw with
    | start => exact c.ways.source_reached source
    | @along b d _ e _ he ih =>
      have hseen := (h.closed ih he).resolve_left id
      exact h.passed ((hp.unexplored_or_explored hdone e).resolve_left hseen) he

/-- Then every edge out of what has been reached is explored, and no other edge has been seen. -/
theorem states_eq (h : c.Spreads g source (fun _ => False)) (hp : c.Plain g)
    (hdone : ∀ e, c.states e ≠ .discovered) (e : EdgeId) :
    (c.states e = .explored ↔
      ∃ a b, g.leads a b e = true ∧ c.ways.total? source a ≠ none) ∧
      (c.states e ≠ .explored → c.states e = .unexplored) := by
  have hcases := hp.unexplored_or_explored hdone e
  refine ⟨⟨fun hx => h.origin (by rw [hx]; decide), fun hwhole => ?_⟩, hcases.resolve_right⟩
  obtain ⟨a, b, hl, ha⟩ := hwhole
  exact hcases.resolve_left ((h.closed ha hl).resolve_left id)

end Spreads

end Chart

namespace Search

variable {V E κ : Type} [Cost κ] {g : Graph V E} {cost : EdgeId → κ} {source : VertexId}
  {s : Search V E κ} {es : List EdgeId} {q : Queued κ} {rest : List (Queued κ)}

/-- What holds of every search at every step, in whatever order its edges are explored. -/
structure Ranging (g : Graph V E) (cost : EdgeId → κ) (source : VertexId) (s : Search V E κ) :
    Prop where
  accounted : ∃ log, Accounted g cost source log s
  spreads : (s.chart g).Spreads g source (fun _ => False)

namespace Ranging

/-- The next edge leads on from a vertex that can be walked to. -/
theorem next (h : Ranging g cost source s) (hg : g.Mirrors es) (hf : s.finished = false)
    (hq : s.frontier.queue = q :: rest) :
    s.overlay.state g q.edge ≠ .unexplored ∧
      ∃ a b path, g.Walk source a path ∧ g.leads a b q.edge = true := by
  obtain ⟨log, hlog⟩ := h.accounted
  obtain ⟨hstate, _⟩ := hlog.explore hg hf hq
  have hseen : s.overlay.state g q.edge ≠ .unexplored := by
    rw [hstate]
    decide
  obtain ⟨a, b, hl, ha⟩ := h.spreads.origin hseen
  obtain ⟨path, hw⟩ := h.spreads.walkable a ha
  exact ⟨hseen, a, b, path, hw, hl⟩

theorem step (h : Ranging g cost source s) (hg : g.Mirrors es) :
    Ranging g cost source (s.step g).2 := by
  obtain ⟨log, hlog⟩ := h.accounted
  have hnext : ∃ log, Accounted g cost source log (s.step g).2 := ⟨_, hlog.step hg⟩
  have hstep := s.stepped g
  generalize s.step g = r at hstep hnext
  cases hstep with
  | idle => exact h
  | atLimit => exact h
  | dry => exact ⟨hnext, h.spreads⟩
  | @beaten q rest => exact ⟨hnext, h.spreads.popped rest⟩
  | @explored q rest hf hq _ =>
    obtain ⟨hseen, a, b, _, _, hl⟩ := h.next hg hf hq
    have hlive := Graph.contains_of_leads hl
    refine ⟨hnext, ?_⟩
    rw [hlog.surveys.chart_explore hg rest hlive]
    exact (h.spreads.popped rest).explore hg cost hlive hseen

theorem begun {o : Overlay V E κ} (hg : g.Mirrors es) (hf : o.Fits g) (hb : o.Blank)
    {a : VertexId} (ha : g.vertices.contains a = true) (b : VertexId) (config : SearchConfig) :
    Ranging g (o.cost g) a ((fresh o g a b config).expand g a) := by
  have hchart := (Surveys.fresh (g := g) hf a b config).chart_expand hg a
  rw [chart_fresh hf hb ha] at hchart
  refine ⟨⟨[], .begun hg hf hb ha b config⟩, ?_⟩
  rw [hchart]
  exact .begun hg (o.cost g) config.frontier a

end Ranging

end Search

end Waymark
