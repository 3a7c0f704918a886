import Waymark.Proofs.Search.Prospect

namespace Waymark

namespace Ways

variable {E κ : Type} [Cost κ] {w w' : Ways κ}

/-- The same vertices have been reached, at whatever cost. -/
def SameReach (w w' : Ways κ) : Prop := ∀ v, (w' v).isSome = (w v).isSome

theorem isSome_total? (w : Ways κ) (source v : VertexId) :
    (w.total? source v).isSome = (decide (v = source) || (w v).isSome) := by
  rw [total?]
  split <;> simp [*]

/-- Walking an edge reaches its far end if the near one has been reached. The cost decides only by
which hop. -/
theorem isSome_relax (w : Ways κ) (source a b : VertexId) (e : EdgeId) (cost : κ) (v : VertexId) :
    (w.relax source a b e cost v).isSome =
      ((w v).isSome || (decide (v = b ∧ b ≠ source) && (w.total? source a).isSome)) := by
  have hrelaxed := w.relaxed_relax source a b e cost
  generalize w.relax source a b e cost = w' at hrelaxed
  cases hrelaxed with
  | toSource hb => simp [hb]
  | unreached ha => simp [ha]
  | known _ hb =>
    by_cases hv : v = b
    · simp [hv, hb]
    · simp [hv]
  | improved hb ha =>
    by_cases hv : v = b
    · simp [hv, hb, ha]
    · simp [hv, reach_of_ne]

namespace SameReach

theorem total? (h : SameReach w w') (source v : VertexId) :
    (w'.total? source v).isSome = (w.total? source v).isSome := by
  rw [isSome_total?, isSome_total?, h v]

theorem relax (h : SameReach w w') (source a b : VertexId) (e : EdgeId) (cost cost' : κ) :
    SameReach (w.relax source a b e cost) (w'.relax source a b e cost') := by
  intro v
  rw [isSome_relax, isSome_relax, h v, h.total? source a]

theorem relaxEnds (h : SameReach w w') (source : VertexId) (edge : Edge E) (cost cost' : κ) :
    SameReach (w.relaxEnds source edge cost) (w'.relaxEnds source edge cost') := by
  have hforth := h.relax source edge.tail edge.head edge.id cost cost'
  unfold Ways.relaxEnds
  dsimp only
  split
  · exact hforth.relax source edge.head edge.tail edge.id cost cost'
  · exact hforth

end SameReach

end Ways

theorem Frontier.edges_push_of_fifo {κ : Type} [Cost κ] {f : Frontier κ} (hk : f.kind = .fifo)
    (e : EdgeId) (key : κ) :
    (f.push e key).queue.map Queued.edge = f.queue.map Queued.edge ++ [e] := by
  simp [push, hk]

namespace Chart

variable {V E κ : Type} {c c' : Chart κ}

/-- Two charts in the order of discovery that differ in costs and keys at most, and in the hops chosen
by them. -/
structure SameOutline (c c' : Chart κ) : Prop where
  ways : c.ways.SameReach c'.ways
  states : c'.states = c.states
  waiting : c'.waiting = c.waiting
  fifo : c.frontier.kind = .fifo
  fifo' : c'.frontier.kind = .fifo

namespace SameOutline

theorem blank : SameOutline (.blank .fifo) (.blank .fifo : Chart κ) :=
  ⟨fun _ => rfl, rfl, rfl, rfl, rfl⟩

theorem popped (h : SameOutline c c') {q q' : Queued κ} {rest rest' : List (Queued κ)}
    (hq : c.frontier.queue = q :: rest) (hq' : c'.frontier.queue = q' :: rest') :
    SameOutline (c.popped rest) (c'.popped rest') := by
  have hwaiting := h.waiting
  rw [Chart.waiting, Chart.waiting, hq, hq'] at hwaiting
  exact ⟨h.ways, h.states, (List.cons.inj hwaiting).2, h.fifo, h.fifo'⟩

theorem mark (h : SameOutline c c') (e : EdgeId) (state : EdgeState) :
    SameOutline (c.mark e state) (c'.mark e state) :=
  ⟨h.ways, by rw [Chart.mark, Chart.mark, h.states], h.waiting, h.fifo, h.fifo'⟩

variable [Cost κ]

/-- What is discovered waits behind all others, whatever its key. -/
theorem discover (h : SameOutline c c') (base base' : κ) (e : EdgeId) (cost cost' : κ) :
    SameOutline (c.discover base e cost) (c'.discover base' e cost') := by
  rw [Chart.discover, Chart.discover, h.states]
  split
  · refine ⟨h.ways, rfl, ?_, (Search.kind_push _ e _).trans h.fifo,
      (Search.kind_push _ e _).trans h.fifo'⟩
    change (c'.frontier.push e (base' + cost')).queue.map Queued.edge =
      (c.frontier.push e (base + cost)).queue.map Queued.edge
    rw [Frontier.edges_push_of_fifo h.fifo', Frontier.edges_push_of_fifo h.fifo]
    exact congrArg (· ++ [e]) h.waiting
  · exact h

theorem discoverAll (h : SameOutline c c') (base base' : κ) (cost cost' : EdgeId → κ)
    (l : List EdgeId) :
    SameOutline (c.discoverAll base cost l) (c'.discoverAll base' cost' l) := by
  induction l generalizing c c' with
  | nil => exact h
  | cons e l ih => exact ih (h.discover base base' e (cost e) (cost' e))

theorem expand (h : SameOutline c c') (g : Graph V E) (cost cost' : EdgeId → κ)
    (source v : VertexId) :
    SameOutline (c.expand g cost source v) (c'.expand g cost' source v) := by
  rw [Chart.expand, Chart.expand]
  split
  · exact h.discoverAll _ _ cost cost' _
  · exact h

theorem relaxEnds (h : SameOutline c c') (source : VertexId) (edge : Edge E) (cost cost' : κ) :
    SameOutline (c.relaxEnds source edge cost) (c'.relaxEnds source edge cost') :=
  ⟨h.ways.relaxEnds source edge cost cost', h.states, h.waiting, h.fifo, h.fifo'⟩

theorem expandEnds (h : SameOutline c c') (g : Graph V E) (cost cost' : EdgeId → κ)
    (source : VertexId) (edge : Edge E) :
    SameOutline (c.expandEnds g cost source edge) (c'.expandEnds g cost' source edge) := by
  have hhead := h.expand g cost cost' source edge.head
  unfold Chart.expandEnds
  dsimp only
  split
  · exact hhead.expand g cost cost' source edge.tail
  · exact hhead

/-- The costs decide nothing about what exploring an edge reaches and discovers. -/
theorem explore (h : SameOutline c c') (g : Graph V E) (cost cost' : EdgeId → κ)
    (source : VertexId) (e : EdgeId) :
    SameOutline (c.explore g cost source e) (c'.explore g cost' source e) := by
  rw [Chart.explore, Chart.explore]
  split
  · rename_i edge _
    have hrelaxed := h.relaxEnds source edge (cost e) (cost' e)
    exact (hrelaxed.expandEnds g cost cost' source edge).mark e .explored
  · exact h

end SameOutline

end Chart

namespace Search

open Chart (SameOutline)

variable {V E κ : Type} [Cost κ] {g g' : Graph V E} {cost cost' : EdgeId → κ} {source : VertexId}
  {s s' : Search V E κ} {es es' : List EdgeId}

/-- Two searches in the order of discovery stay in step on one graph, whatever its edges cost. -/
theorem Companions.step_of_sameOutline (hb : g'.bare = g.bare) (hg : g.Mirrors es)
    (hg' : g'.Mirrors es') (h : Companions SameOutline g cost g' cost' source s s') :
    (s'.step g').1 = (s.step g).1 ∧
      Companions SameOutline g cost g' cost' source (s.step g).2 (s'.step g').2 := by
  have hsame : g.SameFrom g' source := .of_bare hb source
  have hcharts := h.lockstep.charts
  have hstep := h.lockstep.step hcharts.waiting fun hf q rest q' rest' hq hq' _ => by
    obtain ⟨⟨_, _, _, hw, hl⟩, hchart, hchart'⟩ := h.next hsame hg hg' hf hq
    have hpopped := hcharts.popped hq hq'
    refine ⟨?_, hpopped, ?_⟩
    · rw [not_beaten_of_fifo hcharts.fifo q, not_beaten_of_fifo hcharts.fifo' q']
    · rw [hchart, hchart' rest', Chart.explore_sameFrom hsame hg (fun _ _ => rfl) hg' hw hl]
      exact hpopped.explore g cost cost' source q.edge
  exact ⟨hstep.1, h.ranging.step hg, h.surveys.follows s'.follows_step, hstep.2⟩

end Search

/-- The order of discovery does not depend on costs. Two searches on one graph whose edges cost
anything are refused for the same reason, or at every step they come to the same: they explore the
same edge or both are done or at the limit. Then they have reached the same vertices and every edge has
come equally far. -/
theorem Overlay.search_fifo_any_costs {V E κ : Type} [Cost κ] {g g' : Graph V E}
    {o o₁ o' o₁' : Overlay V E κ} (hb : g'.bare = g.bare) (h : g.Hosts o) (h' : g'.Hosts o')
    (ho : o.beginRun g = .ok o₁) (ho' : o'.beginRun g' = .ok o₁') (a b : VertexId)
    {config : SearchConfig} (hk : config.frontier = .fifo) :
    (∃ failure, Search.start o g a b config = .error (failure, o) ∧
      Search.start o' g' a b config = .error (failure.on o'.channel, o')) ∨
    ∃ s s', Search.start o g a b config = .ok s ∧ Search.start o' g' a b config = .ok s' ∧
      ∀ n, ((s'.after g' n).step g').1 = ((s.after g n).step g).1 ∧
        (∀ v, ((s'.after g' n).overlay.hop? g' v).isSome =
          ((s.after g n).overlay.hop? g v).isSome) ∧
        ∀ e, (s'.after g' n).overlay.state g' e = (s.after g n).overlay.state g e := by
  refine (Search.start_of_vertices h h' (congrArg Graph.vertices hb) ho ho' a b config).imp_right
    fun hbegun => ?_
  obtain ⟨ha, hs, hs'⟩ := hbegun
  obtain ⟨⟨es, hg⟩, hsound⟩ := h.sound
  obtain ⟨⟨es', hg'⟩, hsound'⟩ := h'.sound
  obtain ⟨hl, _, hblank, _⟩ := hsound.beginRun_eq_ok ho
  obtain ⟨hl', _, hblank', _⟩ := hsound'.beginRun_eq_ok ho'
  have hsame : g.SameFrom g' a := .of_bare hb a
  have hcharts : Chart.SameOutline ((Chart.blank config.frontier).expand g (o₁.cost g) a a)
      ((Chart.blank config.frontier).expand g' (o₁'.cost g') a a) := by
    rw [hk, Chart.expand_sameFrom hsame hg (fun _ _ => rfl) .start]
    exact Chart.SameOutline.blank.expand g _ _ a a
  have hboth := Search.Companions.begun hsame hg hg' (hl.fits hsound.fits) (hl'.fits hsound'.fits)
    hblank hblank' ha b config hcharts
  refine ⟨_, _, hs, hs', fun n => ?_⟩
  have hn := Search.after_of_lockstep (Search.Companions.step_of_sameOutline hb hg hg') hboth n
  exact ⟨(hn.step_of_sameOutline hb hg hg').1, hn.lockstep.charts.ways,
    congrFun hn.lockstep.charts.states⟩

/-- Two ways to one vertex, of which the one with fewer edges is the dearer one by their payloads. -/
def Search.triangle (edits : List (Request Unit Float Float)) : Workspace Unit Float Float :=
  (.addVertices [(), (), ()] :: .link ⟨0, 0⟩ ⟨1, 0⟩ .directed 5 ::
    .link ⟨0, 0⟩ ⟨2, 0⟩ .directed 1 :: .link ⟨2, 0⟩ ⟨1, 0⟩ .directed 1 :: edits).foldl
    Workspace.obey {}

/-- Whether all edges cost one or as much as their payloads say decides which way is given in the end,
and nothing about the steps. -/
theorem Overlay.search_fifo_any_costs_triangle : ∃ (g g' : Graph Unit Float)
    (o o' : Overlay Unit Float Float) (s s' : Search Unit Float Float), g'.bare = g.bare ∧
    g.Hosts o ∧ g'.Hosts o' ∧
    Search.start o g ⟨0, 0⟩ ⟨1, 0⟩ {} = .ok s ∧ Search.start o' g' ⟨0, 0⟩ ⟨1, 0⟩ {} = .ok s' ∧
    reported (o.search g ⟨0, 0⟩ ⟨1, 0⟩ {}) = .ok ⟨[⟨⟨0, 0⟩, ⟨1, 0⟩, 1⟩, ⟨⟨2, 0⟩, ⟨2, 0⟩, 2⟩]⟩ ∧
    reported (o'.search g' ⟨0, 0⟩ ⟨1, 0⟩ {}) = .ok ⟨[⟨⟨0, 0⟩, ⟨0, 0⟩, 1⟩]⟩ ∧
    ∀ n, ((s'.after g' n).step g').1 = ((s.after g n).step g).1 := by
  have h : (Search.triangle [.deed 0 (.mount .payload)]).graph.Hosts _ :=
    ⟨Search.triangle [.deed 0 (.mount .payload)], ⟨_, rfl⟩, rfl, _, List.mem_cons_self, rfl⟩
  have h' : (Search.triangle [.deed 0 (.mount (.constant 1))]).graph.Hosts _ :=
    ⟨Search.triangle [.deed 0 (.mount (.constant 1))], ⟨_, rfl⟩, rfl, _, List.mem_cons_self, rfl⟩
  have hk : (Search.triangle [.deed 0 (.mount .payload)]).graph.bare =
      (Search.triangle []).graph.bare :=
    (Graph.redecorated_mount (show (Search.triangle []).graph.mount .payload =
      (.ok _, (Search.triangle [.deed 0 (.mount .payload)]).graph) from rfl)).bare_eq
  have hk' : (Search.triangle [.deed 0 (.mount (.constant 1))]).graph.bare =
      (Search.triangle []).graph.bare :=
    (Graph.redecorated_mount (show (Search.triangle []).graph.mount (.constant 1) =
      (.ok _, (Search.triangle [.deed 0 (.mount (.constant 1))]).graph) from rfl)).bare_eq
  have hb := hk'.trans hk.symm
  obtain ⟨failure, hs, _⟩ | ⟨s, s', hs, hs', hall⟩ := Overlay.search_fifo_any_costs
    hb h h' rfl rfl ⟨0, 0⟩ ⟨1, 0⟩ (show SearchConfig.frontier {} = .fifo from rfl)
  · have hrefused := congrArg Except.isOk hs
    change _ = false at hrefused
    exact absurd hrefused (by decide +kernel)
  · exact ⟨_, _, _, _, s, s', hb, h, h', hs, hs', by decide +kernel, by decide +kernel,
      fun n => (hall n).1⟩

end Waymark
