import Waymark.Proofs.Search.Lockstep
import Waymark.Proofs.Search.Orientation

namespace Waymark

namespace Search

open Overlay (SameHops)

variable {V E κ : Type} [Cost κ] {g g' : Graph V E} {cost : EdgeId → κ} {source a b : VertexId}
  {s s' : Search V E κ} {es es' : List EdgeId} {o o₁ o' o₁' : Overlay V E κ}
  {config : SearchConfig}

/-- Searches on two graphs that have come equally far. What holds of the first one at every step is
what makes the next step come to the same on the second graph. -/
structure Counterparts (g : Graph V E) (cost : EdgeId → κ) (source : VertexId) (g' : Graph V E)
    (s s' : Search V E κ) : Prop where
  accounted : ∃ log, Accounted g cost source log s
  spreads : (s.chart g).Spreads g source (fun _ => False)
  nonneg : (s.overlay.ways g).Nonneg
  surveys : Surveys g' cost source s'
  chart_eq : s'.chart g' = s.chart g
  destination_eq : s'.destination = s.destination
  limit_eq : s'.maxExpansions? = s.maxExpansions?
  expansions_eq : s'.expansions = s.expansions
  finished_eq : s'.finished = s.finished

namespace Counterparts

theorem ways_eq (h : Counterparts g cost source g' s s') :
    s'.overlay.ways g' = s.overlay.ways g := congrArg Chart.ways h.chart_eq

theorem frontier_eq (h : Counterparts g cost source g' s s') : s'.frontier = s.frontier :=
  congrArg Chart.frontier h.chart_eq

theorem ranging (h : Counterparts g cost source g' s s') : Ranging g cost source s :=
  ⟨h.accounted, h.spreads⟩

theorem lockstep (h : Counterparts g cost source g' s s') : Lockstep Eq g s g' s' :=
  ⟨h.chart_eq.symm, h.destination_eq, h.limit_eq, h.expansions_eq, h.finished_eq⟩

/-- The way to the destination is told alike. -/
theorem path (h : Counterparts g cost source g' s s') (hr : g.Reoriented g') :
    s'.path g' = (s.path g).mapError (.on s'.overlay.channel) := by
  obtain ⟨log, hlog⟩ := h.accounted
  have hsame : SameHops g s.overlay g' s'.overlay := by
    intro v
    have hcases := Overlay.Fits.vertexMark_of_vertices hr.vertices hlog.surveys.fits
      h.surveys.fits v
    refine hcases.imp_left fun hmarks => ?_
    obtain ⟨mark, mark', hm, hm'⟩ := hmarks
    obtain ⟨i, hi⟩ := Overlay.vertexMark_eq_ok.mp hm
    obtain ⟨j, hj⟩ := Overlay.vertexMark_eq_ok.mp hm'
    refine ⟨mark, mark', hm, hm', ?_⟩
    rw [← Overlay.hop?_of_findVertex hi, ← Overlay.hop?_of_findVertex hj]
    exact congrFun h.ways_eq v
  rw [Search.path, Search.path, h.destination_eq, hsame.pathTo]

theorem begun (hr : g.Reoriented g') (hg : g.Mirrors es) (hg' : g'.Mirrors es') (hf : o.Fits g)
    (hf' : o'.Fits g') (hblank : o.Blank) (hblank' : o'.Blank) (hcost : o'.cost g' = o.cost g)
    (ha : g.vertices.contains a = true) (b : VertexId) (config : SearchConfig) :
    Counterparts g (o.cost g) a g' ((fresh o g a b config).expand g a)
      ((fresh o' g' a b config).expand g' a) := by
  have hworks' := (fresh o' g' a b config).works_expand (g := g') a
  have hsurveys' := Surveys.fresh (g := g') hf' a b config
  have hchart := (Surveys.fresh (g := g) hf a b config).chart_expand hg a
  have hchart' := hsurveys'.chart_expand hg' a
  rw [chart_fresh hf hblank ha] at hchart
  rw [chart_fresh hf' hblank' ((hr.contains_vertices a).trans ha), hcost,
    Chart.expand_reoriented hr, ← hchart] at hchart'
  have hranging := Ranging.begun hg hf hblank ha b config
  have hlockstep := Lockstep.begun (R := Eq) hchart'.symm
  refine ⟨hranging.accounted, hranging.spreads, ?_, hcost ▸ hsurveys'.follows hworks'.toFollows,
    hchart', hlockstep.destination, hlockstep.limit, hlockstep.expansions, hlockstep.finished⟩
  rw [ways_expand, ways_fresh hf hblank ha]
  intro v hop hv
  cases hv

/-- Both searches are refused for the same reason, or both begin. -/
theorem start (h : g.Hosts o) (h' : g'.Hosts o') (hr : g.Reoriented g')
    (ho : o.beginRun g = .ok o₁) (ho' : o'.beginRun g' = .ok o₁')
    (hcost : ∀ e, g.edges.contains e = true → o₁'.cost g' e = o₁.cost g e) (a b : VertexId)
    (config : SearchConfig) :
    (∃ failure, Search.start o g a b config = .error (failure, o) ∧
      Search.start o' g' a b config = .error (failure.on o'.channel, o')) ∨
    ∃ s s', Search.start o g a b config = .ok s ∧ Search.start o' g' a b config = .ok s' ∧
      Counterparts g (o₁.cost g) a g' s s' ∧ s'.overlay.channel = o'.channel := by
  refine (start_of_vertices h h' hr.vertices ho ho' a b config).imp_right fun hbegun => ?_
  obtain ⟨ha, hs, hs'⟩ := hbegun
  obtain ⟨⟨es, hg⟩, hsound⟩ := h.sound
  obtain ⟨⟨es', hg'⟩, hsound'⟩ := h'.sound
  obtain ⟨hl, _, hblank, _⟩ := hsound.beginRun_eq_ok ho
  obtain ⟨hl', _, hblank', _⟩ := hsound'.beginRun_eq_ok ho'
  have hcosts : o₁'.cost g' = o₁.cost g := Overlay.cost_ext hr.contains_edges hcost
  refine ⟨_, _, hs, hs', ?_, ?_⟩
  · exact .begun hr hg hg' (hl.fits hsound.fits) (hl'.fits hsound'.fits) hblank hblank' hcosts
      ha b config
  · exact (touched_fresh o₁' g' a b config 0).sameLayout.channel.trans hl'.channel

variable [GrowingCost κ]

/-- The next edge is explored alike. -/
theorem explore (h : Counterparts g cost source g' s s') (hr : g.Reoriented g')
    (hg : g.Mirrors es) (hg' : g'.Mirrors es') (hc : ∀ e, 0 ≤ cost e) (hf : s.finished = false)
    {q : Queued κ} {rest : List (Queued κ)} (hq : s.frontier.queue = q :: rest) :
    ((s.popped rest).explore g q.edge).chart g = ((s'.popped rest).explore g' q.edge).chart g' := by
  obtain ⟨log, hlog⟩ := h.accounted
  obtain ⟨hseen, _, _, _, _, hl⟩ := h.ranging.next hg hf hq
  have hlive := Graph.contains_of_leads hl
  have hlive' : g'.edges.contains q.edge = true := (hr.contains_edges q.edge).trans hlive
  rw [hlog.surveys.chart_explore hg rest hlive, h.surveys.chart_explore hg' rest hlive',
    h.chart_eq, Chart.explore_reoriented hr hg hc (h.spreads.popped rest) h.nonneg hlive hseen]

theorem nonneg_step (h : Counterparts g cost source g' s s') (hg : g.Mirrors es)
    (hc : ∀ e, 0 ≤ cost e) : ((s.step g).2.overlay.ways g).Nonneg := by
  obtain ⟨log, hlog⟩ := h.accounted
  obtain hkept | ⟨e, hexplored⟩ := ways_step hg hlog.surveys.fits
  · rw [hkept]
    exact h.nonneg
  · rw [hlog.surveys.cost_eq] at hexplored
    exact h.nonneg.explored (hc e) hexplored

/-- One step comes to the same on both graphs. -/
theorem step (h : Counterparts g cost source g' s s') (hr : g.Reoriented g') (hg : g.Mirrors es)
    (hg' : g'.Mirrors es') (hc : ∀ e, 0 ≤ cost e) :
    (s'.step g').1 = (s.step g).1 ∧
      Counterparts g cost source g' (s.step g).2 (s'.step g').2 := by
  obtain ⟨hlast, hnext⟩ := h.lockstep.step_of_eq fun hf _ _ hq => h.explore hr hg hg' hc hf hq
  have hranging := h.ranging.step hg
  exact ⟨hlast, hranging.accounted, hranging.spreads, h.nonneg_step hg hc,
    h.surveys.follows s'.follows_step, hnext.charts.symm, hnext.destination, hnext.limit,
    hnext.expansions, hnext.finished⟩

end Counterparts

end Search

namespace Overlay

open Search (Counterparts)

variable {V E κ : Type} [Cost κ] [GrowingCost κ] {g g' : Graph V E} {o o₁ o' o₁' : Overlay V E κ}

theorem reported_search_reoriented (h : g.Hosts o) (h' : g'.Hosts o') (hr : g.Reoriented g')
    (ho : o.beginRun g = .ok o₁) (ho' : o'.beginRun g' = .ok o₁')
    (hcost : ∀ e, g.edges.contains e = true → o₁'.cost g' e = o₁.cost g e) (a b : VertexId)
    (config : SearchConfig) :
    reported (o'.search g' a b config) =
      (reported (o.search g a b config)).mapError (.on o'.channel) := by
  obtain ⟨⟨es, hg⟩, hsound⟩ := h.sound
  obtain ⟨⟨es', hg'⟩, _⟩ := h'.sound
  have hc := (hsound.beginRun_eq_ok ho).2.1.cost_nonneg (g := g)
  rw [search, search]
  obtain ⟨failure, hs, hs'⟩ | ⟨s, s', hs, hs', hboth, hchannel⟩ :=
    Counterparts.start h h' hr ho ho' hcost a b config
  · rw [hs, hs']
    rfl
  · rw [hs, hs', ← hchannel]
    exact (Search.run_of_lockstep (fun h => h.step hr hg hg' hc) (fun h => h.path hr) hboth).1

/-- How edges are declared that can be walked both ways makes no difference to searching. If all
edges cost the same on two graphs that differ in nothing else, both searches are refused for the
same reason, or at every step they come to the same, with the same hops, the same edges in the
frontier and the same way to the destination. Whatever is reported in the end is reported by both;
only the channel that a failure names is that of the overlay. -/
theorem search_reoriented (h : g.Hosts o) (h' : g'.Hosts o') (hr : g.Reoriented g')
    (ho : o.beginRun g = .ok o₁) (ho' : o'.beginRun g' = .ok o₁')
    (hcost : ∀ e, g.edges.contains e = true → o₁'.cost g' e = o₁.cost g e) (a b : VertexId)
    (config : SearchConfig) :
    ((∃ failure, Search.start o g a b config = .error (failure, o) ∧
        Search.start o' g' a b config = .error (failure.on o'.channel, o')) ∨
      ∃ s s', Search.start o g a b config = .ok s ∧ Search.start o' g' a b config = .ok s' ∧
        ∀ n, ((s'.after g' n).step g').1 = ((s.after g n).step g).1 ∧
          (∀ v, (s'.after g' n).overlay.hop? g' v = (s.after g n).overlay.hop? g v) ∧
          (∀ e, (s'.after g' n).overlay.state g' e = (s.after g n).overlay.state g e) ∧
          (s'.after g' n).frontier = (s.after g n).frontier ∧
          (s'.after g' n).path g' = ((s.after g n).path g).mapError (.on o'.channel)) ∧
    reported (o'.search g' a b config) =
      (reported (o.search g a b config)).mapError (.on o'.channel) ∧
    (o'.channel = o.channel →
      reported (o'.search g' a b config) = reported (o.search g a b config)) := by
  have hreport := reported_search_reoriented h h' hr ho ho' hcost a b config
  obtain ⟨⟨es, hg⟩, hsound⟩ := h.sound
  obtain ⟨⟨es', hg'⟩, _⟩ := h'.sound
  have hc := (hsound.beginRun_eq_ok ho).2.1.cost_nonneg (g := g)
  refine ⟨?_, hreport, fun hchannel => ?_⟩
  · refine (Counterparts.start h h' hr ho ho' hcost a b config).imp_right fun hbegun => ?_
    obtain ⟨s, s', hs, hs', hboth, hchannel⟩ := hbegun
    refine ⟨s, s', hs, hs', fun n => ?_⟩
    have hn := Search.after_of_lockstep (fun h => h.step hr hg hg' hc) hboth n
    have hpath := hn.path hr
    rw [(s'.follows_after (g := g') n).touched.sameLayout.channel, hchannel] at hpath
    exact ⟨(hn.step hr hg hg' hc).1, congrFun hn.ways_eq,
      congrFun (congrArg Chart.states hn.chart_eq), hn.frontier_eq, hpath⟩
  · -- On its own graph a search names the channel of its overlay already.
    have hself := reported_search_reoriented h h (.refl g) ho ho (fun _ _ => rfl) a b config
    rw [hreport, hchannel]
    exact hself.symm

end Overlay

/-- A street that can be walked both ways, declared from one end to the other, and roads beyond. -/
def Search.street (tail head : VertexId) : Workspace Unit Float Float :=
  [.addVertices [(), (), (), ()], .link tail head .bidirectional 1,
    .link ⟨1, 0⟩ ⟨2, 0⟩ .bidirectional 1, .link ⟨2, 0⟩ ⟨3, 0⟩ .directed 1,
    .deed 0 (.mount .payload)].foldl Workspace.obey {}

/-- A vertex beyond a street is reached alike when the street is declared from its other end. -/
theorem Overlay.search_reoriented_street : ∃ (g g' : Graph Unit Float)
    (o o' : Overlay Unit Float Float),
    g.Hosts o ∧ g'.Hosts o' ∧ g.Reoriented g' ∧
    (g.edge ⟨0, 0⟩).map Edge.tail = .ok ⟨0, 0⟩ ∧ (g'.edge ⟨0, 0⟩).map Edge.tail = .ok ⟨1, 0⟩ ∧
    reported (o.search g ⟨0, 0⟩ ⟨2, 0⟩ {}) = .ok ⟨[⟨⟨0, 0⟩, ⟨0, 0⟩, 1⟩, ⟨⟨1, 0⟩, ⟨1, 0⟩, 2⟩]⟩ ∧
    reported (o'.search g' ⟨0, 0⟩ ⟨2, 0⟩ {}) = reported (o.search g ⟨0, 0⟩ ⟨2, 0⟩ {}) := by
  have h : (Search.street ⟨0, 0⟩ ⟨1, 0⟩).graph.Hosts _ :=
    ⟨Search.street ⟨0, 0⟩ ⟨1, 0⟩, ⟨_, rfl⟩, rfl, _, List.mem_cons_self, rfl⟩
  have h' : (Search.street ⟨1, 0⟩ ⟨0, 0⟩).graph.Hosts _ :=
    ⟨Search.street ⟨1, 0⟩ ⟨0, 0⟩, ⟨_, rfl⟩, rfl, _, List.mem_cons_self, rfl⟩
  have hr : (Search.street ⟨0, 0⟩ ⟨1, 0⟩).graph.Reoriented (Search.street ⟨1, 0⟩ ⟨0, 0⟩).graph :=
    .of_ids rfl (by decide +kernel) (by decide +kernel)
  have hall := Overlay.search_reoriented h h' hr rfl rfl (by
    simp only [← Arena.mem_ids]
    decide +kernel) ⟨0, 0⟩ ⟨2, 0⟩ {}
  exact ⟨_, _, _, _, h, h', hr, by decide +kernel, by decide +kernel, by decide +kernel,
    hall.2.2 (by decide +kernel)⟩

end Waymark
