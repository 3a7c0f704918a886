import Waymark.Proofs.Graph.Prospect
import Waymark.Proofs.Search.Lockstep
import Waymark.Proofs.Search.Spread

namespace Waymark

namespace Chart

variable {V E κ : Type} [Cost κ] {g g' : Graph V E} {cost cost' : EdgeId → κ}
  {source v b : VertexId} {e : EdgeId} {es es' path : List EdgeId}

theorem discoverAll_congr {l : List EdgeId} (h : ∀ e ∈ l, cost' e = cost e) (c : Chart κ)
    (base : κ) : c.discoverAll base cost' l = c.discoverAll base cost l :=
  List.foldl_ext _ _ c fun c e he => by rw [h e he]

theorem expand_eq (c : Chart κ) (g : Graph V E) (cost : EdgeId → κ) (source v : VertexId) :
    c.expand g cost source v =
      match g.outgoing? v with
      | some l => c.discoverAll ((c.ways.total? source v).getD 0) cost l
      | none => c := by
  rw [expand, Graph.outgoing?]
  cases g.vertices.get? v <;> rfl

theorem relaxEnds_of_declaration {x x' : Edge E} (hid : x'.id = x.id)
    (hd : x'.declaration = x.declaration) (c : Chart κ) (source : VertexId) (price : κ) :
    c.relaxEnds source x' price = c.relaxEnds source x price := by
  obtain ⟨ht, hh, hboth⟩ := Edge.ends_of_declaration hd
  rw [relaxEnds, relaxEnds, Ways.relaxEnds, Ways.relaxEnds, hid, ht, hh, hboth]

section SameFrom

variable (h : g.SameFrom g' source) (hg : g.Mirrors es)
  (hcost : ∀ {v b e path}, g.Walk source v path → g.leads v b e = true → cost' e = cost e)

include h hg hcost

theorem expand_sameFrom (hw : g.Walk source v path) (c : Chart κ) :
    c.expand g' cost' source v = c.expand g cost source v := by
  rw [expand_eq, expand_eq, h.outgoing hw, Graph.outgoing?]
  cases hx : g.vertices.get? v with
  | none => rfl
  | some x =>
    refine discoverAll_congr (fun e he => ?_) c _
    obtain ⟨b, hb⟩ := (hg.mem_outgoing hx).mp he
    exact hcost hw hb

/-- Exploring an edge that leads on from a vertex that can be walked to comes to the same. -/
theorem explore_sameFrom (hg' : g'.Mirrors es') (hw : g.Walk source v path)
    (he : g.leads v b e = true) (c : Chart κ) :
    c.explore g' cost' source e = c.explore g cost source e := by
  obtain ⟨x, hx⟩ := Arena.contains_iff.mp (Graph.contains_of_leads he)
  have hdecl := h.declaration hw he
  rw [Graph.declaration?, Graph.declaration?, hx, Option.map_some,
    Option.map_eq_some_iff] at hdecl
  obtain ⟨x', hx', hd⟩ := hdecl
  obtain ⟨ht, hh, hboth⟩ := Edge.ends_of_declaration hd
  have hid : x'.id = x.id := (hg'.edge_id hx').trans (hg.edge_id hx).symm
  -- Both ends can be walked to, from whichever end one comes.
  obtain ⟨tailPath, htail, headPath, hhead⟩ :
      ∃ tailPath, g.Walk source x.tail tailPath ∧ ∃ headPath, g.Walk source x.head headPath := by
    obtain ⟨rfl, rfl⟩ | ⟨_, rfl, rfl⟩ := Graph.leads_cases hx he
    · exact ⟨_, hw, _, hw.along he⟩
    · exact ⟨_, hw.along he, _, hw⟩
  rw [explore, explore, hx, hx']
  dsimp only
  rw [hcost hw he, relaxEnds_of_declaration hid hd, expandEnds, expandEnds, ht, hh, hboth,
    expand_sameFrom h hg hcost hhead, expand_sameFrom h hg hcost htail]

end SameFrom

end Chart

namespace Search

variable {V E κ : Type} [Cost κ] {g g' : Graph V E} {cost cost' : EdgeId → κ}
  {source a b : VertexId} {s s' : Search V E κ} {o o₁ o' o₁' : Overlay V E κ}
  {config : SearchConfig} {es es' : List EdgeId}

/-- Searches that have come equally far on two graphs, and where the first one can have come. Nothing
that it cannot walk to tells the graphs apart. -/
structure Companions (R : Chart κ → Chart κ → Prop) (g : Graph V E) (cost : EdgeId → κ)
    (g' : Graph V E) (cost' : EdgeId → κ) (source : VertexId) (s s' : Search V E κ) : Prop where
  ranging : Ranging g cost source s
  surveys : Surveys g' cost' source s'
  lockstep : Lockstep R g s g' s'

namespace Companions

section SameFrom

variable {R : Chart κ → Chart κ → Prop} (hsame : g.SameFrom g' source) (hg : g.Mirrors es)
  (hg' : g'.Mirrors es')

include hsame hg hg'

/-- Both explore the next edge of the first one as on their charts of the graph. -/
theorem next (h : Companions R g cost g' cost' source s s') (hf : s.finished = false)
    {q : Queued κ} {rest : List (Queued κ)} (hq : s.frontier.queue = q :: rest) :
    (∃ v b path, g.Walk source v path ∧ g.leads v b q.edge = true) ∧
      ((s.popped rest).explore g q.edge).chart g =
        ((s.chart g).popped rest).explore g cost source q.edge ∧
      ∀ rest', ((s'.popped rest').explore g' q.edge).chart g' =
        ((s'.chart g').popped rest').explore g' cost' source q.edge := by
  obtain ⟨log, hlog⟩ := h.ranging.accounted
  obtain ⟨_, v, b, path, hw, hl⟩ := h.ranging.next hg hf hq
  have hl' := (Graph.leads_of_declaration? (hsame.declaration hw hl) v b).trans hl
  exact ⟨⟨v, b, path, hw, hl⟩,
    hlog.surveys.chart_explore hg rest (Graph.contains_of_leads hl),
    fun rest' => h.surveys.chart_explore hg' rest' (Graph.contains_of_leads hl')⟩

/-- What cannot be walked to plays no part in a step. -/
theorem step_of_eq (h : Companions Eq g cost g' cost' source s s')
    (hcost : ∀ {v b e path}, g.Walk source v path → g.leads v b e = true → cost' e = cost e) :
    (s'.step g').1 = (s.step g).1 ∧
      Companions Eq g cost g' cost' source (s.step g).2 (s'.step g').2 := by
  have hstep := h.lockstep.step_of_eq fun hf q rest hq => by
    obtain ⟨⟨_, _, _, hw, hl⟩, hchart, hchart'⟩ := h.next hsame hg hg' hf hq
    rw [hchart, hchart', ← h.lockstep.charts, Chart.explore_sameFrom hsame hg hcost hg' hw hl]
  exact ⟨hstep.1, h.ranging.step hg, h.surveys.follows s'.follows_step, hstep.2⟩

theorem begun (hf : o.Fits g) (hf' : o'.Fits g') (hblank : o.Blank) (hblank' : o'.Blank)
    (ha : g.vertices.contains source = true) (b : VertexId) (config : SearchConfig)
    (hc : R ((Chart.blank config.frontier).expand g (o.cost g) source source)
      ((Chart.blank config.frontier).expand g' (o'.cost g') source source)) :
    Companions R g (o.cost g) g' (o'.cost g') source ((fresh o g source b config).expand g source)
      ((fresh o' g' source b config).expand g' source) := by
  have hsurveys := Surveys.fresh (g := g) hf source b config
  have hsurveys' := Surveys.fresh (g := g') hf' source b config
  have hworks' := (fresh o' g' source b config).works_expand (g := g') source
  refine ⟨.begun hg hf hblank ha b config, hsurveys'.follows hworks'.toFollows, .begun ?_⟩
  rwa [hsurveys.chart_expand hg, hsurveys'.chart_expand hg', chart_fresh hf hblank ha,
    chart_fresh hf' hblank' ((hsame.contains .start).trans ha)]

end SameFrom

end Companions

/-- What a search reports that can tell the way to its destination in the end. -/
theorem reported_run {path : Path κ} (hp : (s.exhaust g).2.path g = .ok path) :
    reported (s.run g) = match (s.exhaust g).1 with
      | .limitReached limit => .error (.expansionLimit limit)
      | _ => .ok path := by
  rw [run_eq_conclude]
  generalize s.exhaust g = r at hp
  obtain ⟨last, t⟩ := r
  change t.path g = .ok path at hp
  cases last with
  | limitReached limit => rfl
  | expanded e =>
    unfold conclude
    dsimp only
    rw [hp]
    rfl
  | finished =>
    rw [conclude_of_finished hp]
    rfl

namespace Begun

variable [LawfulCost κ]

theorem path_after (h : Begun g a b s) (n : Nat) (hb : g.vertices.contains b = true) :
    ∃ path, (s.after g n).path g = .ok path := by
  obtain ⟨path, hpath, _⟩ := h.pathTo n hb
  rw [Search.path, h.destination_after]
  exact ⟨path, hpath⟩

/-- The same ways give the same path, however many marks there are besides. -/
theorem path_eq (h : Begun g a b s) (h' : Begun g' a b s') {n : Nat}
    (hb : g.vertices.contains b = true) (hb' : g'.vertices.contains b = true)
    (hways : (s'.after g' n).overlay.ways g' = (s.after g n).overlay.ways g) :
    (s'.after g' n).path g' = (s.after g n).path g := by
  obtain ⟨path, hpath, hcases⟩ := h.pathTo n hb
  obtain ⟨path', hpath', hcases'⟩ := h'.pathTo n hb'
  rw [Search.path, Search.path, h.destination_after, h'.destination_after, hpath, hpath']
  rw [hways] at hcases'
  obtain ⟨hnone, rfl⟩ | ⟨hop, hsome, _, htrace⟩ := hcases
  · obtain ⟨_, rfl⟩ | ⟨hop', hsome', _⟩ := hcases'
    · rfl
    · rw [hnone] at hsome'
      cases hsome'
  · obtain ⟨hnone', rfl⟩ | ⟨_, _, _, htrace'⟩ := hcases'
    · rw [hsome] at hnone'
      cases hnone'
    · exact congrArg (fun hops => Except.ok (Path.mk hops)) (htrace'.unique htrace)

end Begun

theorem Companions.reported_run [LawfulCost κ] (h : Companions Eq g cost g' cost' a s s')
    (hsame : g.SameFrom g' a) (hg : g.Mirrors es) (hg' : g'.Mirrors es')
    (hcost : ∀ {v b e path}, g.Walk a v path → g.leads v b e = true → cost' e = cost e)
    (hs : Begun g a b s) (hs' : Begun g' a b s') (hb : g.vertices.contains b = true)
    (hb' : g'.vertices.contains b = true) : reported (s'.run g') = reported (s.run g) := by
  obtain ⟨hlast, hend, n, ht, ht'⟩ := exhaust_of_lockstep
    (R := fun t t' => Companions Eq g cost g' cost' a t t' ∧
      ∃ n, t = s.after g n ∧ t' = s'.after g' n)
    (fun {t t'} hboth => by
      obtain ⟨hboth, n, rfl, rfl⟩ := hboth
      obtain ⟨hlast, hnext⟩ := hboth.step_of_eq hsame hg hg' hcost
      exact ⟨hlast, hnext, n + 1, (s.after_succ n).symm, (s'.after_succ n).symm⟩) ⟨h, 0, rfl, rfl⟩
  have hways := hend.lockstep.ways_eq
  rw [ht, ht'] at hways
  obtain ⟨path, hpath⟩ := hs.path_after n hb
  have hpath' := (hs.path_eq hs' hb hb' hways).trans hpath
  rw [← ht] at hpath
  rw [← ht'] at hpath'
  rw [Search.reported_run hpath, Search.reported_run hpath', hlast]

end Search

namespace Overlay

open Search (Companions)

variable {V E κ : Type} [Cost κ] [LawfulCost κ] {g g' k k' : Graph V E}
  {o o₁ o' o₁' : Overlay V E κ} {a b : VertexId}

/-- A search depends on nothing but what can be walked to from its source. If a vertex that cannot be
walked to has been taken out of the graph, or an edge that leads on from no vertex that can, and the
edges that are left cost the same, both searches are refused for the same reason, or at every step
they come to the same, with the same hops, the same edges in the frontier and the same way to the
destination. Both report the same in the end. -/
theorem search_pruned (hk : g.bare = k.bare) (hk' : g'.bare = k'.bare)
    (hpruned : Relation.ReflTransGen (Graph.Prunes a b) k k') (h : g.Hosts o) (h' : g'.Hosts o')
    (ho : o.beginRun g = .ok o₁) (ho' : o'.beginRun g' = .ok o₁')
    (hcost : ∀ e, g'.edges.contains e = true → o₁'.cost g' e = o₁.cost g e)
    (ha : g.vertices.contains a = true) (hb : g.vertices.contains b = true)
    (config : SearchConfig) :
    ((∃ failure, Search.start o g a b config = .error (failure, o) ∧
        Search.start o' g' a b config = .error (failure, o')) ∨
      ∃ s s', Search.start o g a b config = .ok s ∧ Search.start o' g' a b config = .ok s' ∧
        ∀ n, ((s'.after g' n).step g').1 = ((s.after g n).step g).1 ∧
          (∀ v, (s'.after g' n).overlay.hop? g' v = (s.after g n).overlay.hop? g v) ∧
          (∀ e, (s'.after g' n).overlay.state g' e = (s.after g n).overlay.state g e) ∧
          (s'.after g' n).frontier = (s.after g n).frontier ∧
          (s'.after g' n).path g' = (s.after g n).path g) ∧
    reported (o'.search g' a b config) = reported (o.search g a b config) := by
  obtain ⟨⟨es, hg⟩, hsound⟩ := h.sound
  obtain ⟨⟨es', hg'⟩, hsound'⟩ := h'.sound
  have hgk : g.SameFrom k a := .of_bare hk.symm a
  obtain ⟨_, hkk', hkeeps⟩ := Graph.Prunes.sameFrom_of_all hpruned (Graph.mirrors_of_bare hk.symm hg)
  have hsame : g.SameFrom g' a := (hgk.trans hkk').trans (.of_bare hk' a)
  have ha' : g'.vertices.contains a = true := (hsame.contains .start).trans ha
  have hb' : g'.vertices.contains b = true := by
    rw [Graph.contains_vertices_of_bare hk', hkeeps, Graph.contains_vertices_of_bare hk.symm, hb]
  by_cases hne : a = b
  · subst hne
    have hs : Search.start o g a a config = .error (.sameEndpoints a, o) := by
      rw [Search.start, Search.refusal?_self hsound.fits ha]
    have hs' : Search.start o' g' a a config = .error (.sameEndpoints a, o') := by
      rw [Search.start, Search.refusal?_self hsound'.fits ha']
    refine ⟨Or.inl ⟨_, hs, hs'⟩, ?_⟩
    rw [search, search, hs, hs']
    rfl
  · obtain ⟨hs, hbegun⟩ := Search.start_of_hosts h config ha hb hne ho
    obtain ⟨hs', hbegun'⟩ := Search.start_of_hosts h' config ha' hb' hne ho'
    obtain ⟨hl, _, hblank, _⟩ := hsound.beginRun_eq_ok ho
    obtain ⟨hl', _, hblank', _⟩ := hsound'.beginRun_eq_ok ho'
    have hcosts {v b e path} (hw : g.Walk a v path) (he : g.leads v b e = true) :
        o₁'.cost g' e = o₁.cost g e :=
      hcost e (Graph.contains_of_leads
        ((Graph.leads_of_declaration? (hsame.declaration hw he) v b).trans he))
    have hboth := Companions.begun hsame hg hg' (hl.fits hsound.fits) (hl'.fits hsound'.fits)
      hblank hblank' ha b config (Chart.expand_sameFrom hsame hg hcosts .start _).symm
    refine ⟨Or.inr ⟨_, _, hs, hs', fun n => ?_⟩, ?_⟩
    · have hn := Search.after_of_lockstep (fun h => h.step_of_eq hsame hg hg' hcosts) hboth n
      exact ⟨(hn.step_of_eq hsame hg hg' hcosts).1, congrFun hn.lockstep.ways_eq,
        congrFun hn.lockstep.states_eq, hn.lockstep.frontier_eq,
        hbegun.path_eq hbegun' hb hb' hn.lockstep.ways_eq⟩
    · rw [search, search, hs, hs']
      exact hboth.reported_run hsame hg hg' hcosts hbegun hbegun' hb hb'

end Overlay

/-- Two roads one after the other, with a third that comes in where they meet. -/
def Search.spur (edits : List (Request Unit Float Float)) : Workspace Unit Float Float :=
  (.addVertices [(), (), (), ()] :: .link ⟨3, 0⟩ ⟨1, 0⟩ .directed 1 ::
    .link ⟨0, 0⟩ ⟨1, 0⟩ .directed 1 :: .link ⟨1, 0⟩ ⟨2, 0⟩ .directed 1 :: edits).foldl
    Workspace.obey {}

/-- When the road that comes in is taken away with the vertex at its far end, the others are walked
as before. -/
theorem Overlay.search_pruned_spur : ∃ (g g' : Graph Unit Float) (o o' : Overlay Unit Float Float),
    g.Hosts o ∧ g'.Hosts o' ∧ g.vertices.contains ⟨3, 0⟩ = true ∧
    g'.vertices.contains ⟨3, 0⟩ = false ∧
    reported (o.search g ⟨0, 0⟩ ⟨2, 0⟩ {}) = .ok ⟨[⟨⟨0, 0⟩, ⟨1, 0⟩, 1⟩, ⟨⟨1, 0⟩, ⟨2, 0⟩, 2⟩]⟩ ∧
    reported (o'.search g' ⟨0, 0⟩ ⟨2, 0⟩ {}) = reported (o.search g ⟨0, 0⟩ ⟨2, 0⟩ {}) := by
  let gone : Request Unit Float Float := .removeVertex ⟨3, 0⟩ []
  have h : (Search.spur [.deed 0 (.mount .payload)]).graph.Hosts _ :=
    ⟨Search.spur [.deed 0 (.mount .payload)], ⟨_, rfl⟩, rfl, _, List.mem_cons_self, rfl⟩
  have h' : (Search.spur [gone, .deed 0 (.mount .payload)]).graph.Hosts _ :=
    ⟨Search.spur [gone, .deed 0 (.mount .payload)], ⟨_, rfl⟩, rfl, _, List.mem_cons_self, rfl⟩
  have hpruned : Graph.Prunes ⟨0, 0⟩ ⟨2, 0⟩ (Search.spur []).graph (Search.spur [gone]).graph := by
    refine .vertex (show (Search.spur []).graph.removeVertexBy [] ⟨3, 0⟩ =
      .ok ((), (Search.spur [gone]).graph) from rfl) (by decide) ?_
    exact Graph.not_walk_of_heads (by decide) (by decide +kernel)
  have hk : (Search.spur [.deed 0 (.mount .payload)]).graph.bare = (Search.spur []).graph.bare :=
    (Graph.redecorated_mount (show (Search.spur []).graph.mount .payload =
      (.ok _, (Search.spur [.deed 0 (.mount .payload)]).graph) from rfl)).bare_eq
  have hk' : (Search.spur [gone, .deed 0 (.mount .payload)]).graph.bare =
      (Search.spur [gone]).graph.bare :=
    (Graph.redecorated_mount (show (Search.spur [gone]).graph.mount .payload =
      (.ok _, (Search.spur [gone, .deed 0 (.mount .payload)]).graph) from rfl)).bare_eq
  have hall := Overlay.search_pruned hk hk' (.single hpruned) h h' rfl rfl (by
    simp only [← Arena.mem_ids]
    decide +kernel) (by decide) (by decide) {}
  exact ⟨_, _, _, _, h, h', by decide, by decide, by decide +kernel, hall.2⟩

end Waymark
