import Waymark.Proofs.Search.Settling
import Waymark.Proofs.Search.Trail

namespace Waymark

namespace Search

variable {V E κ : Type} [Cost κ] {g : Graph V E} {cost : EdgeId → κ} {source : VertexId}
  {s s' : Search V E κ}

/-- What holds of a search by the order of keys at every step. Once it has come to its end there is
no walk to a destination that it did not reach. -/
structure Exact (g : Graph V E) (cost : EdgeId → κ) (source : VertexId) (s : Search V E κ) :
    Prop where
  surveys : Surveys g cost source s
  least : (s.overlay.ways g).Least g cost source
  settled : s.finished = false →
    (s.chart g).Settled g cost source (fun _ => False) (fun _ => False)
  ended : s.finished = true → (s.overlay.ways g).total? source s.destination = none →
    ∀ es, ¬ g.Walk source s.destination es

variable [LawfulCost κ] {es : List EdgeId}

theorem Exact.step (h : Exact g cost source s) (hg : g.Mirrors es) (hc : ∀ e, 0 ≤ cost e) :
    Exact g cost source (s.step g).2 := by
  have ho := h.surveys.follows s.follows_step
  have hstep := s.stepped g
  generalize s.step g = r at hstep ho
  cases hstep with
  | idle => exact h
  | atLimit => exact h
  | dry hf hq =>
    refine ⟨ho, h.least, fun hf => (by cases hf), fun _ hnone es hw => ?_⟩
    obtain ⟨q, hmem, _⟩ := (h.settled hf).exists_waiting hc hw hnone
    change q ∈ s.frontier.queue at hmem
    rw [hq] at hmem
    cases hmem
  | @beaten q rest hf hq hb =>
    refine ⟨ho, h.least, fun hf => (by cases hf), fun _ hnone => ?_⟩
    -- The search is cut short only once the destination has a hop.
    by_cases hd : s.destination = source
    · rw [hd, Ways.total?_source] at hnone
      cases hnone
    · rw [Ways.total?_of_ne _ hd] at hnone
      have hhop : (s.overlay.hop? g s.destination).map Hop.cost = none := hnone
      simp [Search.beaten, hhop] at hb
  | @explored q rest hf hq _ =>
    have hsettled := h.settled hf
    have hexplored := hsettled.explore hg hc hq
    rw [← h.surveys.chart_explore hg rest (hsettled.live hq)] at hexplored
    refine ⟨ho, hexplored.least, fun _ => hexplored, fun hfinished => ?_⟩
    rw [(works_explore _ q.edge).finished] at hfinished
    change s.finished = true at hfinished
    rw [hf] at hfinished
    cases hfinished

theorem Exact.after (h : Exact g cost source s) (hg : g.Mirrors es) (hc : ∀ e, 0 ≤ cost e)
    (n : Nat) : Exact g cost source (s.after g n) := by
  induction n with
  | zero => exact h
  | succ n ih =>
    rw [after_succ]
    exact ih.step hg hc

/-- A vertex that has been reached is not reached anew. -/
theorem Exact.reached_step (h : Exact g cost source s) (hg : g.Mirrors es)
    (hc : ∀ e, 0 ≤ cost e) {v : VertexId} {total : κ}
    (hv : (s.overlay.ways g).total? source v = some total) :
    ((s.step g).2.overlay.ways g).total? source v = some total := by
  have hstep := s.stepped g
  generalize s.step g = r at hstep
  cases hstep with
  | idle => exact hv
  | atLimit => exact hv
  | dry => exact hv
  | beaten => exact hv
  | @explored q rest hf hq _ =>
    have hsettled := h.settled hf
    have hreached : (s.chart g).ways.total? source v ≠ none := by
      rw [show (s.chart g).ways.total? source v = some total from hv]
      simp
    have hkept := hsettled.kept_explore hg hc hq hreached
    rw [← h.surveys.chart_explore hg rest (hsettled.live hq)] at hkept
    change ((s.popped rest).explore g q.edge).overlay.ways g v = s.overlay.ways g v at hkept
    rw [Ways.total?, hkept]
    exact hv

theorem Exact.reached_after (h : Exact g cost source s) (hg : g.Mirrors es)
    (hc : ∀ e, 0 ≤ cost e) {v : VertexId} {total : κ}
    (hv : (s.overlay.ways g).total? source v = some total) (n : Nat) :
    ((s.after g n).overlay.ways g).total? source v = some total := by
  induction n with
  | zero => exact hv
  | succ n ih =>
    rw [after_succ]
    exact (h.after hg hc n).reached_step hg hc ih

/-- A search that begins has its source opened and closed. -/
theorem exact_start {o : Overlay V E κ} (hg : g.Mirrors es) (hf : o.Fits g) (hp : o.Priced)
    (hblank : o.Blank) {a : VertexId} (ha : g.vertices.contains a = true) (b : VertexId)
    {config : SearchConfig} (hk : config.frontier = .costOrdered) :
    Exact g (o.cost g) a ((fresh o g a b config).expand g a) := by
  have hsurveys := Surveys.fresh (g := g) hf a b config
  have hworks := (fresh o g a b config).works_expand (g := g) a
  have hsettled := Chart.Settled.begun hg (hp.cost_nonneg (g := g)) a
  rw [← hk, ← chart_fresh hf hblank ha b config, ← hsurveys.chart_expand hg] at hsettled
  refine ⟨hsurveys.follows hworks.toFollows, hsettled.least, fun _ => hsettled, fun hfinished => ?_⟩
  rw [hworks.finished] at hfinished
  cases hfinished

omit [LawfulCost κ] in
/-- Without a limit a search comes to its end. -/
theorem exhaust_unlimited (hl : s.maxExpansions? = none) :
    ∃ n, s.exhaust g = (.finished, s.after g n) ∧ (s.after g n).finished = true := by
  obtain ⟨n, hn, hlast⟩ := s.exhaust_eq_after (g := g)
  refine ⟨n + 1, ?_⟩
  rw [hn, after_succ]
  have hlimit := (s.follows_after (g := g) n).limit
  rw [hl] at hlimit
  generalize s.after g n = s' at hlast hlimit
  have hstep := s'.stepped g
  generalize s'.step g = r at hstep hlast
  cases hstep with
  | idle hf => exact ⟨rfl, hf⟩
  | atLimit _ hreached =>
    rw [limitReached?, hlimit] at hreached
    cases hreached
  | dry => exact ⟨rfl, rfl⟩
  | beaten => exact ⟨rfl, rfl⟩
  | @explored q _ _ _ _ => exact (hlast q.edge rfl).elim

omit [LawfulCost κ] in
theorem run_of_exhaust {n : Nat} (hn : s.exhaust g = (.finished, s.after g n)) {path : Path κ}
    (hp : (s.after g n).overlay.pathTo g (s.after g n).destination = .ok path) :
    s.run g = .ok (path, (s.after g n).overlay) := by
  rw [run_eq_conclude, hn]
  exact conclude_of_finished hp

/-- A search that begins without a limit comes to its end and gives the way to its destination. -/
theorem Begun.search_ends {o : Overlay V E κ} {a b : VertexId} {config : SearchConfig}
    (h : Begun g a b s) (hs : start o g a b config = .ok s) (hl : s.maxExpansions? = none)
    (hb : g.vertices.contains b = true) :
    ∃ n path, s.exhaust g = (.finished, s.after g n) ∧ (s.after g n).finished = true ∧
      o.search g a b config = .ok (path, (s.after g n).overlay) ∧
      (((s.after g n).overlay.ways g b = none ∧ path = {}) ∨
        ∃ hop, (s.after g n).overlay.ways g b = some hop ∧ b ≠ a ∧
          ((s.after g n).overlay.ways g).Traced a b path.hops) := by
  obtain ⟨n, hn, hfinished⟩ := exhaust_unlimited (g := g) hl
  obtain ⟨path, hpath, hcases⟩ := h.pathTo n hb
  rw [← h.destination_after n] at hpath
  have hrun := run_of_exhaust hn hpath
  refine ⟨n, path, hn, hfinished, ?_, hcases⟩
  rw [Overlay.search]
  rw [hs]
  exact hrun

end Search

/-- A search by the order of keys, without a limit, finds a cheapest way, or none if there is none.
At every step what has been reached has been reached at the least cost. -/
theorem Overlay.search_least_cost {V E κ : Type} [Cost κ] [LawfulCost κ] {g : Graph V E}
    {o o₁ : Overlay V E κ} (h : g.Hosts o) {config : SearchConfig}
    (hk : config.frontier = .costOrdered) (hm : config.maxExpansions? = none) {a b : VertexId}
    (ha : g.vertices.contains a = true) (hb : g.vertices.contains b = true) (hne : a ≠ b)
    (ho : o.beginRun g = .ok o₁) :
    (∃ path o₂, o.search g a b config = .ok (path, o₂) ∧
      (path.isEmpty = true ↔ ∀ es, ¬ g.Walk a b es) ∧
      ((∃ es, g.Walk a b es) → g.LeastCost (o₁.cost g) a b path.cost)) ∧
    ∃ s, Search.start o g a b config = .ok s ∧ ∀ n v hop,
      (s.after g n).overlay.hop? g v = some hop → g.LeastCost (o₁.cost g) a v hop.cost := by
  obtain ⟨hstart, hbegun⟩ := Search.start_of_hosts h config ha hb hne ho
  obtain ⟨es, hg⟩ := hbegun.mirrors
  obtain ⟨hl, hp, hblank, _⟩ := h.sound.2.beginRun_eq_ok ho
  have hc := hp.cost_nonneg (g := g)
  have hexact := Search.exact_start hg (hl.fits h.sound.2.fits) hp hblank ha b hk
  have hlimit := ((Search.fresh o₁ g a b config).works_expand (g := g) a).limit.trans hm
  generalize (Search.fresh o₁ g a b config).expand g a = s at *
  constructor
  · obtain ⟨n, path, _, hfinished, hrun, hcases⟩ := hbegun.search_ends hstart hlimit hb
    have hend := hexact.after hg hc n
    refine ⟨path, _, hrun, ?_⟩
    obtain ⟨hnone, rfl⟩ | ⟨hop, hhop, _, htrace⟩ := hcases
    · have htotal : ((s.after g n).overlay.ways g).total? a b = none := by
        rw [Ways.total?_of_ne _ hne.symm, hnone]
        rfl
      have hnowalk : ∀ es, ¬ g.Walk a b es := by
        have hended := hend.ended hfinished
        rw [hbegun.destination_after] at hended
        exact hended htotal
      refine ⟨⟨fun _ => hnowalk, fun _ => rfl⟩, fun hwalk => ?_⟩
      obtain ⟨es, hw⟩ := hwalk
      exact (hnowalk es hw).elim
    · have hlast : path.hops.getLast? = some hop := (htrace.getLast? hne.symm).trans hhop
      have hcost : path.cost = hop.cost := by
        rw [Path.cost]
        rw [hlast]
        rfl
      have hleast := hend.least b hop.cost ((hbegun.tree n).total?_eq hhop)
      refine ⟨⟨fun hempty => ?_, fun hnowalk => ?_⟩, fun _ => ?_⟩
      · rw [Path.isEmpty, List.isEmpty_iff] at hempty
        rw [hempty] at hlast
        cases hlast
      · obtain ⟨es, hw, _⟩ := hleast.attained
        exact (hnowalk es hw).elim
      · rw [hcost]
        exact hleast
  · refine ⟨s, hstart, fun n v hop hhop => ?_⟩
    exact (hexact.after hg hc n).least v hop.cost ((hbegun.tree n).total?_eq hhop)

/-- On a detour the way with more edges is the cheaper one, and it is found. -/
theorem Overlay.search_least_cost_detour : ∃ (g : Graph Unit Float)
    (o o₁ o₂ : Overlay Unit Float Float) (path : Path Float), g.Hosts o ∧ o.beginRun g = .ok o₁ ∧
    o.search g ⟨0, 0⟩ ⟨4, 0⟩ { frontier := .costOrdered } = .ok (path, o₂) ∧
    g.LeastCost (o₁.cost g) ⟨0, 0⟩ ⟨4, 0⟩ path.cost ∧ path.cost ≤ 4 := by
  have h : Search.detour.graph.Hosts _ :=
    ⟨Search.detour, ⟨_, rfl⟩, rfl, _, List.mem_cons_self, rfl⟩
  obtain ⟨⟨path, o₂, hsearch, _, hleast⟩, _⟩ := Overlay.search_least_cost (a := ⟨0, 0⟩)
    (b := ⟨4, 0⟩) h
    (show SearchConfig.frontier { frontier := .costOrdered } = .costOrdered from rfl)
    rfl (by decide) (by decide) (by decide) rfl
  have hwalk : Search.detour.graph.Walk ⟨0, 0⟩ ⟨4, 0⟩
      ([] ++ [⟨1, 0⟩] ++ [⟨2, 0⟩] ++ [⟨3, 0⟩] ++ [⟨4, 0⟩]) :=
    (((Graph.Walk.start.along (b := ⟨0, 0⟩) (c := ⟨2, 0⟩) (by decide)).along (c := ⟨3, 0⟩)
      (by decide)).along (c := ⟨1, 0⟩) (by decide)).along (by decide)
  have hcost := hleast ⟨_, hwalk⟩
  refine ⟨_, _, _, o₂, path, h, rfl, hsearch, hcost, ?_⟩
  exact LawfulCost.le_trans (hcost.least _ hwalk) (by decide +kernel)

end Waymark
