import Waymark.Proofs.Search.Settling

namespace Waymark

/-- Edges are counted by having each cost one. -/
instance : Cost Nat where
  zero := 0
  add := Nat.add
  le := Nat.le
  decidableLe := Nat.decLe
  admissible _ := true

instance : LawfulCost Nat where
  zero_le_zero := Nat.le_refl 0
  le_trans := Nat.le_trans
  le_total _ _ := Nat.le_total _ _
  add_le_add_right _ _ h := Nat.add_le_add_right h _
  le_add_right _ _ := Nat.le_add_right _ _
  nonneg_of_admissible _ := Nat.zero_le _

theorem accumulate_one (es : List EdgeId) : accumulate (fun _ => 1) es = es.length := by
  induction es using List.reverseRecOn with
  | nil => rfl
  | append_singleton es e ih =>
    rw [accumulate_append, ih, List.length_append, List.length_singleton]

namespace Ways

variable {w : Ways Nat} {source a b : VertexId} {e : EdgeId} {total : Nat}

/-- Each vertex is one level above the one it was reached from. -/
def Stacked (w : Ways Nat) (source : VertexId) : Prop :=
  ∀ v hop, w v = some hop →
    ∃ total, w.total? source hop.origin = some total ∧ hop.cost = total + 1

theorem Stacked.reach (h : w.Stacked source) (hb : b ≠ source) (hnew : w.total? source b = none)
    (ha : w.total? source a = some total) : (w.reach b ⟨a, e, total + 1⟩).Stacked source := by
  intro v hop hv
  obtain ⟨rfl, rfl⟩ | ⟨_, hv⟩ := reach_cases hv
  · exact ⟨total, total?_reach_kept ha hnew _, rfl⟩
  · obtain ⟨n, horigin, hcost⟩ := h v hop hv
    exact ⟨n, total?_reach_kept horigin hnew _, hcost⟩

end Ways

namespace Chart

variable {V E : Type} {g : Graph V E} {source v : VertexId} {t : Chart Nat} {m base : Nat}
  {es : List EdgeId}

/-- The keys that wait are `m` or one more, and only vertices reached at `m` have edges that were
not seen. -/
structure Level (g : Graph V E) (source : VertexId) (m : Nat) (t : Chart Nat) : Prop where
  keys : ∀ r ∈ t.frontier.queue, m ≤ r.key ∧ r.key ≤ m + 1
  newest : ∀ {v b e total}, t.ways.total? source v = some total → g.leads v b e = true →
    t.states e = .unexplored → total = m

namespace Level

theorem blank (g : Graph V E) (source : VertexId) : (blank .costOrdered).Level g source 0 where
  keys r hr := by cases hr
  newest hv _ _ := (Settled.total?_blank hv).2

/-- An edge that is seen now waits behind all others. -/
theorem le_key (h : t.Level g source m) (hv : t.ways.total? source v = some base) {b : VertexId}
    {e : EdgeId} (he : g.leads v b e = true) (hu : t.states e = .unexplored) :
    ∀ r ∈ t.frontier.queue, r.key ≤ base + 1 := by
  intro r hr
  rw [h.newest hv he hu]
  exact (h.keys r hr).2

theorem discover (h : t.Level g source m) (hv : t.ways.total? source v = some base) {b : VertexId}
    {e : EdgeId} (he : g.leads v b e = true) : (t.discover base e 1).Level g source m := by
  rw [Chart.discover]
  split
  · rename_i hu
    have hm := h.newest hv he hu
    constructor
    · intro r hr
      obtain rfl | hr := Frontier.mem_push.mp hr
      · constructor
        · show m ≤ base + 1
          omega
        · show base + 1 ≤ m + 1
          omega
      · exact h.keys r hr
    · intro u c d total hu hl hd
      change Function.update t.states e .discovered d = .unexplored at hd
      have hde : d ≠ e := by
        intro heq
        rw [heq, Function.update_self] at hd
        cases hd
      rw [Function.update_of_ne hde] at hd
      exact h.newest hu hl hd
  · exact h

theorem discoverAll (h : t.Level g source m) (hv : t.ways.total? source v = some base)
    (l : List EdgeId) (hl : ∀ e ∈ l, ∃ b, g.leads v b e = true) :
    (t.discoverAll base (fun _ => 1) l).Level g source m := by
  induction l generalizing t with
  | nil => exact h
  | cons e l ih =>
    obtain ⟨b, hb⟩ := hl e (.head l)
    refine ih (h.discover hv hb) ?_ fun d hd => hl d (.tail e hd)
    rw [ways_discover]
    exact hv

theorem expand (h : t.Level g source m) (hg : g.Mirrors es)
    (hv : t.ways.total? source v ≠ none) :
    (t.expand g (fun _ => 1) source v).Level g source m := by
  obtain ⟨base, hv⟩ := Option.ne_none_iff_exists'.mp hv
  rw [Chart.expand]
  cases hx : g.vertices.get? v with
  | none => exact h
  | some x =>
    dsimp only
    rw [hv]
    exact h.discoverAll hv x.outgoing.edges fun e he => (hg.mem_outgoing hx).mp he

theorem expandEnds (h : t.Level g source m) (hg : g.Mirrors es) {e : EdgeId} {edge : Edge E}
    (hedge : g.edges.get? e = some edge)
    (hends : ∀ a b, g.leads a b e = true → t.ways.total? source b ≠ none) :
    (t.expandEnds g (fun _ => 1) source edge).Level g source m := by
  have he := Graph.leads_forth hedge
  have hhead := h.expand hg (hends _ _ he)
  unfold Chart.expandEnds
  dsimp only
  split
  · rename_i hboth
    have he' := Graph.leads_back hedge hboth
    refine hhead.expand hg ?_
    rw [ways_expand]
    exact hends _ _ he'
  · exact hhead

theorem mark (h : t.Level g source m) (e : EdgeId) {state : EdgeState}
    (hs : state ≠ .unexplored) : (t.mark e state).Level g source m := by
  refine ⟨h.keys, fun {v b d total} hv hl hd => h.newest hv hl ?_⟩
  change Function.update t.states e state d = .unexplored at hd
  have hde : d ≠ e := by
    intro heq
    rw [heq, Function.update_self] at hd
    exact hs hd
  rw [Function.update_of_ne hde] at hd
  exact hd

/-- When the next edge is walked its key becomes the level. -/
theorem relaxEnds (h : t.Level g source m)
    (hs : t.Settled g (fun _ => 1) source (fun _ => False) (fun _ => False)) (hg : g.Mirrors es)
    {q : Queued Nat} {rest : List (Queued Nat)} (hq : t.frontier.queue = q :: rest)
    {edge : Edge E} (hedge : g.edges.get? q.edge = some edge) :
    ((t.popped rest).relaxEnds source edge 1).Level g source q.key := by
  have hsorted := hs.sorted
  rw [hq] at hsorted
  constructor
  · intro r hr
    have hle : q.key ≤ r.key := (List.pairwise_cons.mp hsorted).1 r hr
    have hfirst := (h.keys q (by simp [hq])).1
    have hlast := (h.keys r (by rw [hq]; exact .tail q hr)).2
    omega
  · intro v b e total hv hl hu
    have hnew : t.ways.total? source v = none := by
      by_contra hreached
      exact (hs.seen hreached hl).resolve_left id hu
    change (t.ways.relaxEnds source edge 1).total? source v = some total at hv
    obtain hw | ⟨a, c, _, _, _, _, hc, _, hw⟩ :=
      hs.ways_relaxEnds hg (fun _ => Nat.zero_le _) hq hedge
    · rw [hw, hnew] at hv
      cases hv
    · rw [hw] at hv
      by_cases hvc : v = c
      · rw [hvc, Ways.total?_reach_self _ hc] at hv
        cases hv
        rfl
      · rw [Ways.total?_reach_of_ne _ hvc, hnew] at hv
        cases hv

end Level

/-- The invariant of exploring edges that are counted: what waits spans two levels at most. -/
structure Layered (g : Graph V E) (source : VertexId) (t : Chart Nat) : Prop where
  settled : t.Settled g (fun _ => 1) source (fun _ => False) (fun _ => False)
  level : ∃ m, t.Level g source m
  stacked : t.ways.Stacked source

namespace Layered

theorem begun (hg : g.Mirrors es) (source : VertexId) :
    ((blank .costOrdered).expand g (fun _ => 1) source source).Layered g source := by
  have hreached := (blank .costOrdered : Chart Nat).ways.source_reached source
  refine ⟨.begun hg (fun _ => Nat.zero_le _) source,
    ⟨0, (Level.blank g source).expand hg hreached⟩, ?_⟩
  intro v hop hv
  rw [ways_expand] at hv
  cases hv

/-- Exploring the next edge keeps a chart layered. -/
theorem explore (h : t.Layered g source) (hg : g.Mirrors es) {q : Queued Nat}
    {rest : List (Queued Nat)} (hq : t.frontier.queue = q :: rest) :
    ((t.popped rest).explore g (fun _ => 1) source q.edge).Layered g source := by
  have hc : ∀ e : EdgeId, 0 ≤ (fun _ => 1 : EdgeId → Nat) e := fun _ => Nat.zero_le _
  obtain ⟨edge, hedge⟩ := Arena.contains_iff.mp (h.settled.live hq)
  obtain ⟨m, hm⟩ := h.level
  refine ⟨h.settled.explore hg hc hq, ⟨q.key, ?_⟩, ?_⟩
  · have hrelaxed := hm.relaxEnds h.settled hg hq hedge
    obtain ⟨_, hends⟩ := h.settled.relaxEnds hg hc hq hedge
    rw [Chart.explore, hedge]
    exact (hrelaxed.expandEnds hg hedge hends).mark _ (by decide)
  · have hways : ((t.popped rest).explore g (fun _ => 1) source q.edge).ways =
        t.ways.relaxEnds source edge 1 := ways_explore _ g _ source hedge
    rw [hways]
    obtain hw | ⟨a, b, total, _, ha, hkey, hb, hnew, hw⟩ :=
      h.settled.ways_relaxEnds hg hc hq hedge
    · rw [hw]
      exact h.stacked
    · rw [hw, hkey]
      exact h.stacked.reach hb hnew ha

end Layered

end Chart

end Waymark
