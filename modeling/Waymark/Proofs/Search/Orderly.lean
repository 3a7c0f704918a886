import Waymark.Proofs.Search.Halting
import Waymark.Proofs.Search.Spread

namespace Waymark

namespace Ways

variable {V E κ : Type} [Cost κ] {w : Ways κ} {g : Graph V E} {cost : EdgeId → κ} {price : κ}
  {source a b : VertexId} {e : EdgeId} {edge : Edge E}

theorem improves_iff : w.improves source a b price = true ↔
    b ≠ source ∧ ∃ base, w.total? source a = some base ∧
      ∀ hop, w b = some hop → ¬ hop.cost ≤ base + price := by
  rw [improves]
  cases w.total? source a <;> cases w b <;> simp

theorem relax_of_not_improves (h : w.improves source a b price = false) (e : EdgeId) :
    w.relax source a b e price = w := by
  have hrelaxed := w.relaxed_relax source a b e price
  generalize w.relax source a b e price = w' at hrelaxed ⊢
  cases hrelaxed with
  | toSource => rfl
  | unreached => rfl
  | known => rfl
  | improved hb ha hlt =>
    rw [improves_iff.mpr ⟨hb, _, ha, hlt⟩] at h
    cases h

theorem relax_of_improves (h : w.improves source a b price = true) {total : κ}
    (ha : w.total? source a = some total) (e : EdgeId) :
    w.relax source a b e price = w.reach b ⟨a, e, total + price⟩ := by
  obtain ⟨hb, base, hbase, hlt⟩ := improves_iff.mp h
  rw [ha] at hbase
  cases hbase
  have hrelaxed := w.relaxed_relax source a b e price
  generalize w.relax source a b e price = w' at hrelaxed ⊢
  cases hrelaxed with
  | toSource hs => exact (hb hs).elim
  | unreached hnone =>
    rw [hnone] at ha
    cases ha
  | @known base hop ha' hwb hle =>
    rw [ha] at ha'
    cases ha'
    exact (hlt hop hwb hle).elim
  | @improved base _ ha' _ =>
    rw [ha] at ha'
    cases ha'
    rfl

/-- Among least costs only a new vertex is reached anew. -/
theorem Least.of_improves (h : w.Least g cost source) (he : g.leads a b e = true)
    (hi : w.improves source a b (cost e) = true) :
    w.total? source a ≠ none ∧ w.total? source b = none := by
  obtain ⟨hb, base, ha, hlt⟩ := improves_iff.mp hi
  refine ⟨by simp [ha], ?_⟩
  cases hhop : w b with
  | none =>
    rw [total?_of_ne _ hb, hhop]
    rfl
  | some hop =>
    have htotal : w.total? source b = some hop.cost := by
      rw [total?_of_ne _ hb, hhop]
      rfl
    exact (hlt hop hhop ((h b _ htotal).le_along (h a _ ha) he)).elim

/-- Walking the next edge writes at most once, and to a new vertex, which has been reached then. -/
theorem Settled.written [LawfulCost κ] {state : EdgeId → EdgeState} {q : Queued κ}
    {queue : List (Queued κ)} {es : List EdgeId}
    (h : Settled g cost source (fun _ => False) (fun _ => False) w state (q :: queue))
    (hg : g.Mirrors es) (hc : ∀ e, 0 ≤ cost e) (hedge : g.edges.get? q.edge = some edge) :
    (w.written source edge (cost q.edge)).Nodup ∧
      ∀ v ∈ w.written source edge (cost q.edge), w.total? source v = none ∧
        (w.relaxEnds source edge (cost q.edge)).total? source v ≠ none := by
  have he := Graph.leads_forth hedge
  have hforth := w.relaxed_relax source edge.tail edge.head q.edge (cost q.edge)
  have hleast := h.least_relaxed hc he hforth
  rw [Ways.written, Ways.relaxEnds, hg.edge_id hedge]
  have hback := (w.relax source edge.tail edge.head q.edge (cost q.edge)).relaxed_relax source
    edge.head edge.tail q.edge (cost q.edge)
  cases hi : w.improves source edge.tail edge.head (cost q.edge) with
  | true =>
    obtain ⟨ha, hb⟩ := h.least.of_improves he hi
    have hnone : (edge.isBidirectional && edge.tail ≠ source &&
        (w.relax source edge.tail edge.head q.edge (cost q.edge)).improves source edge.head
          edge.tail (cost q.edge)) = false := by
      refine Bool.eq_false_iff.mpr fun hboth => ?_
      simp only [Bool.and_eq_true] at hboth
      have he' := Graph.leads_back hedge hboth.1.1
      exact hforth.keeps ha (hleast.of_improves he' hboth.2).2
    rw [hnone]
    refine ⟨by simp, fun v hv => ?_⟩
    obtain rfl : v = edge.head := by simpa using hv
    have hhead := hforth.reaches ha
    refine ⟨hb, ?_⟩
    split
    · exact hback.keeps hhead
    · exact hhead
  | false =>
    have hsame := relax_of_not_improves hi q.edge
    rw [hsame] at hback ⊢
    cases hi' : edge.isBidirectional && edge.tail ≠ source &&
        w.improves source edge.head edge.tail (cost q.edge) with
    | false => simp
    | true =>
      obtain ⟨hboth, hi'⟩ := Bool.and_eq_true_iff.mp hi'
      have he' := Graph.leads_back hedge (Bool.and_eq_true_iff.mp hboth).1
      obtain ⟨ha, hb⟩ := h.least.of_improves he' hi'
      refine ⟨by simp, fun v hv => ?_⟩
      obtain rfl : v = edge.tail := by simpa using hv
      rw [if_pos hboth]
      exact ⟨hb, hback.reaches ha⟩

/-- Exploring an edge leaves a tree a tree. -/
theorem Tree.explored [LawfulCost κ] {w' : Ways κ} (h : w.Tree g cost source)
    (hc : ∀ e, 0 ≤ cost e) (hx : Search.Explored g source e (cost e) w w') :
    w'.Tree g cost source := by
  cases hx with
  | oneWay hedge _ hr => exact h.relaxed hc (Graph.leads_forth hedge) hr
  | bothWays hedge hboth _ hr hr' =>
    have hforth := h.relaxed hc (Graph.leads_forth hedge) hr
    exact hforth.relaxed hc (Graph.leads_back hedge hboth) hr'

end Ways

namespace Chart

variable {V E κ : Type} [Cost κ] [LawfulCost κ] {g : Graph V E} {cost : EdgeId → κ}
  {source v : VertexId} {c : Chart κ} {es : List EdgeId} {k : κ}

/-- No edge in the queue comes at a lower key. -/
def Floor (k : κ) (c : Chart κ) : Prop := ∀ q ∈ c.frontier.queue, k ≤ q.key

namespace Floor

omit [LawfulCost κ] in
theorem discover (h : c.Floor k) {base price : κ} (hk : k ≤ base + price) (e : EdgeId) :
    (c.discover base e price).Floor k := by
  rw [Chart.discover]
  split
  · intro r hr
    obtain rfl | hr := Frontier.mem_push.mp hr
    · exact hk
    · exact h r hr
  · exact h

theorem discoverAll (h : c.Floor k) (hc : ∀ e, 0 ≤ cost e) {base : κ} (hbase : 0 ≤ base)
    (hk : k ≤ base) (l : List EdgeId) : (c.discoverAll base cost l).Floor k := by
  induction l generalizing c with
  | nil => exact h
  | cons e l ih =>
    have hkey := LawfulCost.le_trans hk (LawfulCost.le_add_right hbase (hc e))
    exact ih (h.discover hkey e)

/-- The edges out of a vertex have been seen already, or their keys count from its cost. -/
theorem expand (h : c.Floor k) (hg : g.Mirrors es) (hc : ∀ e, 0 ≤ cost e) (hk : 0 ≤ k)
    (hv : (∀ b e, g.leads v b e = true → c.states e ≠ .unexplored) ∨
      ∃ base, c.ways.total? source v = some base ∧ k ≤ base) :
    (c.expand g cost source v).Floor k := by
  obtain hseen | ⟨base, htotal, hbase⟩ := hv
  · rw [expand_of_seen hg cost source hseen]
    exact h
  · rw [Chart.expand, htotal]
    split
    · exact h.discoverAll hc (LawfulCost.le_trans hk hbase) hbase _
    · exact h

theorem expandEnds (h : c.Floor k) (hg : g.Mirrors es) (hc : ∀ e, 0 ≤ cost e) (hk : 0 ≤ k)
    {e : EdgeId} {edge : Edge E} (hedge : g.edges.get? e = some edge)
    (hends : ∀ a v, g.leads a v e = true →
      (∀ b d, g.leads v b d = true → c.states d ≠ .unexplored) ∨
        ∃ base, c.ways.total? source v = some base ∧ k ≤ base) :
    (c.expandEnds g cost source edge).Floor k := by
  have hhead := h.expand hg hc hk (hends _ _ (Graph.leads_forth hedge))
  unfold Chart.expandEnds
  dsimp only
  split
  · refine hhead.expand hg hc hk ?_
    rw [ways_expand]
    refine (hends _ _ (Graph.leads_back hedge ‹_›)).imp_left fun hseen b d hl => ?_
    exact c.seen_expand g cost source _ (hseen b d hl)
  · exact hhead

end Floor

/-- Whatever waits after an edge has been explored comes at no lower key than that edge. -/
theorem Settled.floor_explore (h : c.Settled g cost source (fun _ => False) (fun _ => False))
    (hg : g.Mirrors es) (hc : ∀ e, 0 ≤ cost e) {q : Queued κ} {rest : List (Queued κ)}
    (hq : c.frontier.queue = q :: rest) :
    ((c.popped rest).explore g cost source q.edge).Floor q.key := by
  obtain ⟨edge, hedge⟩ := Arena.contains_iff.mp (h.live hq)
  have hsorted := h.sorted
  rw [hq] at hsorted
  have hrest : ((c.popped rest).relaxEnds source edge (cost q.edge)).Floor q.key :=
    (List.pairwise_cons.mp hsorted).1
  have hkey : 0 ≤ q.key := h.key_nonneg hc (by simp [hq])
  have hreached := (h.relaxEnds hg hc hq hedge).2
  have hold {v : VertexId} (hv : c.ways.total? source v ≠ none) :
      ∀ b d, g.leads v b d = true → c.states d ≠ .unexplored :=
    fun b d hl => (h.seen hv hl).resolve_left id
  rw [Chart.explore, hedge]
  refine hrest.expandEnds hg hc hkey hedge fun a v hl => ?_
  have hv := hreached a v hl
  show _ ∨ ∃ base, (c.ways.relaxEnds source edge (cost q.edge)).total? source v = _ ∧ _
  obtain hw | ⟨_, b, _, _, _, _, hne, _, hw⟩ := h.ways_relaxEnds hg hc hq hedge
  · rw [hw] at hv
    exact Or.inl (hold hv)
  · rw [hw] at hv ⊢
    by_cases hvb : v = b
    · rw [hvb, Ways.total?_reach_self _ hne]
      exact Or.inr ⟨_, rfl, LawfulCost.le_refl hkey⟩
    · rw [Ways.total?_reach_of_ne _ hvb] at hv
      exact Or.inl (hold hv)

end Chart

namespace Search

variable {V E κ : Type} [Cost κ] {g : Graph V E} {cost : EdgeId → κ} {source : VertexId}
  {halts : Search V E κ → Queued κ → Bool} {s : Search V E κ} {es : List EdgeId}
  {q : Queued κ} {rest : List (Queued κ)}

/-- A search by the order of keys and without a limit that has not come to its end. -/
structure Orderly (g : Graph V E) (cost : EdgeId → κ) (source : VertexId) (s : Search V E κ) :
    Prop where
  surveys : Surveys g cost source s
  tree : (s.overlay.ways g).Tree g cost source
  settled : (s.chart g).Settled g cost source (fun _ => False) (fun _ => False)
  underway : s.finished = false
  unlimited : s.maxExpansions? = none

variable [LawfulCost κ]

namespace Orderly

omit [LawfulCost κ] in
/-- What exploring the next edge does to the chart. -/
theorem chart_explore (h : Orderly g cost source s) (hg : g.Mirrors es)
    (hq : s.frontier.queue = q :: rest) :
    ((s.popped rest).explore g q.edge).chart g =
      ((s.chart g).popped rest).explore g cost source q.edge :=
  h.surveys.chart_explore hg rest (h.settled.live hq)

omit [LawfulCost κ] in
theorem unreached (h : Orderly g cost source s) : s.limitReached? = none :=
  limitReached?_eq_none h.unlimited

theorem explore (h : Orderly g cost source s) (hg : g.Mirrors es) (hc : ∀ e, 0 ≤ cost e)
    (hq : s.frontier.queue = q :: rest) :
    Orderly g cost source ((s.popped rest).explore g q.edge) := by
  have hpopped : Surveys g cost source (s.popped rest) :=
    ⟨h.surveys.fits, h.surveys.cost_eq, h.surveys.source_eq⟩
  have hworks := (s.popped rest).works_explore (g := g) q.edge
  have hx := ways_explore hg hpopped.fits (h.settled.live hq)
  rw [hpopped.source_eq, hpopped.cost_eq] at hx
  refine ⟨hpopped.follows hworks.toFollows, h.tree.explored hc hx, ?_,
    hworks.finished.trans h.underway, hworks.limit.trans h.unlimited⟩
  rw [h.chart_explore hg hq]
  exact h.settled.explore hg hc hq

/-- No hop is taken back. -/
theorem kept_explore (h : Orderly g cost source s) (hg : g.Mirrors es) (hc : ∀ e, 0 ≤ cost e)
    (hq : s.frontier.queue = q :: rest) {v : VertexId} {hop : Hop κ}
    (hv : s.overlay.ways g v = some hop) :
    ((s.popped rest).explore g q.edge).overlay.ways g v = some hop := by
  have hkept := h.settled.kept_explore hg hc hq ((s.overlay.ways g).reached_of_hop source hv)
  rw [← h.chart_explore hg hq] at hkept
  exact hkept.trans hv

/-- The steps of a search bring it to its end. -/
theorem induct {P : Search V E κ → Prop} (h : Orderly g cost source s) (hg : g.Mirrors es)
    (hc : ∀ e, 0 ≤ cost e)
    (dry : ∀ {s}, Orderly g cost source s → s.frontier.queue = [] → P s)
    (waiting : ∀ {s q rest}, Orderly g cost source s → s.frontier.queue = q :: rest →
      P ((s.popped rest).explore g q.edge) → P s) : P s := by
  induction hn : s.remaining using Nat.strong_induction_on generalizing s with
  | _ n ih =>
    cases hq : s.frontier.queue with
    | nil => exact dry h hq
    | cons q rest =>
      have hstep : s.stepUnless (fun _ _ => false) g =
          (.expanded q.edge, (s.popped rest).explore g q.edge) :=
        stepUnless_of_waiting h.underway h.unreached hq rfl
      have hless := remaining_lt_of_stepUnless hstep
      rw [hn] at hless
      exact waiting h hq (ih _ hless (h.explore hg hc hq) rfl)

/-- The keys of the edges taken from the frontier never decrease. -/
theorem sorted_pops (h : Orderly g cost source s) (hg : g.Mirrors es) (hc : ∀ e, 0 ≤ cost e) :
    Frontier.Sorted (s.pops halts g) ∧
      ∀ k, (s.chart g).Floor k → ∀ q ∈ s.pops halts g, k ≤ q.key := by
  refine h.induct (P := fun s => Frontier.Sorted (s.pops halts g) ∧
    ∀ k, (s.chart g).Floor k → ∀ q ∈ s.pops halts g, k ≤ q.key) hg hc ?_ ?_
  · intro s h hq
    rw [pops_of_dry h.underway h.unreached hq]
    exact ⟨List.Pairwise.nil, fun k _ q hmem => by cases hmem⟩
  · intro s q rest h hq ih
    have hfront (k : κ) (hk : (s.chart g).Floor k) : k ≤ q.key := by
      refine hk q ?_
      show q ∈ s.frontier.queue
      rw [hq]
      exact .head rest
    cases hh : halts s q with
    | true =>
      rw [pops_of_halted h.underway h.unreached hq hh]
      refine ⟨List.pairwise_singleton _ q, fun k hk r hr => ?_⟩
      rw [List.mem_singleton.mp hr]
      exact hfront k hk
    | false =>
      have hfloor := h.settled.floor_explore hg hc hq
      rw [← h.chart_explore hg hq] at hfloor
      have hlater := ih.2 q.key hfloor
      rw [pops_of_waiting h.underway h.unreached hq hh]
      refine ⟨List.pairwise_cons.mpr ⟨hlater, ih.1⟩, fun k hk r hr => ?_⟩
      obtain rfl | hr := List.mem_cons.mp hr
      · exact hfront k hk
      · exact LawfulCost.le_trans (hfront k hk) (hlater r hr)

/-- No mark of a vertex is written to twice. -/
theorem nodup_writes (h : Orderly g cost source s) (hg : g.Mirrors es) (hc : ∀ e, 0 ≤ cost e) :
    (s.writes halts g).Nodup ∧
      ∀ v ∈ s.writes halts g, (s.overlay.ways g).total? source v = none := by
  refine h.induct (P := fun s => (s.writes halts g).Nodup ∧
    ∀ v ∈ s.writes halts g, (s.overlay.ways g).total? source v = none) hg hc ?_ ?_
  · intro s h hq
    simp [writes_of_dry h.underway h.unreached hq]
  · intro s q rest h hq ih
    cases hh : halts s q with
    | true => simp [writes_of_halted h.underway h.unreached hq hh]
    | false =>
      obtain ⟨edge, hedge⟩ := Arena.contains_iff.mp (h.settled.live hq)
      have hsettled := h.settled.toSettled
      change Ways.Settled g cost source _ _ (s.overlay.ways g) _ s.frontier.queue at hsettled
      rw [hq] at hsettled
      obtain ⟨hnodup, hnew⟩ := hsettled.written hg hc hedge
      have hways : ((s.popped rest).explore g q.edge).overlay.ways g =
          (s.overlay.ways g).relaxEnds source edge (cost q.edge) :=
        (congrArg Chart.ways (h.chart_explore hg hq)).trans
          (Chart.ways_explore _ g cost source hedge)
      rw [hways] at ih
      rw [writes_of_waiting h.underway h.unreached hq hh hedge, h.surveys.source_eq,
        h.surveys.cost_eq]
      refine ⟨List.nodup_append'.mpr ⟨hnodup, ih.1, fun v hv hv' => ?_⟩, fun v hv => ?_⟩
      · exact (hnew v hv).2 (ih.2 v hv')
      · obtain hv | hv := List.mem_append.mp hv
        · exact (hnew v hv).1
        · by_contra hreached
          have hx := explored_relaxEnds hg (s.overlay.ways g) source hedge (cost q.edge)
          exact hx.keeps hreached (ih.2 v hv)

end Orderly

theorem orderly_start {o : Overlay V E κ} (hg : g.Mirrors es) (hf : o.Fits g) (hp : o.Priced)
    (hblank : o.Blank) {a : VertexId} (ha : g.vertices.contains a = true) (b : VertexId)
    {config : SearchConfig} (hk : config.frontier = .costOrdered)
    (hm : config.maxExpansions? = none) :
    Orderly g (o.cost g) a ((fresh o g a b config).expand g a) := by
  have hexact := exact_start hg hf hp hblank ha b hk
  have hworks := (fresh o g a b config).works_expand (g := g) a
  refine ⟨hexact.surveys, ?_, hexact.settled hworks.finished, hworks.finished,
    hworks.limit.trans hm⟩
  rw [ways_expand, ways_fresh hf hblank ha]
  exact .blank g _ a

end Search

end Waymark
