import Waymark.Proofs.Search.Optimal

namespace Waymark

namespace Path

variable {κ : Type} [Cost κ] {p : Path κ} {cost : EdgeId → κ}

/-- Each hop costs what the way before it costs, with its own edge. -/
def Tallies (p : Path κ) (cost : EdgeId → κ) : Prop :=
  ∀ before hop after, p.hops = before ++ hop :: after →
    hop.cost = Path.cost ⟨before⟩ + cost hop.edge

theorem cost_append (hops : List (Hop κ)) (hop : Hop κ) :
    Path.cost ⟨hops ++ [hop]⟩ = hop.cost := by
  simp [Path.cost]

/-- The cost of a path that tallies is that of its edges together. -/
theorem Tallies.cost_eq (h : p.Tallies cost) : p.cost = accumulate cost p.edges := by
  obtain ⟨hops⟩ := p
  induction hops using List.reverseRecOn with
  | nil => rfl
  | append_singleton hops hop ih =>
    have hbefore : Path.Tallies ⟨hops⟩ cost := by
      intro before next after heq
      refine h before next (after ++ [hop]) ?_
      change hops = before ++ next :: after at heq
      simp [heq]
    have hedges : Path.edges ⟨hops ++ [hop]⟩ = Path.edges ⟨hops⟩ ++ [hop.edge] := by
      simp [Path.edges]
    rw [cost_append, hedges, accumulate_append, ← ih hbefore]
    exact h hops hop [] rfl

end Path

namespace Ways

variable {V E κ : Type} [Cost κ] {w w' : Ways κ} {g : Graph V E} {cost : EdgeId → κ}
  {source a b v : VertexId} {e : EdgeId} {hops : List (Hop κ)} {hop : Hop κ}

omit [Cost κ] in
/-- Each hop of a way is the last hop to some vertex, and what stands before it the way to its
origin. -/
theorem Traced.split (h : w.Traced source v hops) {before after : List (Hop κ)}
    (heq : hops = before ++ hop :: after) :
    ∃ u, u ≠ source ∧ w u = some hop ∧ w.Traced source hop.origin before := by
  induction h generalizing after with
  | source => simp at heq
  | @along v last hops hne hv hrest ih =>
    cases after using List.reverseRecOn with
    | nil =>
      obtain ⟨rfl, hlast⟩ := List.append_inj' heq rfl
      cases hlast
      exact ⟨v, hne, hv, hrest⟩
    | append_singleton after x =>
      rw [← List.cons_append, ← List.append_assoc] at heq
      obtain ⟨hhops, _⟩ := List.append_inj' heq rfl
      exact ih hhops

theorem Traced.total? (h : w.Traced source v hops) :
    w.total? source v = some (Path.cost ⟨hops⟩) := by
  cases h with
  | source => exact total?_source w source
  | along hne hv _ =>
    rw [total?_of_ne _ hne, hv, Path.cost_append]
    rfl

theorem Relaxed.recorded {c : κ} (hr : Relaxed source a b e c w w') (hold : w v ≠ some hop)
    (hnew : w' v = some hop) :
    v = b ∧ b ≠ source ∧ ∃ base, w.total? source a = some base ∧ hop = ⟨a, e, base + c⟩ ∧
      ∀ known, w b = some known → ¬ known.cost ≤ base + c := by
  cases hr with
  | toSource => exact (hold hnew).elim
  | unreached => exact (hold hnew).elim
  | known => exact (hold hnew).elim
  | @improved base hb ha hlt =>
    obtain ⟨hvb, rfl⟩ | ⟨_, hnew⟩ := reach_cases hnew
    · exact ⟨hvb, hb, base, ha, rfl, hlt⟩
    · exact (hold hnew).elim

/-- A hop that is recorded costs what its origin was reached at before, with its edge. -/
theorem Tree.recorded [LawfulCost κ] (h : w.Tree g cost source) (hc : ∀ e, 0 ≤ cost e)
    (hx : Search.Explored g source e (cost e) w w') (hold : w v ≠ some hop)
    (hnew : w' v = some hop) :
    ∃ base, w.total? source hop.origin = some base ∧ hop.cost = base + cost hop.edge := by
  cases hx with
  | oneWay _ _ hr =>
    obtain ⟨_, _, base, ha, rfl, _⟩ := hr.recorded hold hnew
    exact ⟨base, ha, rfl⟩
  | @bothWays edge w₁ w' _ _ hne hr hr' =>
    by_cases hmid : w₁ v = some hop
    · obtain ⟨_, _, base, ha, rfl, _⟩ := hr.recorded hold hmid
      exact ⟨base, ha, rfl⟩
    · obtain ⟨_, _, base, ha, rfl, hlt⟩ := hr'.recorded hmid hnew
      refine ⟨base, ?_, rfl⟩
      cases hr with
      | toSource => exact ha
      | unreached => exact ha
      | known => exact ha
      | @improved base' hb ha' hlt' =>
        -- The head has just been reached from the tail, so it cannot improve on the tail.
        rw [total?_reach_self w hb] at ha
        cases ha
        rw [total?_of_ne _ hne] at ha'
        obtain ⟨known, hknown, rfl⟩ := Option.map_eq_some_iff.mp ha'
        have hnonneg := h.nonneg hknown
        have hfirst := LawfulCost.le_add_right hnonneg (hc e)
        by_cases hsame : edge.tail = edge.head
        · rw [hsame] at hknown
          exact (hlt' known hknown hfirst).elim
        · have hsecond := LawfulCost.le_add_right (LawfulCost.add_nonneg hnonneg (hc e)) (hc e)
          rw [reach_of_ne _ hsame] at hlt
          exact (hlt known hknown (LawfulCost.le_trans hfirst hsecond)).elim

end Ways

namespace Search

variable {V E κ : Type} [Cost κ] {g : Graph V E} {s : Search V E κ} {o : Overlay V E κ}
  {a b v : VertexId} {config : SearchConfig} {hop : Hop κ}

/-- Step `n` gives a vertex its hop. -/
def Records (s : Search V E κ) (g : Graph V E) (n : Nat) (v : VertexId) (hop : Hop κ) : Prop :=
  (s.after g n).overlay.hop? g v ≠ some hop ∧ (s.after g (n + 1)).overlay.hop? g v = some hop

theorem exists_records (hblank : s.overlay.ways g = fun _ => none) {n : Nat}
    (h : (s.after g n).overlay.ways g v = some hop) : ∃ k < n, s.Records g k v hop := by
  induction n with
  | zero =>
    change s.overlay.ways g v = some hop at h
    rw [hblank] at h
    cases h
  | succ n ih =>
    by_cases hn : (s.after g n).overlay.ways g v = some hop
    · obtain ⟨k, hk, hrecords⟩ := ih hn
      exact ⟨k, by omega, hrecords⟩
    · exact ⟨n, by omega, hn, h⟩

variable [LawfulCost κ]

theorem Records.cost_eq (hs : Begun g a b s) {n : Nat} (h : s.Records g n v hop) :
    ∃ base, (s.after g n).reached? g hop.origin = some base ∧
      hop.cost = base + s.overlay.cost g hop.edge := by
  obtain ⟨es, hg⟩ := hs.mirrors
  have hstep := ways_step hg (hs.fits_after n)
  have hreached : (s.after g n).reached? g hop.origin =
      ((s.after g n).overlay.ways g).total? (s.after g n).source hop.origin := rfl
  obtain ⟨hold, hnew⟩ := h
  rw [after_succ] at hnew
  rw [hs.source_after, hs.cost_after] at hstep
  rw [hreached, hs.source_after]
  obtain hsame | ⟨e, hx⟩ := hstep
  · exact (hold ((congrFun hsame v).symm.trans hnew)).elim
  · exact (hs.tree n).recorded hs.cost_nonneg hx hold hnew

/-- Each hop of a path was recorded at some step, and what stands before it costs what its origin
has been reached at. -/
theorem Begun.path_hop (h : Begun g a b s) {n : Nat} (hv : g.vertices.contains v = true)
    {path : Path κ} (hpath : (s.after g n).overlay.pathTo g v = .ok path)
    {before after : List (Hop κ)} (heq : path.hops = before ++ hop :: after) :
    ∃ u, (s.after g n).overlay.ways g u = some hop ∧
      ((s.after g n).overlay.ways g).total? a hop.origin = some (Path.cost ⟨before⟩) := by
  obtain ⟨path', hpath', hcases⟩ := h.pathTo n hv
  rw [hpath] at hpath'
  cases hpath'
  obtain ⟨_, rfl⟩ | ⟨last, _, _, htrace⟩ := hcases
  · simp at heq
  · obtain ⟨u, _, hu, hbefore⟩ := htrace.split heq
    exact ⟨u, hu, hbefore.total?⟩

/-- By the order of keys a hop keeps to what its origin had been reached at. -/
theorem Exact.path_tallies (h : Exact g (s.overlay.cost g) a s) (hs : Begun g a b s) {n : Nat}
    (hv : g.vertices.contains v = true) {path : Path κ}
    (hpath : (s.after g n).overlay.pathTo g v = .ok path) :
    path.Tallies (s.overlay.cost g) := by
  obtain ⟨es, hg⟩ := hs.mirrors
  intro before hop after heq
  obtain ⟨u, hu, hbefore⟩ := hs.path_hop hv hpath heq
  obtain ⟨k, hk, hrecords⟩ := exists_records hs.blank hu
  obtain ⟨base, hbase, hcost⟩ := hrecords.cost_eq hs
  have htotal : ((s.after g k).overlay.ways g).total? a hop.origin = some base := by
    rw [← hs.source_after k]
    exact hbase
  have hkept := (h.after hg hs.cost_nonneg k).reached_after hg hs.cost_nonneg htotal (n - k)
  rw [after_add, Nat.sub_add_cancel (Nat.le_of_lt hk), hbefore] at hkept
  cases hkept
  exact hcost

/-- Whether a path that a search returns tallies. By the order of keys it always does, and its cost
is that of the edges it lists. By the order of discovery a hop may claim too much, never too little:
it tallies just if its origin, when the hop was recorded, had been reached at a cost that makes the
same with the edge as the one it has in the end. -/
theorem path_tallies_iff (h : g.Hosts o) (hs : start o g a b config = .ok s) {k : Nat}
    {path : Path κ} {o' : Overlay V E κ} (hr : (s.after g k).run g = .ok (path, o')) :
    (config.frontier = .costOrdered →
      path.Tallies (o'.cost g) ∧ path.cost = accumulate (o'.cost g) path.edges) ∧
    (∀ before hop after, path.hops = before ++ hop :: after →
      Path.cost ⟨before⟩ + o'.cost g hop.edge ≤ hop.cost) ∧
    (path.Tallies (o'.cost g) ↔ ∀ before hop after, path.hops = before ++ hop :: after →
      ∀ n v base, s.Records g n v hop → (s.after g n).reached? g hop.origin = some base →
        base + o'.cost g hop.edge = Path.cost ⟨before⟩ + o'.cost g hop.edge) := by
  obtain ⟨hrefusal, o₁, ho, hfresh⟩ := start_eq_ok.mp hs
  obtain ⟨ha, hb, hne⟩ := (refusal?_eq_none h.sound.2.fits).mp hrefusal
  obtain ⟨_, hbegun⟩ := start_of_hosts h config ha hb hne ho
  rw [← hfresh] at hbegun
  obtain ⟨m, rfl, hpath⟩ := run_eq_ok hr
  rw [hbegun.destination_after, after_add] at hpath
  rw [after_add, hbegun.cost_after]
  refine ⟨fun hk => ?_, ?_, ?_, ?_⟩
  · obtain ⟨es, hg⟩ := hbegun.mirrors
    obtain ⟨hl, hp, hblank, _⟩ := h.sound.2.beginRun_eq_ok ho
    have hexact := exact_start hg (hl.fits h.sound.2.fits) hp hblank ha b hk
    have hcost : s.overlay.cost g = o₁.cost g := by
      rw [hfresh]
      exact (touched_fresh o₁ g a b config 0).cost (hl.fits h.sound.2.fits)
    rw [← hfresh, ← hcost] at hexact
    have htallies := hexact.path_tallies hbegun hb hpath
    exact ⟨htallies, htallies.cost_eq⟩
  · intro before hop after heq
    obtain ⟨u, hu, hbefore⟩ := hbegun.path_hop hb hpath heq
    obtain ⟨base, hbase, hle⟩ := (hbegun.tree (m + k)).grounded hu
    rw [hbefore] at hbase
    cases hbase
    exact hle
  · intro htallies before hop after heq n v base hrecords hbase
    obtain ⟨base', hbase', hcost⟩ := hrecords.cost_eq hbegun
    rw [hbase] at hbase'
    cases hbase'
    rw [← hcost]
    exact htallies before hop after heq
  · intro hrecorded before hop after heq
    obtain ⟨u, hu, _⟩ := hbegun.path_hop hb hpath heq
    obtain ⟨n, _, hrecords⟩ := exists_records hbegun.blank hu
    obtain ⟨base, hbase, hcost⟩ := hrecords.cost_eq hbegun
    rw [hcost]
    exact hrecorded before hop after heq n u base hrecords hbase

/-- The cheap way round a detour, up to where both ways meet. -/
def cheapHops : List (Hop Float) :=
  [⟨⟨0, 0⟩, ⟨1, 0⟩, 1⟩, ⟨⟨2, 0⟩, ⟨2, 0⟩, 2⟩, ⟨⟨3, 0⟩, ⟨3, 0⟩, 3⟩]

/-- By the order of discovery the cost that a path claims need not be that of the edges it lists: a
late way to the place before the destination is not carried further. -/
theorem untallied_detour : ∃ (g : Graph Unit Float) (o o' : Overlay Unit Float Float)
    (path : Path Float), g.Hosts o ∧
    o.search g ⟨0, 0⟩ ⟨4, 0⟩ { frontier := .fifo } = .ok (path, o') ∧
    path.edges = [⟨1, 0⟩, ⟨2, 0⟩, ⟨3, 0⟩, ⟨4, 0⟩] ∧ path.cost = 6 ∧
    accumulate (o'.cost g) path.edges = 4 ∧ ¬ path.Tallies (o'.cost g) := by
  obtain ⟨o, h, hresult⟩ : ∃ o : Overlay Unit Float Float, detour.graph.Hosts o ∧
      ((o.search detour.graph ⟨0, 0⟩ ⟨4, 0⟩ { frontier := .fifo }).toOption.map fun result =>
        (result.1, accumulate (result.2.cost detour.graph) result.1.edges)) =
      some (⟨cheapHops ++ [⟨⟨1, 0⟩, ⟨4, 0⟩, 6⟩]⟩, 4) := by
    refine ⟨_, ⟨detour, ⟨_, rfl⟩, rfl, _, List.mem_cons_self, rfl⟩, ?_⟩
    decide +kernel
  cases hsearch : o.search detour.graph ⟨0, 0⟩ ⟨4, 0⟩ { frontier := .fifo } with
  | error e =>
    rw [hsearch] at hresult
    cases hresult
  | ok result =>
    obtain ⟨path, o'⟩ := result
    rw [hsearch] at hresult
    obtain ⟨rfl, hfour⟩ := Prod.mk.inj (Option.some.inj hresult)
    refine ⟨_, o, o', _, h, hsearch, rfl, rfl, hfour, fun htallies => ?_⟩
    have hsix : (6 : Float) = 4 := htallies.cost_eq.trans hfour
    revert hsix
    decide

/-- On a detour the last hop was recorded on top of the dear way. The path lists the cheap way,
which with that hop's edge costs four, and claims six. -/
theorem path_tallies_iff_detour : ∃ (g : Graph Unit Float) (o o' : Overlay Unit Float Float)
    (s : Search Unit Float Float) (path : Path Float), g.Hosts o ∧
    start o g ⟨0, 0⟩ ⟨4, 0⟩ {} = .ok s ∧ (s.after g 5).run g = .ok (path, o') ∧
    path.edges = [⟨1, 0⟩, ⟨2, 0⟩, ⟨3, 0⟩, ⟨4, 0⟩] ∧ path.cost = 6 ∧
    ¬ path.Tallies (o'.cost g) := by
  have h : detour.graph.Hosts _ := ⟨detour, ⟨_, rfl⟩, rfl, _, List.mem_cons_self, rfl⟩
  obtain ⟨hstart, _⟩ := start_of_hosts (a := ⟨0, 0⟩) (b := ⟨4, 0⟩) h {} (by decide) (by decide)
    (by decide) rfl
  have hbegun := Exists.intro (p := fun s => start _ detour.graph ⟨0, 0⟩ ⟨4, 0⟩ {} = .ok s) _ hstart
  obtain ⟨s, hs⟩ := hbegun
  obtain ⟨_, o₁, ho, hfresh⟩ := start_eq_ok.mp hs
  have ho₁ := Except.ok.inj ho
  subst ho₁
  have hend : ((s.after detour.graph 5).step detour.graph).1 = .finished := by
    rw [hfresh]
    decide +kernel
  have hpath : ((s.after detour.graph 5).after detour.graph 1).overlay.pathTo detour.graph
      ((s.after detour.graph 5).after detour.graph 1).destination =
        .ok ⟨cheapHops ++ [⟨⟨1, 0⟩, ⟨4, 0⟩, 6⟩]⟩ := by
    rw [hfresh]
    decide +kernel
  have hr := run_of_exhaust (exhaust_of_finished hend) hpath
  refine ⟨_, _, _, _, _, h, hs, hr, rfl, rfl, ?_⟩
  rw [(path_tallies_iff h hs hr).2.2]
  intro hall
  have hrecords : s.Records detour.graph 2 ⟨4, 0⟩ ⟨⟨1, 0⟩, ⟨4, 0⟩, 6⟩ := by
    rw [hfresh]
    rw [Records]
    decide +kernel
  have hbase : (s.after detour.graph 2).reached? detour.graph ⟨1, 0⟩ = some 5 := by
    rw [hfresh]
    decide +kernel
  have hequal := hall cheapHops _ [] rfl 2 ⟨4, 0⟩ 5 hrecords hbase
  rw [hfresh] at hequal
  revert hequal
  decide +kernel

end Search

end Waymark
