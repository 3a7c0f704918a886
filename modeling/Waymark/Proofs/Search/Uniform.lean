import Waymark.Proofs.Search.Layer

namespace Waymark

/-- `c` added up some number of times, from zero on. -/
def multiple {κ : Type} [Zero κ] [Add κ] (c : κ) : Nat → κ
  | 0 => 0
  | n + 1 => multiple c n + c

section Multiple

variable {κ : Type} [Cost κ] [LawfulCost κ] {c : κ}

theorem multiple_nonneg (hc : 0 ≤ c) (n : Nat) : 0 ≤ multiple c n := by
  induction n with
  | zero => exact LawfulCost.zero_le_zero
  | succ n ih => exact LawfulCost.add_nonneg ih hc

theorem multiple_mono (hc : 0 ≤ c) {m n : Nat} (h : m ≤ n) : multiple c m ≤ multiple c n := by
  induction h with
  | refl => exact LawfulCost.le_refl (multiple_nonneg hc m)
  | step _ ih => exact LawfulCost.le_trans ih (LawfulCost.le_add_right (multiple_nonneg hc _) hc)

end Multiple

section Scale

variable {κ : Type} [Zero κ] [Add κ]

/-! Counts of edges made costs, at `c` for each edge -/

def Hop.scale (c : κ) (hop : Hop Nat) : Hop κ := ⟨hop.origin, hop.edge, multiple c hop.cost⟩

def Queued.scale (c : κ) (q : Queued Nat) : Queued κ := ⟨q.edge, multiple c q.key⟩

def Ways.scale (c : κ) (w : Ways Nat) : Ways κ := fun v => (w v).map (Hop.scale c)

def Chart.scale (c : κ) (kind : FrontierKind) (t : Chart Nat) : Chart κ where
  ways := t.ways.scale c
  states := t.states
  frontier := { kind, queue := t.frontier.queue.map (Queued.scale c) }

end Scale

namespace Ways

variable {V E κ : Type} [Cost κ] {w : Ways Nat} {g : Graph V E} {c : κ} {source a b : VertexId}
  {e : EdgeId}

theorem total?_scale (w : Ways Nat) (c : κ) (source v : VertexId) :
    (w.scale c).total? source v = (w.total? source v).map (multiple c) := by
  rw [total?, total?]
  split
  · rfl
  · rw [scale, Option.map_map, Option.map_map]
    rfl

theorem scale_reach (w : Ways Nat) (c : κ) (b : VertexId) (hop : Hop Nat) :
    (w.reach b hop).scale c = (w.scale c).reach b (hop.scale c) := by
  funext v
  by_cases hvb : v = b
  · rw [hvb, reach_self, scale, reach_self]
    rfl
  · rw [reach_of_ne _ hvb, scale, reach_of_ne _ hvb]
    rfl

variable [LawfulCost κ]

/-- Costs that tell no more than counts never keep back a hop that counts let through: along an
edge counts go up by one at most. -/
theorem Least.scale_relax (h : w.Least g (fun _ => 1) source) (hc : 0 ≤ c)
    (he : g.leads a b e = true) :
    (w.relax source a b e 1).scale c = (w.scale c).relax source a b e c := by
  rw [relax, relax]
  split
  · rfl
  · rename_i hb
    rw [total?_scale]
    cases ha : w.total? source a with
    | none => rfl
    | some base =>
      dsimp only [Option.map_some]
      rw [scale]
      cases hw : w b with
      | none => exact w.scale_reach c b _
      | some known =>
        have htotal : w.total? source b = some known.cost := by rw [total?_of_ne _ hb, hw]; rfl
        have hle : known.cost ≤ base + 1 := (h b _ htotal).le_along (h a _ ha) he
        have hle' : multiple c known.cost ≤ multiple c base + c := multiple_mono hc hle
        simp [hle, hle', Hop.scale]

end Ways

namespace Chart

variable {V E κ : Type} [Cost κ] [LawfulCost κ] {g : Graph V E} {source v : VertexId} {m base : Nat}
  {t : Chart Nat} {c : κ} {cost : EdgeId → κ} {es : List EdgeId}

namespace Level

theorem scale_discover (h : t.Level g source m) (hc : 0 ≤ c) (kind : FrontierKind)
    (hv : t.ways.total? source v = some base) {b : VertexId} {e : EdgeId}
    (he : g.leads v b e = true) :
    (t.discover base e 1).scale c kind = (t.scale c kind).discover (multiple c base) e c := by
  have hstates : (t.scale c kind).states = t.states := rfl
  rw [Chart.discover, Chart.discover, hstates]
  split
  · rename_i hu
    have hle := h.le_key hv he hu
    have hle' : ∀ r ∈ (t.scale c kind).frontier.queue, r.key ≤ multiple c base + c := by
      intro r hr
      obtain ⟨q, hq, rfl⟩ := List.mem_map.mp hr
      exact multiple_mono hc (hle q hq)
    rw [Frontier.push_of_le hle, Frontier.push_of_le hle']
    simp [Chart.scale, Queued.scale, multiple]
  · rfl

theorem scale_discoverAll (h : t.Level g source m) (hc : 0 ≤ c) (kind : FrontierKind)
    (hv : t.ways.total? source v = some base) (l : List EdgeId)
    (hl : ∀ e ∈ l, ∃ b, g.leads v b e = true) (hcost : ∀ e ∈ l, cost e = c) :
    (t.discoverAll base (fun _ => 1) l).scale c kind =
      (t.scale c kind).discoverAll (multiple c base) cost l := by
  induction l generalizing t with
  | nil => rfl
  | cons e l ih =>
    obtain ⟨b, hb⟩ := hl e (.head l)
    have hv' : (t.discover base e 1).ways.total? source v = some base := by
      rw [ways_discover]
      exact hv
    have hrest := ih (h.discover hv hb) hv' (fun d hd => hl d (.tail e hd))
      fun d hd => hcost d (.tail e hd)
    rw [h.scale_discover hc kind hv hb] at hrest
    show _ = ((t.scale c kind).discover (multiple c base) e (cost e)).discoverAll
      (multiple c base) cost l
    rw [hcost e (.head l)]
    exact hrest

theorem scale_expand (h : t.Level g source m) (hg : g.Mirrors es) (hc : 0 ≤ c)
    (hcost : ∀ e, g.edges.contains e = true → cost e = c) (kind : FrontierKind)
    (hv : t.ways.total? source v ≠ none) :
    (t.expand g (fun _ => 1) source v).scale c kind =
      (t.scale c kind).expand g cost source v := by
  obtain ⟨base, hv⟩ := Option.ne_none_iff_exists'.mp hv
  have htotal : (t.scale c kind).ways.total? source v = some (multiple c base) := by
    show (t.ways.scale c).total? source v = _
    rw [Ways.total?_scale, hv]
    rfl
  rw [Chart.expand, Chart.expand]
  cases hx : g.vertices.get? v with
  | none => rfl
  | some x =>
    dsimp only
    rw [hv, htotal]
    refine h.scale_discoverAll hc kind hv _ (fun e he => (hg.mem_outgoing hx).mp he) ?_
    intro e he
    obtain ⟨b, hb⟩ := (hg.mem_outgoing hx).mp he
    exact hcost e (Graph.contains_of_leads hb)

theorem scale_expandEnds (h : t.Level g source m) (hg : g.Mirrors es) (hc : 0 ≤ c)
    (hcost : ∀ e, g.edges.contains e = true → cost e = c) (kind : FrontierKind) {e : EdgeId}
    {edge : Edge E} (hedge : g.edges.get? e = some edge)
    (hends : ∀ a b, g.leads a b e = true → t.ways.total? source b ≠ none) :
    (t.expandEnds g (fun _ => 1) source edge).scale c kind =
      (t.scale c kind).expandEnds g cost source edge := by
  have he := Graph.leads_forth hedge
  have hhead := h.scale_expand hg hc hcost kind (hends _ _ he)
  unfold Chart.expandEnds
  dsimp only
  split
  · rename_i hboth
    have he' := Graph.leads_back hedge hboth
    have hreached : (t.expand g (fun _ => 1) source edge.head).ways.total? source edge.tail ≠
        none := by
      rw [ways_expand]
      exact hends _ _ he'
    rw [(h.expand hg (hends _ _ he)).scale_expand hg hc hcost kind hreached, hhead]
  · exact hhead

end Level

namespace Layered

theorem scale_begun (hg : g.Mirrors es) (hc : 0 ≤ c)
    (hcost : ∀ e, g.edges.contains e = true → cost e = c) (kind : FrontierKind)
    (source : VertexId) :
    ((blank .costOrdered).expand g (fun _ => 1) source source).scale c kind =
      (blank kind).expand g cost source source := by
  have hreached := (blank .costOrdered : Chart Nat).ways.source_reached source
  exact (Level.blank g source).scale_expand hg hc hcost kind hreached

theorem scale_relaxEnds (h : t.Layered g source) (hg : g.Mirrors es) (hc : 0 ≤ c)
    {q : Queued Nat} {rest : List (Queued Nat)} (hq : t.frontier.queue = q :: rest)
    {edge : Edge E} (hedge : g.edges.get? q.edge = some edge) :
    (t.ways.relaxEnds source edge 1).scale c = (t.ways.scale c).relaxEnds source edge c := by
  have hsettled := h.settled.toSettled
  rw [hq] at hsettled
  have he := Graph.leads_forth hedge
  have hfirst := hsettled.least.scale_relax hc he
  have hleast := hsettled.least_relaxed (fun _ => Nat.zero_le _) he (Ways.relaxed_relax ..)
  unfold Ways.relaxEnds
  dsimp only
  rw [hg.edge_id hedge]
  split
  · rename_i hboth
    simp only [Bool.and_eq_true, decide_eq_true_eq] at hboth
    have he' := Graph.leads_back hedge hboth.1
    rw [hleast.scale_relax hc he', hfirst]
  · exact hfirst

/-- Exploring the next edge when all cost the same is exploring it when edges are counted, whatever
the frontier. -/
theorem scale_explore (h : t.Layered g source) (hg : g.Mirrors es) (hc : 0 ≤ c)
    (hcost : ∀ e, g.edges.contains e = true → cost e = c) (kind : FrontierKind) {q : Queued Nat}
    {rest : List (Queued Nat)} (hq : t.frontier.queue = q :: rest) :
    ((t.popped rest).explore g (fun _ => 1) source q.edge).scale c kind =
      ((t.popped rest).scale c kind).explore g cost source q.edge := by
  have hlive := h.settled.live hq
  obtain ⟨edge, hedge⟩ := Arena.contains_iff.mp hlive
  obtain ⟨m, hm⟩ := h.level
  have hrelaxed := hm.relaxEnds h.settled hg hq hedge
  obtain ⟨_, hends⟩ := h.settled.relaxEnds hg (fun _ => Nat.zero_le _) hq hedge
  have hscaled : ((t.popped rest).relaxEnds source edge 1).scale c kind =
      ((t.popped rest).scale c kind).relaxEnds source edge c := by
    rw [Chart.relaxEnds, Chart.scale]
    dsimp only
    rw [popped, h.scale_relaxEnds hg hc hq hedge]
    rfl
  have hexpanded := hrelaxed.scale_expandEnds hg hc hcost kind hedge hends
  rw [hscaled] at hexpanded
  rw [Chart.explore, Chart.explore, hedge]
  dsimp only
  rw [hcost q.edge hlive, ← hexpanded]
  rfl

end Layered

end Chart

end Waymark
