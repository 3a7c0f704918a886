import Waymark.Proofs.Search.Ways
import Waymark.Proofs.Workspace.Request

namespace Waymark

namespace Ways

variable {V E κ : Type} {w w' : Ways κ} {source a b u v : VertexId}
  {hops hops' : List (Hop κ)}

/-- The hops that lead from the source to a vertex. -/
inductive Traced (w : Ways κ) (source : VertexId) : VertexId → List (Hop κ) → Prop
  | source : Traced w source source []
  | along {v : VertexId} {hop : Hop κ} {hops : List (Hop κ)} (hne : v ≠ source)
    (hv : w v = some hop) (h : Traced w source hop.origin hops) :
    Traced w source v (hops ++ [hop])

namespace Traced

/-- There is but one way to a vertex. -/
theorem unique (h : w.Traced source v hops) (h' : w.Traced source v hops') : hops = hops' := by
  induction h generalizing hops' with
  | source =>
    cases h' with
    | source => rfl
    | along hne _ _ => exact (hne rfl).elim
  | along hne hv _ ih =>
    cases h' with
    | source => exact (hne rfl).elim
    | along _ hv' hrest =>
      rw [hv] at hv'
      cases hv'
      rw [ih hrest]

/-- A way stays as it is when no hop is taken back. -/
theorem mono (h : w.Traced source v hops)
    (hw : ∀ v hop, w v = some hop → w' v = some hop) : w'.Traced source v hops := by
  induction h with
  | source => exact .source
  | along hne hv _ ih => exact .along hne (hw _ _ hv) ih

/-- The way to a vertex passed begins the way, and is shorter. -/
theorem passed (h : w.Traced source v hops) (hu : u ∈ hops.map Hop.origin) :
    ∃ hops', w.Traced source u hops' ∧ hops'.length < hops.length := by
  induction h with
  | source => cases hu
  | @along v hop hops hne hv hrest ih =>
    rw [List.map_append, List.mem_append] at hu
    obtain hu | hu := hu
    · obtain ⟨hops', ht, hlt⟩ := ih hu
      exact ⟨hops', ht, by rw [List.length_append]; omega⟩
    · have hu : u = hop.origin := by simpa using hu
      rw [hu]
      exact ⟨hops, hrest, by simp⟩

/-- No vertex occurs twice on the way to another. -/
theorem nodup (h : w.Traced source v hops) : (hops.map Hop.origin ++ [v]).Nodup := by
  induction h with
  | source => simp
  | @along v hop hops hne hv hrest ih =>
    have hmap : (hops ++ [hop]).map Hop.origin = hops.map Hop.origin ++ [hop.origin] := by simp
    have hfresh : v ∉ (hops ++ [hop]).map Hop.origin := by
      intro hmem
      have hwhole := Traced.along hne hv hrest
      obtain ⟨hops', ht, hlt⟩ := hwhole.passed hmem
      rw [hwhole.unique ht] at hlt
      exact Nat.lt_irrefl _ hlt
    rw [hmap] at hfresh ⊢
    exact List.nodup_append'.mpr ⟨ih, List.nodup_singleton v, by simpa using hfresh⟩

/-- The hops follow upon each other from the source on. -/
theorem chain (h : w.Traced source v hops) :
    hops.map Hop.origin ++ [v] = source :: (hops.map Hop.origin ++ [v]).tail := by
  induction h with
  | source => rfl
  | @along v hop hops hne hv hrest ih =>
    have hmap : (hops ++ [hop]).map Hop.origin = hops.map Hop.origin ++ [hop.origin] := by simp
    rw [hmap, ih]
    rfl

/-- A way that does not come to `b` is not changed when `b` is reached anew. -/
theorem avoiding (h : w.Traced source v hops) (hb : b ∉ hops.map Hop.origin ++ [v]) (hop : Hop κ) :
    (w.reach b hop).Traced source v hops := by
  induction h with
  | source => exact .source
  | @along v last hops hne hv hrest ih =>
    have hvb : v ≠ b := by
      intro heq
      subst heq
      simp at hb
    refine .along hne ((w.reach_of_ne hvb hop).trans hv) (ih ?_)
    intro hmem
    apply hb
    rw [List.map_append]
    exact List.mem_append_left _ hmem

/-- When one vertex has a way anew, so has every other. -/
theorem reach (hv : w.Traced source v hops') {hop : Hop κ}
    (hb : (w.reach b hop).Traced source b hops) :
    ∃ hops'', (w.reach b hop).Traced source v hops'' := by
  induction hv with
  | source => exact ⟨[], .source⟩
  | @along v last hops' hne hlast _ ih =>
    by_cases hvb : v = b
    · rw [hvb]
      exact ⟨hops, hb⟩
    · obtain ⟨hops'', ht⟩ := ih
      exact ⟨hops'' ++ [last], .along hne ((w.reach_of_ne hvb hop).trans hlast) ht⟩

end Traced

variable [Cost κ]

/-- What holds of the ways at all times: each hop walks an edge and costs no less than it took to
come to its origin, as far as is known by now, and to walk that edge. All hops lead back to the
source. -/
structure Tree (w : Ways κ) (g : Graph V E) (cost : EdgeId → κ) (source : VertexId) : Prop where
  root : w source = none
  leads : ∀ {v hop}, w v = some hop → g.leads hop.origin v hop.edge = true
  nonneg : ∀ {v hop}, w v = some hop → 0 ≤ hop.cost
  grounded : ∀ {v hop}, w v = some hop →
    ∃ base, w.total? source hop.origin = some base ∧ base + cost hop.edge ≤ hop.cost
  traced : ∀ {v hop}, w v = some hop → ∃ hops, w.Traced source v hops

namespace Tree

variable {g : Graph V E} {cost : EdgeId → κ} {e : EdgeId}

theorem blank (g : Graph V E) (cost : EdgeId → κ) (source : VertexId) :
    Tree (fun _ => none : Ways κ) g cost source where
  root := rfl
  leads hv := by cases hv
  nonneg hv := by cases hv
  grounded hv := by cases hv
  traced hv := by cases hv

theorem ne_source (h : w.Tree g cost source) {hop : Hop κ} (hv : w v = some hop) : v ≠ source := by
  intro heq
  subst heq
  rw [h.root] at hv
  cases hv

theorem total?_eq (h : w.Tree g cost source) {hop : Hop κ} (hv : w v = some hop) :
    w.total? source v = some hop.cost := by
  rw [total?_of_ne _ (h.ne_source hv), hv]
  rfl

theorem traced_of_total? (h : w.Tree g cost source) {total : κ}
    (hv : w.total? source v = some total) : ∃ hops, w.Traced source v hops := by
  by_cases hs : v = source
  · rw [hs]
    exact ⟨[], .source⟩
  · rw [total?_of_ne _ hs] at hv
    obtain ⟨hop, hhop, _⟩ := Option.map_eq_some_iff.mp hv
    exact h.traced hhop

variable [LawfulCost κ]

theorem total?_nonneg (h : w.Tree g cost source) {total : κ}
    (hv : w.total? source v = some total) : 0 ≤ total := by
  by_cases hs : v = source
  · rw [hs, total?_source] at hv
    cases hv
    exact LawfulCost.zero_le_zero
  · rw [total?_of_ne _ hs] at hv
    obtain ⟨hop, hhop, rfl⟩ := Option.map_eq_some_iff.mp hv
    exact h.nonneg hhop

/-- Along a way the costs of the vertices do not fall. -/
theorem passed_le (h : w.Tree g cost source) (hc : ∀ e, 0 ≤ cost e)
    (ht : w.Traced source v hops) {total : κ} (hv : w.total? source v = some total)
    {hop : Hop κ} (hu : w u = some hop) (hmem : u ∈ hops.map Hop.origin ++ [v]) :
    hop.cost ≤ total := by
  induction ht generalizing total with
  | source =>
    have hus : u = source := by simpa using hmem
    exact (h.ne_source hu hus).elim
  | @along v last hops hne hlast hrest ih =>
    have htotal := h.total?_eq hlast
    rw [hv] at htotal
    cases htotal
    have hmap : (hops ++ [last]).map Hop.origin = hops.map Hop.origin ++ [last.origin] := by simp
    rw [hmap] at hmem
    obtain hmem | hmem := List.mem_append.mp hmem
    · obtain ⟨base, hbase, hle⟩ := h.grounded hlast
      have hbefore : hop.cost ≤ base := ih hbase hmem
      have hwalk : base ≤ base + cost last.edge :=
        LawfulCost.le_add_right (h.total?_nonneg hbase) (hc last.edge)
      exact LawfulCost.le_trans (LawfulCost.le_trans hbefore hwalk) hle
    · have huv : u = v := by simpa using hmem
      rw [huv, hlast] at hu
      cases hu
      exact LawfulCost.le_refl (h.nonneg hlast)

/-- The way to a vertex that improves on another does not come to that other. -/
theorem avoids (h : w.Tree g cost source) (hc : ∀ e, 0 ≤ cost e) {base : κ}
    (ha : w.total? source a = some base) (hb : b ≠ source)
    (hlt : ∀ hop, w b = some hop → ¬ hop.cost ≤ base + cost e) (ht : w.Traced source a hops) :
    b ∉ hops.map Hop.origin ++ [a] := by
  intro hmem
  have hreached : ∃ hop, w b = some hop := by
    have htraced : ∃ hops', w.Traced source b hops' := by
      obtain hmem | hmem := List.mem_append.mp hmem
      · obtain ⟨hops', ht', _⟩ := ht.passed hmem
        exact ⟨hops', ht'⟩
      · have hba : b = a := by simpa using hmem
        rw [hba]
        exact ⟨hops, ht⟩
    obtain ⟨hops', ht'⟩ := htraced
    cases ht' with
    | source => exact (hb rfl).elim
    | along _ hv _ => exact ⟨_, hv⟩
  obtain ⟨hop, hhop⟩ := hreached
  have hle : hop.cost ≤ base := h.passed_le hc ht ha hhop hmem
  have hwalk : base ≤ base + cost e := LawfulCost.le_add_right (h.total?_nonneg ha) (hc e)
  exact hlt hop hhop (LawfulCost.le_trans hle hwalk)

/-- A hop that stands on a vertex goes on standing on it when the vertex is reached for less. -/
theorem grounded_reach (h : w.Tree g cost source) (hc : ∀ e, 0 ≤ cost e) {new : Hop κ}
    (hb : b ≠ source) (hnew : 0 ≤ new.cost) (hlt : ∀ hop, w b = some hop → ¬ hop.cost ≤ new.cost)
    {hop : Hop κ} (hv : w v = some hop) :
    ∃ base, (w.reach b new).total? source hop.origin = some base ∧
      base + cost hop.edge ≤ hop.cost := by
  obtain ⟨before, hbefore, hle⟩ := h.grounded hv
  by_cases ho : hop.origin = b
  · rw [ho] at hbefore
    obtain ⟨known, hknown, rfl⟩ :=
      Option.map_eq_some_iff.mp ((total?_of_ne w hb).symm.trans hbefore)
    have hless : new.cost ≤ known.cost :=
      LawfulCost.le_of_not_le (h.nonneg hknown) hnew (hlt known hknown)
    have hmono := LawfulCost.add_le_add_right hnew (hc hop.edge) hless
    refine ⟨new.cost, ?_, LawfulCost.le_trans hmono hle⟩
    rw [ho]
    exact total?_reach_self w hb _
  · exact ⟨before, (total?_reach_of_ne w ho _).trans hbefore, hle⟩

/-- Walking an edge leaves a tree a tree. -/
theorem relaxed (h : w.Tree g cost source) (hc : ∀ e, 0 ≤ cost e) (he : g.leads a b e = true)
    (hr : Relaxed source a b e (cost e) w w') : w'.Tree g cost source := by
  cases hr with
  | toSource => exact h
  | unreached => exact h
  | known => exact h
  | @improved base hb ha hlt =>
    have hnonneg : 0 ≤ base + cost e := LawfulCost.add_nonneg (h.total?_nonneg ha) (hc e)
    obtain ⟨hops, ht⟩ := h.traced_of_total? ha
    have havoid := h.avoids hc ha hb hlt ht
    have hab : a ≠ b := by
      intro heq
      subst heq
      simp at havoid
    have hnew : (w.reach b ⟨a, e, base + cost e⟩).Traced source b
        (hops ++ [⟨a, e, base + cost e⟩]) :=
      .along hb (w.reach_self b _) (ht.avoiding havoid _)
    refine ⟨(reach_of_ne _ hb.symm _).trans h.root, ?_, ?_, ?_, ?_⟩
    · intro v hop hv
      obtain ⟨rfl, rfl⟩ | ⟨_, hv⟩ := reach_cases hv
      · exact he
      · exact h.leads hv
    · intro v hop hv
      obtain ⟨rfl, rfl⟩ | ⟨_, hv⟩ := reach_cases hv
      · exact hnonneg
      · exact h.nonneg hv
    · intro v hop hv
      obtain ⟨rfl, rfl⟩ | ⟨_, hv⟩ := reach_cases hv
      · exact ⟨base, (total?_reach_of_ne w hab _).trans ha, LawfulCost.le_refl hnonneg⟩
      · exact h.grounded_reach hc hb hnonneg hlt hv
    · intro v hop hv
      obtain ⟨rfl, rfl⟩ | ⟨_, hv⟩ := reach_cases hv
      · exact ⟨_, hnew⟩
      · obtain ⟨hops', ht'⟩ := h.traced hv
        exact ht'.reach hnew

end Tree

end Ways

end Waymark
