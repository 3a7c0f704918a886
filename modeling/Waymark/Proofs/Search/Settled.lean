import Waymark.Proofs.Search.Queue

namespace Waymark

namespace Ways

variable {V E κ : Type} [Cost κ] {w w' : Ways κ} {g : Graph V E} {cost : EdgeId → κ}
  {source a b v : VertexId} {e : EdgeId}

/-- Every vertex that has been reached has been reached at the least cost. -/
def Least (w : Ways κ) (g : Graph V E) (cost : EdgeId → κ) (source : VertexId) : Prop :=
  ∀ v total, w.total? source v = some total → g.LeastCost cost source v total

/-- Walking an edge from a vertex that has been reached at the least cost never improves on another
such vertex. -/
theorem Relaxed.of_reached (h : w.Least g cost source) {total : κ}
    (ha : w.total? source a = some total) (he : g.leads a b e = true)
    (hr : Relaxed source a b e (cost e) w w') :
    (w.total? source b ≠ none ∧ w' = w) ∨
      (b ≠ source ∧ w.total? source b = none ∧ w' = w.reach b ⟨a, e, total + cost e⟩) := by
  cases hr with
  | toSource hb =>
    refine Or.inl ⟨?_, rfl⟩
    rw [hb]
    exact w.source_reached source
  | unreached hnone =>
    rw [ha] at hnone
    cases hnone
  | @known base hop _ hb =>
    exact Or.inl ⟨w.reached_of_hop source hb, rfl⟩
  | @improved base hb ha' hlt =>
    rw [ha] at ha'
    cases ha'
    refine Or.inr ⟨hb, ?_, rfl⟩
    rw [total?_of_ne _ hb]
    cases hhop : w b with
    | none => rfl
    | some hop =>
      have htotal : w.total? source b = some hop.cost := by
        rw [total?_of_ne _ hb, hhop]
        rfl
      exact (hlt hop hhop ((h b _ htotal).le_along (h a _ ha) he)).elim

theorem Relaxed.of_unreached (ha : w.total? source a = none)
    (hr : Relaxed source a b e (cost e) w w') : w' = w := by
  cases hr with
  | toSource => rfl
  | unreached => rfl
  | known => rfl
  | improved _ ha' =>
    rw [ha] at ha'
    cases ha'

theorem Least.reach (h : w.Least g cost source) (hb : b ≠ source) {hop : Hop κ}
    (hleast : g.LeastCost cost source b hop.cost) : (w.reach b hop).Least g cost source := by
  intro v total hv
  by_cases hvb : v = b
  · rw [hvb, total?_reach_self w hb] at hv
    cases hv
    rw [hvb]
    exact hleast
  · rw [total?_reach_of_ne w hvb] at hv
    exact h v total hv

/-- What holds while edges are explored in the order of their keys. Vertices that are `opened` may
still have edges that were not seen, and edges `inHand` are not in the queue. -/
structure Settled (g : Graph V E) (cost : EdgeId → κ) (source : VertexId)
    (opened : VertexId → Prop) (inHand : EdgeId → Prop) (w : Ways κ) (state : EdgeId → EdgeState)
    (queue : List (Queued κ)) : Prop where
  least : w.Least g cost source
  keyed : ∀ q ∈ queue, ∃ a b total, w.total? source a = some total ∧
    g.leads a b q.edge = true ∧ q.key = total + cost q.edge
  sorted : Frontier.Sorted queue
  waiting : ∀ {e}, state e = .discovered → inHand e ∨ ∃ q ∈ queue, q.edge = e
  seen : ∀ {a b e}, w.total? source a ≠ none → g.leads a b e = true →
    opened a ∨ state e ≠ .unexplored
  explored : ∀ {a b e}, state e = .explored → g.leads a b e = true → w.total? source b ≠ none
  admitted : ∀ e, state e ≠ .excluded

namespace Settled

variable {opened : VertexId → Prop} {inHand : EdgeId → Prop} {state : EdgeId → EdgeState}
  {queue : List (Queued κ)} {es : List EdgeId}

/-- Whoever walks to a vertex that has not been reached walks an edge that waits, and pays its key
at least. -/
theorem exists_waiting [LawfulCost κ]
    (h : Settled g cost source (fun _ => False) (fun _ => False) w state queue)
    (hc : ∀ e, 0 ≤ cost e) (hw : g.Walk source v es) (hv : w.total? source v = none) :
    ∃ q ∈ queue, q.key ≤ accumulate cost es := by
  induction hw with
  | start =>
    rw [total?_source] at hv
    cases hv
  | @along u v es e hwalk he ih =>
    rw [accumulate_append]
    cases hu : w.total? source u with
    | none =>
      obtain ⟨q, hq, hle⟩ := ih hu
      have hmore := LawfulCost.le_add_right (accumulate_nonneg hc es) (hc e)
      exact ⟨q, hq, LawfulCost.le_trans hle hmore⟩
    | some total =>
      have hu' : w.total? source u ≠ none := by simp [hu]
      have hunexplored : state e ≠ .unexplored := (h.seen hu' he).resolve_left id
      have hexplored : state e ≠ .explored := fun hs => h.explored hs he hv
      have hdiscovered : state e = .discovered := by
        cases hs : state e with
        | unexplored => exact (hunexplored hs).elim
        | discovered => rfl
        | excluded => exact (h.admitted e hs).elim
        | explored => exact (hexplored hs).elim
      obtain ⟨q, hq, rfl⟩ := (h.waiting hdiscovered).resolve_left id
      obtain ⟨a, b, base, ha, hl, hkey⟩ := h.keyed q hq
      have hau : a = u := by
        obtain ⟨hau, _⟩ | ⟨hav, _⟩ := Graph.leads_ends he hl
        · exact hau
        · rw [hav, hv] at ha
          cases ha
      rw [hau, hu] at ha
      cases ha
      have hleast := (h.least _ _ hu).least es hwalk
      have hnonneg := (h.least _ _ hu).nonneg hc
      refine ⟨q, hq, ?_⟩
      rw [hkey]
      exact LawfulCost.add_le_add_right hnonneg (hc q.edge) hleast

theorem key_nonneg [LawfulCost κ] (h : Settled g cost source opened inHand w state queue)
    (hc : ∀ e, 0 ≤ cost e) {q : Queued κ} (hq : q ∈ queue) : 0 ≤ q.key := by
  obtain ⟨a, b, total, ha, _, hkey⟩ := h.keyed q hq
  rw [hkey]
  exact LawfulCost.add_nonneg ((h.least _ _ ha).nonneg hc) (hc q.edge)

/-- An edge out of a vertex that has been reached is put into the queue. -/
theorem discover [LawfulCost κ] (h : Settled g cost source opened inHand w state queue)
    (hc : ∀ e, 0 ≤ cost e) {total : κ} (ha : w.total? source a = some total)
    (he : g.leads a b e = true) :
    Settled g cost source opened inHand w (Function.update state e .discovered)
      (Frontier.insertByKey ⟨e, total + cost e⟩ queue) where
  least := h.least
  keyed q hq := by
    obtain rfl | hq := Frontier.mem_insertByKey.mp hq
    · exact ⟨a, b, total, ha, he, rfl⟩
    · exact h.keyed q hq
  sorted :=
    h.sorted.insertByKey (LawfulCost.add_nonneg ((h.least _ _ ha).nonneg hc) (hc e))
      fun _ hr => h.key_nonneg hc hr
  waiting {d} hd := by
    by_cases hde : d = e
    · exact Or.inr ⟨⟨e, total + cost e⟩, Frontier.mem_insertByKey.mpr (Or.inl rfl), hde.symm⟩
    · rw [Function.update_of_ne hde] at hd
      obtain hhand | ⟨q, hq, hqd⟩ := h.waiting hd
      · exact Or.inl hhand
      · exact Or.inr ⟨q, Frontier.mem_insertByKey.mpr (Or.inr hq), hqd⟩
  seen {a b d} ha hl := by
    by_cases hde : d = e
    · rw [hde, Function.update_self]
      exact Or.inr (by decide)
    · rw [Function.update_of_ne hde]
      exact h.seen ha hl
  explored {a b d} hd hl := by
    by_cases hde : d = e
    · rw [hde, Function.update_self] at hd
      cases hd
    · rw [Function.update_of_ne hde] at hd
      exact h.explored hd hl
  admitted d := by
    by_cases hde : d = e
    · rw [hde, Function.update_self]
      decide
    · rw [Function.update_of_ne hde]
      exact h.admitted d

/-- A vertex is closed again when all edges out of it have been seen. -/
theorem close (h : Settled g cost source opened inHand w state queue)
    (hv : ∀ b e, g.leads v b e = true → state e ≠ .unexplored) :
    Settled g cost source (fun u => opened u ∧ u ≠ v) inHand w state queue :=
  { h with
    seen := by
      intro a b e ha he
      by_cases hav : a = v
      · rw [hav] at he
        exact Or.inr (hv b e he)
      · exact (h.seen ha he).imp_left fun ho => ⟨ho, hav⟩ }

/-- The edge in hand is done with when both its ends have been reached. -/
theorem finish (h : Settled g cost source opened (· = e) w state queue)
    (hends : ∀ a b, g.leads a b e = true → w.total? source b ≠ none) :
    Settled g cost source opened (fun _ => False) w (Function.update state e .explored) queue where
  least := h.least
  keyed := h.keyed
  sorted := h.sorted
  waiting {d} hd := by
    by_cases hde : d = e
    · rw [hde, Function.update_self] at hd
      cases hd
    · rw [Function.update_of_ne hde] at hd
      exact Or.inr ((h.waiting hd).resolve_left hde)
  seen {a b d} ha hl := by
    by_cases hde : d = e
    · rw [hde, Function.update_self]
      exact Or.inr (by decide)
    · rw [Function.update_of_ne hde]
      exact h.seen ha hl
  explored {a b d} hd hl := by
    by_cases hde : d = e
    · rw [hde] at hl
      exact hends a b hl
    · rw [Function.update_of_ne hde] at hd
      exact h.explored hd hl
  admitted d := by
    by_cases hde : d = e
    · rw [hde, Function.update_self]
      decide
    · rw [Function.update_of_ne hde]
      exact h.admitted d

/-- The next edge is taken in hand. -/
theorem take {q : Queued κ}
    (h : Settled g cost source opened (fun _ => False) w state (q :: queue)) :
    Settled g cost source opened (· = q.edge) w state queue :=
  { h with
    keyed := fun r hr => h.keyed r (.tail q hr)
    sorted := (List.pairwise_cons.mp h.sorted).2
    waiting := by
      intro e he
      obtain ⟨r, hr, rfl⟩ := (h.waiting he).resolve_left id
      obtain rfl | hr := List.mem_cons.mp hr
      · exact Or.inl rfl
      · exact Or.inr ⟨r, hr, rfl⟩ }

/-- A vertex is reached at a least cost and opened. -/
theorem reach (h : Settled g cost source (fun _ => False) inHand w state queue)
    (hb : b ≠ source) (hnew : w.total? source b = none) {hop : Hop κ}
    (hleast : g.LeastCost cost source b hop.cost) :
    Settled g cost source (· = b) inHand (w.reach b hop) state queue := by
  refine ⟨h.least.reach hb hleast, ?_, h.sorted, h.waiting, ?_, ?_, h.admitted⟩
  · intro q hq
    obtain ⟨a, c, total, ha, hl, hkey⟩ := h.keyed q hq
    exact ⟨a, c, total, total?_reach_kept ha hnew hop, hl, hkey⟩
  · intro a c e ha hl
    by_cases hab : a = b
    · exact Or.inl hab
    · rw [total?_reach_of_ne w hab] at ha
      exact Or.inr ((h.seen ha hl).resolve_left id)
  · intro a c e he hl
    obtain ⟨total, hc⟩ := Option.ne_none_iff_exists'.mp (h.explored he hl)
    rw [total?_reach_kept hc hnew]
    simp

/-! The next edge -/

section Next

variable {q : Queued κ}

/-- The key of an edge that leads to a new vertex counts from its other end. -/
theorem key_eq (h : Settled g cost source (fun _ => False) (fun _ => False) w state (q :: queue))
    (he : g.leads a b q.edge = true) (hb : w.total? source b = none) :
    ∃ total, w.total? source a = some total ∧ q.key = total + cost q.edge := by
  obtain ⟨c, d, total, hc, hl, hkey⟩ := h.keyed q (.head queue)
  obtain ⟨hca, _⟩ | ⟨hcb, _⟩ := Graph.leads_ends he hl
  · rw [hca] at hc
    exact ⟨total, hc, hkey⟩
  · rw [hcb, hb] at hc
    cases hc

/-- Walking the next edge one way from a vertex that has been reached. -/
theorem relaxed_cases
    (h : Settled g cost source (fun _ => False) (fun _ => False) w state (q :: queue))
    (he : g.leads a b q.edge = true) (ha : w.total? source a ≠ none)
    (hr : Relaxed source a b q.edge (cost q.edge) w w') :
    (w.total? source b ≠ none ∧ w' = w) ∨
      (b ≠ source ∧ w.total? source b = none ∧ w' = w.reach b ⟨a, q.edge, q.key⟩) := by
  obtain ⟨total, ha⟩ := Option.ne_none_iff_exists'.mp ha
  obtain hstay | ⟨hne, hb, hw⟩ := hr.of_reached h.least ha he
  · exact Or.inl hstay
  · obtain ⟨total', ha', hkey⟩ := h.key_eq he hb
    rw [ha] at ha'
    cases ha'
    rw [← hkey] at hw
    exact Or.inr ⟨hne, hb, hw⟩

/-- One end of the next edge at least has been reached. -/
theorem tail_reached
    (h : Settled g cost source (fun _ => False) (fun _ => False) w state (q :: queue))
    {edge : Edge E} (hedge : g.edges.get? q.edge = some edge)
    (hone : (edge.isBidirectional && edge.tail ≠ source) = false) :
    w.total? source edge.tail ≠ none := by
  obtain ⟨c, d, total, hc, hl, _⟩ := h.keyed q (.head queue)
  obtain ⟨rfl, _⟩ | ⟨hboth, _, _⟩ := Graph.leads_cases hedge hl
  · simp [hc]
  · have hsource : edge.tail = source := by simpa [hboth] using hone
    rw [hsource]
    exact w.source_reached source

variable [LawfulCost κ]

/-- The least key of all is the least cost of a new vertex at the end of its edge. -/
theorem least_of_key
    (h : Settled g cost source (fun _ => False) (fun _ => False) w state (q :: queue))
    (hc : ∀ e, 0 ≤ cost e) (he : g.leads a b q.edge = true) (hb : w.total? source b = none) :
    g.LeastCost cost source b q.key := by
  obtain ⟨total, ha, hkey⟩ := h.key_eq he hb
  obtain ⟨es, hw, htotal⟩ := (h.least a total ha).attained
  refine ⟨⟨es ++ [q.edge], hw.along he, ?_⟩, fun es hw => ?_⟩
  · rw [accumulate_append, htotal, hkey]
  · obtain ⟨r, hr, hle⟩ := h.exists_waiting hc hw hb
    obtain rfl | hr := List.mem_cons.mp hr
    · exact hle
    · exact LawfulCost.le_trans ((List.pairwise_cons.mp h.sorted).1 r hr) hle

/-- Walking the next edge either way leaves every cost the least. -/
theorem least_relaxed
    (h : Settled g cost source (fun _ => False) (fun _ => False) w state (q :: queue))
    (hc : ∀ e, 0 ≤ cost e) (he : g.leads a b q.edge = true)
    (hr : Relaxed source a b q.edge (cost q.edge) w w') : w'.Least g cost source := by
  by_cases ha : w.total? source a = none
  · rw [hr.of_unreached ha]
    exact h.least
  · obtain ⟨_, hw⟩ | ⟨hne, hb, hw⟩ := h.relaxed_cases he ha hr
    · rw [hw]
      exact h.least
    · rw [hw]
      exact h.least.reach hne (h.least_of_key hc he hb)

/-- Exploring the next edge reaches one vertex at most, and that from the other end of the edge. -/
theorem explored_cases
    (h : Settled g cost source (fun _ => False) (fun _ => False) w state (q :: queue))
    (hc : ∀ e, 0 ≤ cost e) (hx : Search.Explored g source q.edge (cost q.edge) w w') :
    (w' = w ∧ ∀ a b, g.leads a b q.edge = true → w.total? source b ≠ none) ∨
      ∃ a b, g.leads a b q.edge = true ∧ w.total? source a ≠ none ∧ b ≠ source ∧
        w.total? source b = none ∧ w' = w.reach b ⟨a, q.edge, q.key⟩ := by
  have hends {a b : VertexId} (he : g.leads a b q.edge = true) (ha : w.total? source a ≠ none)
      (hb : w.total? source b ≠ none) :
      ∀ c d, g.leads c d q.edge = true → w.total? source d ≠ none := by
    intro c d hl
    obtain ⟨_, rfl⟩ | ⟨_, rfl⟩ := Graph.leads_ends he hl
    · exact hb
    · exact ha
  cases hx with
  | @oneWay edge w' hedge hone hr =>
    have he := Graph.leads_forth hedge
    have ha := h.tail_reached hedge hone
    obtain ⟨hb, hw⟩ | ⟨hne, hb, hw⟩ := h.relaxed_cases he ha hr
    · exact Or.inl ⟨hw, hends he ha hb⟩
    · exact Or.inr ⟨_, _, he, ha, hne, hb, hw⟩
  | @bothWays edge w₁ w' hedge hboth _ hr hr' =>
    have he := Graph.leads_forth hedge
    have he' := Graph.leads_back hedge hboth
    cases ha : w.total? source edge.tail with
    | none =>
      have hw₁ := hr.of_unreached ha
      rw [hw₁] at hr'
      obtain ⟨total, hb, _⟩ := h.key_eq he' ha
      have hb' : w.total? source edge.head ≠ none := by simp [hb]
      obtain ⟨hreached, _⟩ | ⟨hne, _, hw⟩ := h.relaxed_cases he' hb' hr'
      · exact (hreached ha).elim
      · exact Or.inr ⟨_, _, he', hb', hne, ha, hw⟩
    | some total =>
      have ha' : w.total? source edge.tail ≠ none := by simp [ha]
      obtain ⟨hb, hw₁⟩ | ⟨hne, hb, hw₁⟩ := h.relaxed_cases he ha' hr
      · rw [hw₁] at hr'
        obtain ⟨_, hw⟩ | ⟨_, hnone, _⟩ := h.relaxed_cases he' hb hr'
        · exact Or.inl ⟨hw, hends he ha' hb⟩
        · exact (ha' hnone).elim
      · -- The head is new, and walking back from it is of no use to the tail.
        have hsame : edge.tail ≠ edge.head := by
          intro heq
          rw [heq] at ha'
          exact ha' hb
        have hleast := h.least_relaxed hc he hr
        have hhead : w₁.total? source edge.head = some q.key := by
          rw [hw₁, total?_reach_self w hne]
        have htail : w₁.total? source edge.tail ≠ none := by
          rw [hw₁, total?_reach_of_ne w hsame]
          exact ha'
        obtain ⟨_, hw⟩ | ⟨_, hnone, _⟩ := hr'.of_reached hleast hhead he'
        · rw [hw, hw₁]
          exact Or.inr ⟨_, _, he, ha', hne, hb, rfl⟩
        · exact (htail hnone).elim

/-- After the next edge has been walked both its ends have been reached, one of them perhaps just
now. -/
theorem walked (h : Settled g cost source (fun _ => False) (fun _ => False) w state (q :: queue))
    (hc : ∀ e, 0 ≤ cost e) (hx : Search.Explored g source q.edge (cost q.edge) w w') :
    Settled g cost source (fun u => ∃ a, g.leads a u q.edge = true) (· = q.edge) w' state queue ∧
      ∀ a b, g.leads a b q.edge = true → w'.total? source b ≠ none := by
  obtain ⟨rfl, hends⟩ | ⟨a, b, he, ha, hne, hb, rfl⟩ := h.explored_cases hc hx
  · exact ⟨{ h.take with seen := fun ha hl => Or.inr ((h.seen ha hl).resolve_left id) }, hends⟩
  · have hleast : g.LeastCost cost source b (Hop.mk a q.edge q.key).cost :=
      h.least_of_key hc he hb
    have hreach := h.take.reach hne hb hleast
    refine ⟨{ hreach with seen := fun hv hl => (hreach.seen hv hl).imp_left ?_ }, ?_⟩
    · intro heq
      subst heq
      exact ⟨a, he⟩
    · intro c d hl
      obtain ⟨_, rfl⟩ | ⟨_, rfl⟩ := Graph.leads_ends he hl
      · rw [total?_reach_self w hne]
        simp
      · have hdb : d ≠ b := by
          intro heq
          subst heq
          exact ha hb
        rw [total?_reach_of_ne w hdb]
        exact ha

end Next

end Settled

end Ways

end Waymark
