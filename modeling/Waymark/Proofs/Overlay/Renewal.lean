import Waymark.Proofs.Overlay.Layout

namespace Waymark

theorem Appraiser.admissible_of_price {V E κ : Type} [Cost κ] {a a' : Appraiser V E κ}
    {g : Graph V E} {edge : Edge E} {cost : κ} (h : a.price g edge = (.ok cost, a')) :
    Cost.admissible cost = true := by
  rw [price] at h
  split at h
  · split at h
    · cases h
      assumption
    · cases h
  · cases h

namespace Overlay

variable {V E κ : Type} [Cost κ] {o o' : Overlay V E κ} {g : Graph V E}

omit [Cost κ] in
/-- The edge at a position, if there is one, has not been seen. -/
def UnseenAt (o : Overlay V E κ) (i : Nat) : Prop :=
  ∀ mark, o.edges[i]? = some mark → mark.state = .unexplored

/-- Taking one cost anew either leaves the marks alone or renews the mark of that edge. -/
theorem reprice_cases (o : Overlay V E κ) (g : Graph V E) (i : Nat) :
    (∃ appraiser, leftBehind (o.reprice g i) = { o with appraiser } ∧
      ∀ o', o.reprice g i = .ok o' → o.edges[i]? = none) ∨
    ∃ appraiser mark cost, o.edges[i]? = some mark ∧ Cost.admissible cost = true ∧
      o.reprice g i = .ok { o with
        appraiser, edges := o.edges.setIfInBounds i { edge := mark.edge, cost } } := by
  rw [reprice]
  cases hi : o.edges[i]? with
  | none => exact Or.inl ⟨o.appraiser, rfl, fun _ _ => rfl⟩
  | some mark =>
    dsimp only
    cases he : g.edges.get? mark.edge with
    | none => exact Or.inl ⟨o.appraiser, rfl, fun o' h => by cases h⟩
    | some edge =>
      dsimp only
      cases hp : o.appraiser.price g edge with
      | mk priced appraiser =>
        cases priced with
        | error failure => exact Or.inl ⟨appraiser, rfl, fun o' h => by cases h⟩
        | ok cost =>
          exact Or.inr ⟨appraiser, mark, cost, rfl, Appraiser.admissible_of_price hp, rfl⟩

theorem sameLayout_reprice (o : Overlay V E κ) (g : Graph V E) (i : Nat) :
    SameLayout o (leftBehind (o.reprice g i)) := by
  obtain ⟨appraiser, hr, _⟩ | ⟨appraiser, mark, cost, hi, _, hr⟩ := o.reprice_cases g i
  · rw [hr]
    exact ⟨rfl, rfl, rfl⟩
  · rw [hr]
    exact ⟨rfl, rfl, map_setIfInBounds hi rfl⟩

theorem priced_reprice (hp : o.Priced) (g : Graph V E) (i : Nat) :
    (leftBehind (o.reprice g i)).Priced := by
  obtain ⟨appraiser, hr, _⟩ | ⟨appraiser, mark, cost, _, hc, hr⟩ := o.reprice_cases g i
  · rw [hr]
    exact hp
  · rw [hr]
    exact forall_mem_setIfInBounds hp i hc

theorem unseenAt_reprice {j : Nat} (hj : o.UnseenAt j) (g : Graph V E) (i : Nat) :
    (leftBehind (o.reprice g i)).UnseenAt j := by
  obtain ⟨appraiser, hr, _⟩ | ⟨appraiser, mark, cost, hi, _, hr⟩ := o.reprice_cases g i
  · rw [hr]
    exact hj
  · rw [hr]
    intro m hm
    simp only [leftBehind, Array.getElem?_setIfInBounds] at hm
    split at hm
    · split at hm
      · cases hm
        rfl
      · cases hm
    · exact hj m hm

theorem unseenAt_of_reprice {i : Nat} (h : o.reprice g i = .ok o') : o'.UnseenAt i := by
  obtain ⟨appraiser, hr, hnone⟩ | ⟨appraiser, mark, cost, hi, _, hr⟩ := o.reprice_cases g i
  · have hi := hnone o' h
    rw [h] at hr
    intro m hm
    simp only [leftBehind] at hr
    rw [hr, hi] at hm
    cases hm
  · rw [h] at hr
    cases hr
    intro m hm
    have hlt := (Array.getElem?_eq_some_iff.mp hi).1
    simp only [Array.getElem?_setIfInBounds, if_pos hlt] at hm
    cases hm
    rfl

theorem vertices_reprice (o : Overlay V E κ) (g : Graph V E) (i : Nat) :
    (leftBehind (o.reprice g i)).vertices = o.vertices ∧
      (leftBehind (o.reprice g i)).used = o.used := by
  obtain ⟨appraiser, hr, _⟩ | ⟨appraiser, mark, cost, _, _, hr⟩ := o.reprice_cases g i <;>
    rw [hr] <;> exact ⟨rfl, rfl⟩

/-- Costs taken anew one after another. -/
theorem repriceAll_unseen {is : List Nat} {o o' : Overlay V E κ}
    (h : is.foldlM (fun o i => o.reprice g i) o = .ok o') {j : Nat}
    (hj : j ∈ is ∨ o.UnseenAt j) : o'.UnseenAt j := by
  induction is generalizing o with
  | nil =>
    cases h
    exact hj.resolve_left (by simp)
  | cons i is ih =>
    obtain ⟨o₁, hr, hrest⟩ := foldlM_cons_eq_ok h
    refine ih hrest ?_
    have hkeep (hu : o.UnseenAt j) : o₁.UnseenAt j := by
      have := unseenAt_reprice hu g i
      rw [hr] at this
      exact this
    obtain hj | hj := hj
    · obtain rfl | hj := List.mem_cons.mp hj
      · exact Or.inr (unseenAt_of_reprice hr)
      · exact Or.inl hj
    · exact Or.inr (hkeep hj)

omit [Cost κ] in
theorem sameLayout_clearHops (o : Overlay V E κ) : SameLayout o o.clearHops := by
  refine ⟨rfl, ?_, rfl⟩
  simp [clearHops, Function.comp_def]

omit [Cost κ] in
theorem forall_unexplored_iff : (∀ mark ∈ o.edges, mark.state = .unexplored) ↔
    ∀ i, o.UnseenAt i := by
  constructor
  · intro h i mark hm
    exact h mark (Array.mem_of_getElem? hm)
  · intro h mark hm
    obtain ⟨i, hi⟩ := Array.mem_iff_getElem?.mp hm
    exact h i mark hi

/-- What taking all costs anew leaves behind has the old layout and only admitted costs. Its hops
are gone, and edges that were unseen are so still. -/
theorem repriceAll_leftBehind (o : Overlay V E κ) (g : Graph V E) (is : List Nat) :
    let left := leftBehind (is.foldlM (fun o i => o.reprice g i) o.clearHops)
    SameLayout o left ∧ (o.Priced → left.Priced) ∧ (∀ mark ∈ left.vertices, mark.hop? = none) ∧
      (∀ j, o.UnseenAt j → left.UnseenAt j) ∧ left.used = o.used := by
  have hblank : ∀ mark ∈ o.clearHops.vertices, mark.hop? = none := by
    intro mark hm
    obtain ⟨m, _, rfl⟩ := Array.mem_map.mp hm
    rfl
  let P (left : Overlay V E κ) : Prop :=
    SameLayout o left ∧ (o.Priced → left.Priced) ∧ (∀ mark ∈ left.vertices, mark.hop? = none) ∧
      (∀ j, o.UnseenAt j → left.UnseenAt j) ∧ left.used = o.used
  have hstep : ∀ s i, P s → P (leftBehind (s.reprice g i)) := by
    intro s i hwhole
    obtain ⟨hl, hp, hv, hu, hused⟩ := hwhole
    have hsame := s.vertices_reprice g i
    refine ⟨hl.trans (s.sameLayout_reprice g i), fun h => priced_reprice (hp h) g i, ?_,
      fun j hj => unseenAt_reprice (hu j hj) g i, hsame.2.trans hused⟩
    rw [hsame.1]
    exact hv
  exact leftBehind_foldlM (P := P) hstep is ⟨o.sameLayout_clearHops, id, hblank, fun _ => id, rfl⟩

theorem reset_eq_ok {o' : Overlay V E κ} (h : o.reset g = .ok o') :
    SameLayout o o' ∧ (o.Priced → o'.Priced) ∧ o'.Blank ∧ o'.used = false := by
  have hleft := o.repriceAll_leftBehind g (List.range o.edges.size)
  rw [reset] at h
  cases hr : (List.range o.edges.size).foldlM (fun o i => o.reprice g i) o.clearHops with
  | error e =>
    rw [hr] at h
    cases h
  | ok o₁ =>
    rw [hr] at h hleft
    cases h
    obtain ⟨hl, hp, hv, _, _⟩ := hleft
    refine ⟨⟨hl.channel, hl.vertices, hl.edges⟩, hp, ⟨hv, ?_⟩, rfl⟩
    refine forall_unexplored_iff.mpr fun i => ?_
    by_cases hi : i < o.edges.size
    · exact repriceAll_unseen hr (Or.inl (List.mem_range.mpr hi))
    · intro mark hm
      have hsize : o₁.edges.size = o.edges.size := by
        simpa [leftBehind] using congrArg Array.size hl.edges
      have hlt := (Array.getElem?_eq_some_iff.mp hm).1
      change i < o₁.edges.size at hlt
      omega

theorem reset_eq_error {failure : Failure κ} {o' : Overlay V E κ}
    (h : o.reset g = .error (failure, o')) :
    SameLayout o o' ∧ (o.Priced → o'.Priced) ∧ (o.Blank → o'.Blank) ∧ o'.used = o.used := by
  have hleft := o.repriceAll_leftBehind g (List.range o.edges.size)
  rw [reset] at h
  cases hr : (List.range o.edges.size).foldlM (fun o i => o.reprice g i) o.clearHops with
  | ok o₁ =>
    rw [hr] at h
    cases h
  | error e =>
    rw [hr] at h hleft
    cases h
    obtain ⟨hl, hp, hv, hu, hused⟩ := hleft
    refine ⟨hl, hp, fun hb => ⟨hv, ?_⟩, hused⟩
    exact forall_unexplored_iff.mpr fun i => hu i (forall_unexplored_iff.mp hb.edges i)

/-- An overlay is sound after a reset, even after one that failed half way. -/
theorem Sound.reset (h : o.Sound g) : (leftBehind (o.reset g)).Sound g := by
  cases hr : o.reset g with
  | ok o' =>
    obtain ⟨hl, hp, hb, _⟩ := reset_eq_ok hr
    exact ⟨hl.fits h.fits, hp h.priced, fun _ => hb⟩
  | error e =>
    obtain ⟨failure, o'⟩ := e
    obtain ⟨hl, hp, hb, hused⟩ := reset_eq_error hr
    refine ⟨hl.fits h.fits, hp h.priced, fun hu => hb (h.tidy ?_)⟩
    rw [← hused]
    exact hu

theorem channel_reset (o : Overlay V E κ) (g : Graph V E) :
    (leftBehind (o.reset g)).channel = o.channel := by
  cases hr : o.reset g with
  | ok o' => exact (reset_eq_ok hr).1.channel
  | error e => exact (reset_eq_error hr).1.channel

/-- An overlay is readied by a reset, or by nothing if it has not been used. -/
theorem beginRun_eq_ok (h : o.beginRun g = .ok o') :
    (o.used = false ∧ o' = { o with used := true }) ∨
      (o.used = true ∧ ∃ o₁, o.reset g = .ok o₁ ∧ o' = { o₁ with used := true }) := by
  rw [beginRun] at h
  cases hu : o.used with
  | false =>
    simp only [hu, Bool.false_eq_true, if_false, pure, bind, Except.pure, Except.bind] at h
    exact Or.inl ⟨rfl, (Except.ok.inj h).symm⟩
  | true =>
    simp only [hu, if_true, bind, Except.bind] at h
    cases hr : o.reset g with
    | error e =>
      rw [hr] at h
      cases h
    | ok o₁ =>
      rw [hr] at h
      exact Or.inr ⟨rfl, o₁, rfl, (Except.ok.inj h).symm⟩

theorem beginRun_eq_error {failure : Failure κ} (h : o.beginRun g = .error (failure, o')) :
    o.used = true ∧ o.reset g = .error (failure, o') := by
  rw [beginRun] at h
  cases hu : o.used with
  | false =>
    simp only [hu, Bool.false_eq_true, if_false, pure, bind, Except.pure, Except.bind] at h
    cases h
  | true =>
    simp only [hu, if_true, bind, Except.bind] at h
    cases hr : o.reset g with
    | error e =>
      rw [hr] at h
      cases h
      exact ⟨rfl, rfl⟩
    | ok o₁ =>
      rw [hr] at h
      cases h

theorem sameLayout_beginRun (h : o.beginRun g = .ok o') : SameLayout o o' := by
  obtain ⟨_, rfl⟩ | ⟨_, o₁, hr, rfl⟩ := beginRun_eq_ok h
  · exact ⟨rfl, rfl, rfl⟩
  · have hl := (reset_eq_ok hr).1
    exact ⟨hl.channel, hl.vertices, hl.edges⟩

/-- A search begins on blank marks. -/
theorem Sound.beginRun_eq_ok (h : o.Sound g) {o' : Overlay V E κ} (hb : o.beginRun g = .ok o') :
    SameLayout o o' ∧ o'.Priced ∧ o'.Blank ∧ o'.used = true := by
  refine ⟨sameLayout_beginRun hb, ?_⟩
  obtain ⟨hu, rfl⟩ | ⟨_, o₁, hr, rfl⟩ := Overlay.beginRun_eq_ok hb
  · have hblank := h.tidy hu
    exact ⟨h.priced, ⟨hblank.vertices, hblank.edges⟩, rfl⟩
  · obtain ⟨_, hp, hblank, _⟩ := reset_eq_ok hr
    exact ⟨hp h.priced, ⟨hblank.vertices, hblank.edges⟩, rfl⟩

theorem Sound.beginRun (h : o.Sound g) : (leftBehind (o.beginRun g)).Sound g := by
  cases hb : o.beginRun g with
  | ok o' =>
    obtain ⟨hl, hp, hblank, _⟩ := h.beginRun_eq_ok hb
    exact ⟨hl.fits h.fits, hp, fun _ => hblank⟩
  | error e =>
    have hs := h.reset
    rw [(beginRun_eq_error hb).2] at hs
    exact hs

theorem channel_beginRun (o : Overlay V E κ) (g : Graph V E) :
    (leftBehind (o.beginRun g)).channel = o.channel := by
  have hreset := o.channel_reset g
  cases hb : o.beginRun g with
  | ok o' =>
    obtain ⟨_, rfl⟩ | ⟨_, o₁, hr, rfl⟩ := beginRun_eq_ok hb
    · rfl
    · rw [hr] at hreset
      exact hreset
  | error e =>
    rw [(beginRun_eq_error hb).2] at hreset
    exact hreset

end Overlay

end Waymark
