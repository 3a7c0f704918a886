import Waymark.Proofs.Search.Account
import Waymark.Proofs.Search.Halting

namespace Waymark

namespace Search

variable {V E κ : Type} {g : Graph V E}

/-- The same search with another limit. -/
def withLimit (s : Search V E κ) (limit? : Option Nat) : Search V E κ :=
  { s with maxExpansions? := limit? }

/-! But for the test at the start of a step nothing is asked about the limit. -/

section Blind

variable [Cost κ] (s : Search V E κ) (limit? : Option Nat)

theorem relax_withLimit (a b : VertexId) (e : EdgeId) (cost : κ) :
    (s.withLimit limit?).relax g a b e cost = (s.relax g a b e cost).withLimit limit? := by
  rw [relax_eq, relax_eq s]
  show (if (s.overlay.ways g).improves s.source a b cost then _ else s.withLimit limit?) = _
  split <;> rfl

theorem discover_withLimit (base : κ) (e : EdgeId) :
    (s.withLimit limit?).discover g base e = (s.discover g base e).withLimit limit? := by
  have hmark : (s.withLimit limit?).overlay.edgeMark g e = s.overlay.edgeMark g e := rfl
  rw [discover, discover, hmark]
  cases s.overlay.edgeMark g e with
  | error failure => rfl
  | ok mark =>
    dsimp only
    split <;> rfl

theorem expand_withLimit (v : VertexId) :
    (s.withLimit limit?).expand g v = (s.expand g v).withLimit limit? := by
  have hreached : (s.withLimit limit?).reached? g v = s.reached? g v := rfl
  rw [expand, expand, hreached]
  cases g.vertices.get? v with
  | none => rfl
  | some x =>
    dsimp only
    generalize (s.reached? g v).getD 0 = base
    induction x.outgoing.edges generalizing s with
    | nil => rfl
    | cons e es ih =>
      rw [List.foldl_cons, List.foldl_cons, discover_withLimit]
      exact ih _ rfl

theorem relaxEnds_withLimit (edge : Edge E) (cost : κ) :
    (s.withLimit limit?).relaxEnds g edge cost = (s.relaxEnds g edge cost).withLimit limit? := by
  unfold relaxEnds
  dsimp only
  rw [relax_withLimit]
  split
  · rw [relax_withLimit, if_pos ‹_›]
  · rw [if_neg ‹_›]

theorem expandEnds_withLimit (edge : Edge E) :
    (s.withLimit limit?).expandEnds g edge = (s.expandEnds g edge).withLimit limit? := by
  unfold expandEnds
  dsimp only
  rw [expand_withLimit]
  split
  · exact expand_withLimit _ limit? edge.tail
  · rfl

theorem explore_withLimit (e : EdgeId) :
    (s.withLimit limit?).explore g e = (s.explore g e).withLimit limit? := by
  have hmark : (s.withLimit limit?).overlay.edgeMark g e = s.overlay.edgeMark g e := rfl
  rw [explore, explore, hmark]
  cases g.edges.get? e with
  | none => rfl
  | some edge =>
    cases s.overlay.edgeMark g e with
    | error failure => rfl
    | ok mark =>
      dsimp only
      rw [relaxEnds_withLimit, expandEnds_withLimit]
      rfl

variable {s limit?} {limit : Nat}

/-- Short of its limit a search steps as it would without one. -/
theorem step_withLimit (hl : s.maxExpansions? = none)
    (hshort : (s.withLimit limit?).limitReached? = none) :
    (s.withLimit limit?).step g = ((s.step g).1, (s.step g).2.withLimit limit?) := by
  have hstep := s.stepped g
  generalize s.step g = r at hstep
  cases hstep with
  | idle hf => exact step_of_finished (s := s.withLimit limit?) hf
  | atLimit _ hreached =>
    rw [limitReached?_eq_none hl] at hreached
    cases hreached
  | dry hf hq => exact step_of_dry (s := s.withLimit limit?) hf hshort hq
  | beaten hf hq hb => exact step_of_beaten (s := s.withLimit limit?) hf hshort hq hb
  | @explored q rest hf hq hb =>
    have hexplore := explore_withLimit (g := g) (s.popped rest) limit? q.edge
    rw [step_of_waiting (s := s.withLimit limit?) hf hshort hq hb, ← hexplore]
    rfl

end Blind

/-! A search with a limit, beside the same search without one -/

section Limited

variable [Cost κ] {s s' : Search V E κ} {limit allowed more n : Nat} {e : EdgeId}

omit [Cost κ] in
theorem limitReached?_withLimit (s : Search V E κ) (limit : Nat) :
    (s.withLimit (some limit)).limitReached? =
      if limit ≤ s.expansions ∧ s.frontier.isEmpty = false then some limit else none := by
  show (some limit).filter (fun limit => limit ≤ s.expansions && !s.frontier.isEmpty) = _
  simp [Option.filter_some]

theorem step_of_short (hl : s.maxExpansions? = none)
    (hshort : s.expansions < limit ∨ s.frontier.isEmpty = true) :
    (s.withLimit (some limit)).step g = ((s.step g).1, (s.step g).2.withLimit (some limit)) := by
  refine step_withLimit hl ?_
  rw [limitReached?_withLimit, if_neg]
  intro hreached
  obtain hlt | hempty := hshort
  · exact Nat.not_le_of_lt hlt hreached.1
  · rw [hempty] at hreached
    cases hreached.2

theorem step_of_reached (hf : s.finished = false) (hreached : limit ≤ s.expansions)
    (hwaiting : s.frontier.isEmpty = false) :
    (s.withLimit (some limit)).step g = (.limitReached limit, s.withLimit (some limit)) := by
  refine step_at_limit (s := s.withLimit (some limit)) hf ?_
  rw [limitReached?_withLimit, if_pos ⟨hreached, hwaiting⟩]

/-- A step that is refused by the limit leaves everything as it is, and so all that follow. -/
theorem step_of_limitReached (h : s.step g = (.limitReached limit, s')) :
    s' = s ∧ ∀ n, (s.after g n).step g = (.limitReached limit, s) := by
  have hstep := s.stepped g
  rw [h] at hstep
  cases hstep with
  | atLimit =>
    refine ⟨rfl, fun n => ?_⟩
    have hsame : s.after g n = s := by
      induction n with
      | zero => rfl
      | succ n ih => rw [after_succ, ih, h]
    rw [hsame, h]

theorem of_expanded (h : s.step g = (.expanded e, s')) :
    s.finished = false ∧ s.frontier.isEmpty = false ∧ s'.finished = false ∧
      s'.maxExpansions? = s.maxExpansions? ∧ s'.expansions = s.expansions + 1 := by
  have hstep := s.stepped g
  rw [h] at hstep
  cases hstep with
  | @explored q rest hf hq _ =>
    have hworks := (s.popped rest).works_explore (g := g) q.edge
    refine ⟨hf, ?_, hworks.finished.trans hf, hworks.limit, hworks.expansions⟩
    rw [Frontier.isEmpty, hq]
    rfl

theorem expansions_step_le (s : Search V E κ) (g : Graph V E) :
    (s.step g).2.expansions ≤ s.expansions + 1 := by
  have hstep := s.stepped g
  generalize s.step g = r at hstep
  cases hstep with
  | idle => exact Nat.le_succ _
  | atLimit => exact Nat.le_succ _
  | dry => exact Nat.le_succ _
  | beaten => exact Nat.le_succ _
  | explored => exact Nat.le_of_eq (works_explore _ _).expansions

theorem expansions_after_le (s : Search V E κ) (g : Graph V E) (n : Nat) :
    (s.after g n).expansions ≤ s.expansions + n := by
  induction n with
  | zero => exact Nat.le_refl _
  | succ n ih =>
    rw [after_succ]
    exact Nat.le_trans (expansions_step_le _ g) (Nat.succ_le_succ ih)

/-- As long as the limit allows for every step, it makes no difference. -/
theorem after_withLimit (hl : s.maxExpansions? = none) (hk : s.expansions + allowed = limit)
    (hn : n ≤ allowed) :
    (s.withLimit (some limit)).after g n = (s.after g n).withLimit (some limit) := by
  induction n with
  | zero => rfl
  | succ n ih =>
    have hlimit := (s.follows_after (g := g) n).limit.trans hl
    have hcount := s.expansions_after_le g n
    rw [after_succ, after_succ, ih (Nat.le_of_succ_le hn),
      step_of_short hlimit (Or.inl (by omega))]

theorem exploration_withLimit (hl : s.maxExpansions? = none) (hf : s.finished = false)
    (hk : s.expansions + allowed = limit) :
    (s.withLimit (some limit)).exploration g = (s.exploration g).take allowed := by
  induction s using steps_induct generalizing allowed with
  | expanded s s' e h ih =>
    obtain ⟨_, hwaiting, hf', hlimit, hcount⟩ := of_expanded h
    rw [exploration_of_expanded h]
    cases allowed with
    | zero =>
      have hstep := step_of_reached (g := g) hf (Nat.le_of_eq hk.symm) hwaiting
      exact exploration_of_ended fun e he => by rw [hstep] at he; cases he
    | succ allowed =>
      have hshort : s.expansions < limit := by omega
      have hstep := step_of_short (g := g) hl (Or.inl hshort)
      rw [h] at hstep
      have hrest := ih (hlimit.trans hl) hf' (show s'.expansions + allowed = limit by omega)
      rw [exploration_of_expanded hstep, hrest, List.take_succ_cons]
  | ended s hended =>
    rw [exploration_of_ended hended, List.take_nil]
    refine exploration_of_ended fun e he => ?_
    by_cases hreached : limit ≤ s.expansions ∧ s.frontier.isEmpty = false
    · rw [step_of_reached hf hreached.1 hreached.2] at he
      cases he
    · have hshort : s.expansions < limit ∨ s.frontier.isEmpty = true := by
        rw [not_and_or, Nat.not_le, Bool.not_eq_false] at hreached
        exact hreached
      rw [step_of_short hl hshort] at he
      exact hended e he

/-- So many edges are allowed for that the search comes to its end: more than it explores, or just
as many if then none is left waiting. -/
def Suffices (s : Search V E κ) (g : Graph V E) (allowed : Nat) : Prop :=
  (s.exploration g).length < allowed ∨ allowed = (s.exploration g).length ∧
    (s.after g (s.exploration g).length).frontier.isEmpty = true

instance : Decidable (s.Suffices g allowed) :=
  inferInstanceAs (Decidable (_ ∨ _ ∧ _))

theorem Suffices.mono (h : s.Suffices g allowed) (hle : allowed ≤ more) : s.Suffices g more := by
  obtain hlt | ⟨heq, hempty⟩ := h
  · exact Or.inl (Nat.lt_of_lt_of_le hlt hle)
  · obtain hlt | hsame := Nat.lt_or_eq_of_le hle
    · exact Or.inl (heq ▸ hlt)
    · exact Or.inr ⟨hsame ▸ heq, hempty⟩

theorem suffices_of_expanded (h : s.step g = (.expanded e, s')) :
    s.Suffices g (allowed + 1) ↔ s'.Suffices g allowed := by
  rw [Suffices, exploration_of_expanded h, List.length_cons, after_of_step h,
    Nat.succ_lt_succ_iff, Nat.succ_inj]
  rfl

/-- A search whose limit suffices ends as it would without one. Any other ends at its limit. -/
theorem exhaust_withLimit (hl : s.maxExpansions? = none) (hf : s.finished = false)
    (hk : s.expansions + allowed = limit) :
    (s.Suffices g allowed → (s.withLimit (some limit)).exhaust g =
      ((s.exhaust g).1, (s.exhaust g).2.withLimit (some limit))) ∧
    (¬ s.Suffices g allowed → (s.withLimit (some limit)).exhaust g =
      (.limitReached limit, (s.after g allowed).withLimit (some limit))) := by
  induction s using steps_induct generalizing allowed with
  | expanded s s' e h ih =>
    obtain ⟨_, hwaiting, hf', hlimit, hcount⟩ := of_expanded h
    cases allowed with
    | zero =>
      have hstep := step_of_reached (g := g) hf (Nat.le_of_eq hk.symm) hwaiting
      refine ⟨fun hsuffices => ?_, fun _ => ?_⟩
      · rw [Suffices, exploration_of_expanded h] at hsuffices
        simp at hsuffices
      · rw [exhaust_of_ended fun e he => by rw [hstep] at he; cases he]
        exact hstep
    | succ allowed =>
      have hshort : s.expansions < limit := by omega
      have hstep := step_of_short (g := g) hl (Or.inl hshort)
      have hrest := ih (hlimit.trans hl) hf' (show s'.expansions + allowed = limit by omega)
      rw [h] at hstep
      rw [suffices_of_expanded h, exhaust_of_expanded h, exhaust_of_expanded hstep, after_of_step h]
      exact hrest
  | ended s hended =>
    have hsuffices : s.Suffices g allowed ↔ 0 < allowed ∨ allowed = 0 ∧
        s.frontier.isEmpty = true := by
      rw [Suffices, exploration_of_ended hended]
      rfl
    rw [hsuffices]
    refine ⟨fun hshort => ?_, fun hreached => ?_⟩
    · have hstep : (s.withLimit (some limit)).step g =
          ((s.step g).1, (s.step g).2.withLimit (some limit)) :=
        step_of_short hl (hshort.imp (by omega) And.right)
      rw [exhaust_of_ended fun e he => hended e (by rw [← he, hstep]), hstep,
        exhaust_of_ended hended]
    · rw [not_or, not_and, Bool.not_eq_true, Nat.not_lt, Nat.le_zero] at hreached
      obtain ⟨rfl, hwaiting⟩ := hreached
      have hstep := step_of_reached (g := g) hf (Nat.le_of_eq hk.symm) (hwaiting rfl)
      rw [exhaust_of_ended fun e he => by rw [hstep] at he; cases he]
      exact hstep

theorem run_withLimit {limit? : Option Nat} (h : (s.withLimit limit?).exhaust g =
    ((s.exhaust g).1, (s.exhaust g).2.withLimit limit?)) :
    (s.withLimit limit?).run g = s.run g := by
  rw [run_eq_conclude, run_eq_conclude, h]
  generalize s.exhaust g = r
  obtain ⟨last, t⟩ := r
  cases last <;> rfl

end Limited

end Search

/-- With a limit a search explores the same edges in the same order as without, as far as the limit
allows for. It gives the same path if its limit suffices, and so with every greater limit; otherwise
it fails after just as many edges. A step that is refused by the limit leaves the search as it is,
and so do all that follow. -/
theorem Overlay.search_limited {V E κ : Type} [Cost κ] [LawfulCost κ] {g : Graph V E}
    {o o₁ : Overlay V E κ} (h : g.Hosts o) {config : SearchConfig}
    (hm : config.maxExpansions? = none) {a b : VertexId} (ha : g.vertices.contains a = true)
    (hb : g.vertices.contains b = true) (hne : a ≠ b) (ho : o.beginRun g = .ok o₁) :
    (∃ s path o₂, Search.start o g a b config = .ok s ∧
      o.search g a b config = .ok (path, o₂) ∧
      ∀ limit,
        Search.start o g a b (config.withMaxExpansions limit) = .ok (s.withLimit (some limit)) ∧
        (s.withLimit (some limit)).exploration g = (s.exploration g).take limit ∧
        (∀ n ≤ limit,
          (s.withLimit (some limit)).after g n = (s.after g n).withLimit (some limit)) ∧
        (o.search g a b (config.withMaxExpansions limit) = .ok (path, o₂) ↔
          s.Suffices g limit) ∧
        (¬ s.Suffices g limit →
          o.search g a b (config.withMaxExpansions limit) =
            .error (.expansionLimit limit, (s.after g limit).overlay) ∧
          ((s.withLimit (some limit)).exploration g).length = limit) ∧
        ∀ more ≥ limit, ∀ r, o.search g a b (config.withMaxExpansions limit) = .ok r →
          o.search g a b (config.withMaxExpansions more) = .ok r) ∧
    ∀ (s s' : Search V E κ) limit, s.step g = (.limitReached limit, s') →
      s' = s ∧ ∀ n, (s.after g n).step g = (.limitReached limit, s) := by
  refine ⟨?_, fun _ _ _ hstep => Search.step_of_limitReached hstep⟩
  obtain ⟨hstart, hbegun⟩ := Search.start_of_hosts h config ha hb hne ho
  have hworks := (Search.fresh o₁ g a b config).works_expand (g := g) a
  have hlimit := hworks.limit.trans hm
  have hf : ((Search.fresh o₁ g a b config).expand g a).finished = false := hworks.finished
  have hcount : ((Search.fresh o₁ g a b config).expand g a).expansions = 0 :=
    (Search.works_expand _ a).expansions
  have hlimited (limit : Nat) : Search.start o g a b (config.withMaxExpansions limit) =
      .ok (((Search.fresh o₁ g a b config).expand g a).withLimit (some limit)) := by
    rw [← Search.expand_withLimit]
    exact (Search.start_of_hosts h (config.withMaxExpansions limit) ha hb hne ho).1
  generalize (Search.fresh o₁ g a b config).expand g a = s at *
  obtain ⟨n, path, _, _, hsearch, _⟩ := hbegun.search_ends hstart hlimit hb
  have hallowed (limit : Nat) : s.expansions + limit = limit := by rw [hcount, Nat.zero_add]
  have hexploration (limit : Nat) :=
    Search.exploration_withLimit (g := g) hlimit hf (hallowed limit)
  have hends {limit : Nat} (hs : s.Suffices g limit) :
      o.search g a b (config.withMaxExpansions limit) = .ok (path, (s.after g n).overlay) := by
    rw [← hsearch, Overlay.search, Overlay.search, hlimited, hstart]
    exact Search.run_withLimit ((Search.exhaust_withLimit hlimit hf (hallowed limit)).1 hs)
  have hfails {limit : Nat} (hs : ¬ s.Suffices g limit) :
      o.search g a b (config.withMaxExpansions limit) =
        .error (.expansionLimit limit, (s.after g limit).overlay) := by
    rw [Overlay.search, hlimited]
    show (s.withLimit (some limit)).run g = _
    rw [Search.run_eq_conclude, (Search.exhaust_withLimit hlimit hf (hallowed limit)).2 hs]
    rfl
  have hsuffices {limit : Nat} {r : Path κ × Overlay V E κ}
      (hr : o.search g a b (config.withMaxExpansions limit) = .ok r) : s.Suffices g limit := by
    by_contra hs
    rw [hfails hs] at hr
    cases hr
  refine ⟨s, path, _, hstart, hsearch, fun limit => ⟨hlimited limit, hexploration limit,
    fun _ => Search.after_withLimit hlimit (hallowed limit), ⟨hsuffices, hends⟩, fun hs => ?_,
    fun more hmore r hr => ?_⟩⟩
  · refine ⟨hfails hs, ?_⟩
    rw [hexploration, List.length_take, Nat.min_eq_left]
    exact Nat.le_of_not_lt fun hlt => hs (Or.inl hlt)
  · rw [hends ((hsuffices hr).mono hmore), ← hr, hends (hsuffices hr)]

/-- On a detour by the order of keys the third edge leads to the destination, but two more are left
waiting then. So three edges are not enough, though a fourth is never explored. -/
theorem Overlay.search_limited_detour : ∃ (g : Graph Unit Float) (o o₂ : Overlay Unit Float Float)
    (s : Search Unit Float Float) (path : Path Float), g.Hosts o ∧
    Search.start o g ⟨0, 0⟩ ⟨1, 0⟩ { frontier := .costOrdered } = .ok s ∧
    s.exploration g = [⟨1, 0⟩, ⟨2, 0⟩, ⟨3, 0⟩] ∧
    o.search g ⟨0, 0⟩ ⟨1, 0⟩ { frontier := .costOrdered, maxExpansions? := some 3 } =
      .error (.expansionLimit 3, (s.after g 3).overlay) ∧
    o.search g ⟨0, 0⟩ ⟨1, 0⟩ { frontier := .costOrdered, maxExpansions? := some 4 } =
      .ok (path, o₂) := by
  have h : Search.detour.graph.Hosts _ :=
    ⟨Search.detour, ⟨_, rfl⟩, rfl, _, List.mem_cons_self, rfl⟩
  obtain ⟨⟨s, path, o₂, hs, _, hall⟩, _⟩ := Overlay.search_limited (a := ⟨0, 0⟩) (b := ⟨1, 0⟩)
    h (show SearchConfig.maxExpansions? { frontier := .costOrdered } = none from rfl) (by decide)
    (by decide) (by decide) rfl
  obtain ⟨_, o₁, ho, hfresh⟩ := Search.start_eq_ok.mp hs
  have ho₁ := Except.ok.inj ho
  subst ho₁
  obtain ⟨_, _, _, _, hfails, _⟩ := hall 3
  obtain ⟨_, _, _, hends, _⟩ := hall 4
  refine ⟨_, _, o₂, s, path, h, hs, ?_, (hfails ?_).1, hends.mpr ?_⟩ <;> rw [hfresh] <;>
    decide +kernel

end Waymark
