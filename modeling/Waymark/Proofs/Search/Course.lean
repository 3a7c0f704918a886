import Mathlib.Logic.Function.Iterate
import Waymark.Proofs.Overlay.Renewal
import Waymark.Search.Run

namespace Waymark.Search

open Overlay (Touched)

variable {V E κ : Type} [Cost κ] {g : Graph V E}

/-- What does not change while a search is under way, apart from what is written into the marks. -/
structure Follows (g : Graph V E) (s s' : Search V E κ) : Prop where
  touched : Touched g s.overlay s'.overlay
  source : s'.source = s.source
  destination : s'.destination = s.destination
  limit : s'.maxExpansions? = s.maxExpansions?
  kind : s'.frontier.kind = s.frontier.kind

/-- The same within a step, where the search does not come to its end either, and what is explored has
been counted before. -/
structure Works (g : Graph V E) (s s' : Search V E κ) : Prop extends Follows g s s' where
  finished : s'.finished = s.finished
  expansions : s'.expansions = s.expansions

variable {s s' s'' : Search V E κ}

omit [Cost κ] in
theorem Follows.refl (s : Search V E κ) : Follows g s s := ⟨.refl, rfl, rfl, rfl, rfl⟩

omit [Cost κ] in
theorem Follows.trans (h : Follows g s s') (h' : Follows g s' s'') : Follows g s s'' :=
  ⟨h.touched.trans h'.touched, h'.source.trans h.source, h'.destination.trans h.destination,
    h'.limit.trans h.limit, h'.kind.trans h.kind⟩

omit [Cost κ] in
theorem Works.refl (s : Search V E κ) : Works g s s := ⟨.refl s, rfl, rfl⟩

omit [Cost κ] in
theorem Works.write (h : Works g s s') (v : VertexId) (hop? : Option (Hop κ)) :
    Works g s { s' with overlay := s'.overlay.setHop g v hop? } :=
  ⟨⟨h.touched.setHop v hop?, h.source, h.destination, h.limit, h.kind⟩, h.finished, h.expansions⟩

theorem kind_push (f : Frontier κ) (e : EdgeId) (key : κ) : (f.push e key).kind = f.kind := by
  rw [Frontier.push]
  split <;> rfl

theorem Works.discover (h : Works g s s') (e : EdgeId) (key : κ) :
    Works g s { s' with
      overlay := s'.overlay.setState g e .discovered
      frontier := s'.frontier.push e key } :=
  ⟨⟨h.touched.setState e _, h.source, h.destination, h.limit, (kind_push _ e key).trans h.kind⟩,
    h.finished, h.expansions⟩

theorem works_relax (s : Search V E κ) (a b : VertexId) (e : EdgeId) (cost : κ) :
    Works g s (s.relax g a b e cost) :=
  relax_induct (fun _ v hop? h => h.write v hop?) (.refl s) a b e cost

theorem works_relaxEnds (s : Search V E κ) (edge : Edge E) (cost : κ) :
    Works g s (s.relaxEnds g edge cost) :=
  relaxEnds_induct (fun _ v hop? h => h.write v hop?) (.refl s) edge cost

theorem works_discover (s : Search V E κ) (base : κ) (e : EdgeId) :
    Works g s (s.discover g base e) :=
  discover_induct (fun _ e _ key _ _ h => h.discover e key) (.refl s) base e

theorem works_expand (s : Search V E κ) (v : VertexId) : Works g s (s.expand g v) :=
  expand_induct (fun _ e _ key _ _ h => h.discover e key) (.refl s) v

theorem works_expandEnds (s : Search V E κ) (edge : Edge E) :
    Works g s (s.expandEnds g edge) :=
  expandEnds_induct (fun _ e _ key _ _ h => h.discover e key) (.refl s) edge

theorem works_explore (s : Search V E κ) (e : EdgeId) : Works g s (s.explore g e) :=
  explore_induct (fun _ e _ key _ _ h => h.discover e key) (fun _ v hop? h => h.write v hop?)
    (fun _ e h => ⟨⟨h.touched.setState e _, h.source, h.destination, h.limit, h.kind⟩, h.finished,
      h.expansions⟩) (.refl s) e

omit [Cost κ] in
theorem kind_pop? {f f' : Frontier κ} {q : Queued κ} (h : f.pop? = some (q, f')) :
    f'.kind = f.kind := by
  rw [Frontier.pop?] at h
  split at h
  · cases h
  · cases h
    rfl

theorem step_of_finished (hf : s.finished = true) : s.step g = (.finished, s) := by
  rw [step, stepUnless, if_pos hf]

theorem step_at_limit {limit : Nat} (hf : s.finished = false)
    (hl : s.limitReached? = some limit) : s.step g = (.limitReached limit, s) := by
  rw [step, stepUnless, hl, hf]
  rfl

theorem follows_step (s : Search V E κ) : Follows g s (s.step g).2 := by
  rw [step, stepUnless]
  split
  · exact .refl s
  · split
    · exact .refl s
    · split
      · exact ⟨.refl, rfl, rfl, rfl, rfl⟩
      · rename_i q frontier hp
        dsimp only
        split
        · exact ⟨.refl, rfl, rfl, rfl, kind_pop? hp⟩
        · have h := works_explore (g := g)
            { s with frontier, expansions := s.expansions + 1 } q.edge
          exact ⟨h.touched, h.source, h.destination, h.limit, h.kind.trans (kind_pop? hp)⟩

/-- The search after a number of steps, some of which may have come to nothing. -/
def after (s : Search V E κ) (g : Graph V E) (n : Nat) : Search V E κ :=
  (fun s => (s.step g).2)^[n] s

theorem after_succ (s : Search V E κ) (n : Nat) :
    s.after g (n + 1) = ((s.after g n).step g).2 :=
  Function.iterate_succ_apply' _ n s

theorem after_of_step {last : Step} (h : s.step g = (last, s')) (n : Nat) :
    s.after g (n + 1) = s'.after g n := by
  rw [after, Function.iterate_succ_apply, h]
  rfl

theorem follows_after (s : Search V E κ) (n : Nat) : Follows g s (s.after g n) := by
  induction n with
  | zero => exact .refl s
  | succ n ih =>
    rw [after_succ]
    exact ih.trans (follows_step _)

theorem after_add (s : Search V E κ) (k n : Nat) :
    (s.after g k).after g n = s.after g (n + k) :=
  (Function.iterate_add_apply _ n k s).symm

theorem exhaust_of_expanded {e : EdgeId} (h : s.step g = (.expanded e, s')) :
    s.exhaust g = s'.exhaust g :=
  exhaustUnless_of_expanded h

theorem exhaust_of_ended (h : ∀ e, (s.step g).1 ≠ .expanded e) : s.exhaust g = s.step g :=
  exhaustUnless_of_ended h

theorem exhaust_of_finished {s : Search V E κ} (h : (s.step g).1 = .finished) :
    s.exhaust g = (.finished, s.after g 1) := by
  rw [exhaust_of_ended fun e he => by rw [h] at he; cases he]
  exact Prod.ext h rfl

/-- Where a search ends is where the first step that explores nothing leads. -/
theorem exhaust_eq_first (s : Search V E κ) :
    ∃ n, s.exhaust g = (((s.after g n).step g).1, s.after g (n + 1)) ∧
      (∀ e, ((s.after g n).step g).1 ≠ .expanded e) ∧
      ∀ k < n, ∃ e, ((s.after g k).step g).1 = .expanded e := by
  induction s using steps_induct with
  | expanded s s' e h ih =>
    obtain ⟨n, hn, hlast, hearlier⟩ := ih
    have hafter := after_of_step h
    refine ⟨n + 1, ?_, ?_, fun k hk => ?_⟩
    · rw [exhaust_of_expanded h, hn, hafter, hafter]
    · rw [hafter]
      exact hlast
    · cases k with
      | zero => exact ⟨e, congrArg Prod.fst h⟩
      | succ k =>
        rw [hafter]
        exact hearlier k (Nat.lt_of_succ_lt_succ hk)
  | ended s h => exact ⟨0, exhaust_of_ended h, h, fun k hk => (Nat.not_lt_zero k hk).elim⟩

theorem exhaust_eq_after (s : Search V E κ) :
    ∃ n, s.exhaust g = (((s.after g n).step g).1, s.after g (n + 1)) ∧
      ∀ e, ((s.after g n).step g).1 ≠ .expanded e := by
  obtain ⟨n, hn, hlast, _⟩ := s.exhaust_eq_first (g := g)
  exact ⟨n, hn, hlast⟩

/-- The edges that a search explores from here on, one after another, until it ends. -/
def exploration (s : Search V E κ) (g : Graph V E) : List EdgeId :=
  match _h : s.step g with
  | (.expanded e, s') => e :: s'.exploration g
  | _ => []
termination_by s.remaining
decreasing_by exact remaining_lt_of_step _h

theorem exploration_of_expanded {e : EdgeId} (h : s.step g = (.expanded e, s')) :
    s.exploration g = e :: s'.exploration g := by
  rw [exploration]
  split
  · rename_i h'
    rw [h] at h'
    cases h'
    rfl
  · rename_i hne
    exact (hne e s' h).elim

theorem exploration_of_ended (h : ∀ e, (s.step g).1 ≠ .expanded e) : s.exploration g = [] := by
  rw [exploration]
  split
  · rename_i e _ h'
    exact (h e (congrArg Prod.fst h')).elim
  · rfl

/-! What a search gives back -/

section Conclude

omit [Cost κ]

variable {last : Step × Search V E κ} {path : Path κ} {o : Overlay V E κ}

theorem givenBack_conclude (last : Step × Search V E κ) :
    givenBack (conclude g last) = last.2.overlay := by
  unfold conclude
  split
  · rfl
  · split <;> rfl

theorem conclude_eq_ok (h : conclude g last = .ok (path, o)) :
    o = last.2.overlay ∧ last.2.path g = .ok path := by
  unfold conclude at h
  split at h
  · cases h
  · split at h
    · cases h
      exact ⟨rfl, ‹_›⟩
    · cases h

theorem conclude_eq_error {failure : Failure κ} (h : conclude g last = .error (failure, o)) :
    o = last.2.overlay ∧
      ((∃ limit, failure = .expansionLimit limit) ∨ last.2.path g = .error failure) := by
  unfold conclude at h
  split at h
  · cases h
    exact ⟨rfl, Or.inl ⟨_, rfl⟩⟩
  · split at h
    · cases h
    · cases h
      exact ⟨rfl, Or.inr ‹_›⟩

end Conclude

/-- The overlay that a search gives back is that of some step. -/
theorem givenBack_run (s : Search V E κ) :
    ∃ n, givenBack (s.run g) = (s.after g n).overlay := by
  obtain ⟨n, hn, _⟩ := s.exhaust_eq_after (g := g)
  exact ⟨n + 1, by rw [run_eq_conclude, hn, givenBack_conclude]⟩

theorem touched_run (s : Search V E κ) : Touched g s.overlay (givenBack (s.run g)) := by
  obtain ⟨n, hn⟩ := s.givenBack_run (g := g)
  rw [hn]
  exact (s.follows_after n).touched

/-- A path that a search returns is that of its last step. -/
theorem run_eq_ok {s : Search V E κ} {path : Path κ} {o : Overlay V E κ}
    (h : s.run g = .ok (path, o)) :
    ∃ n, o = (s.after g n).overlay ∧ o.pathTo g s.destination = .ok path := by
  obtain ⟨n, hn, _⟩ := s.exhaust_eq_after (g := g)
  rw [run_eq_conclude, hn] at h
  obtain ⟨rfl, hpath⟩ := conclude_eq_ok h
  refine ⟨n + 1, rfl, ?_⟩
  rw [← (s.follows_after (g := g) (n + 1)).destination]
  exact hpath

/-- A search that fails came to its limit, or the way to its destination cannot be told. -/
theorem run_eq_error {s : Search V E κ} {failure : Failure κ} {o : Overlay V E κ}
    (h : s.run g = .error (failure, o)) :
    ∃ n, o = (s.after g n).overlay ∧
      ((∃ limit, failure = .expansionLimit limit) ∨ o.pathTo g s.destination = .error failure) := by
  obtain ⟨n, hn, _⟩ := s.exhaust_eq_after (g := g)
  rw [run_eq_conclude, hn] at h
  obtain ⟨rfl, hpath⟩ := conclude_eq_error h
  refine ⟨n + 1, rfl, ?_⟩
  rw [← (s.follows_after (g := g) (n + 1)).destination]
  exact hpath

end Waymark.Search
