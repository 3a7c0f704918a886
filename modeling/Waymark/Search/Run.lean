import Waymark.Search.Lemmas

namespace Waymark

namespace Frontier

variable {κ : Type} [Cost κ]

theorem length_insertByKey (q : Queued κ) (rs : List (Queued κ)) :
    (insertByKey q rs).length = rs.length + 1 := by
  induction rs with
  | nil => rfl
  | cons r rs ih =>
    unfold insertByKey
    split <;> simp [ih]

@[simp] theorem size_push (f : Frontier κ) (e : EdgeId) (key : κ) :
    (f.push e key).size = f.size + 1 := by
  unfold push
  split <;> simp [size, length_insertByKey]

end Frontier

namespace Search

variable {V E κ : Type} [Cost κ] {g : Graph V E} {halts : Search V E κ → Queued κ → Bool}
  {s s' : Search V E κ} {e : EdgeId}

omit [Cost κ] in
/-- The most edges that the search can still explore: those waiting and those not seen. -/
def remaining (s : Search V E κ) : Nat := s.overlay.unexplored + s.frontier.size

theorem remaining_explore_le (s : Search V E κ) (e : EdgeId) :
    (s.explore g e).remaining ≤ s.remaining := by
  refine explore_induct (P := fun s' => s'.remaining ≤ s.remaining) (fun s' e mark key hm hu h => ?_)
    (fun s' v hop? h => ?_) (fun s' e h => ?_) (Nat.le_refl _) e
  · have hd : EdgeState.discovered ≠ .unexplored := by decide
    have hmoved := Overlay.unexplored_setState_of_unexplored hm hu hd
    simp only [remaining, Frontier.size_push] at h ⊢
    omega
  · simpa [remaining, Overlay.unexplored] using h
  · have he : EdgeState.explored ≠ .unexplored := by decide
    exact Nat.le_trans (Nat.add_le_add_right (s'.overlay.unexplored_setState_le g e he) _) h

/-- Each edge explored uses up one of those that remained. -/
theorem remaining_lt_of_stepUnless (h : s.stepUnless halts g = (.expanded e, s')) :
    s'.remaining < s.remaining := by
  unfold stepUnless at h
  split at h
  · cases h
  · split at h
    · cases h
    · split at h
      · cases h
      · rename_i q frontier hp
        split at h
        · cases h
        · cases h
          refine Nat.lt_of_le_of_lt (remaining_explore_le _ _) ?_
          unfold Frontier.pop? at hp
          split at hp
          · cases hp
          · rename_i hq
            cases hp
            simp [remaining, Frontier.size, hq]

theorem remaining_lt_of_step (h : s.step g = (.expanded e, s')) : s'.remaining < s.remaining :=
  remaining_lt_of_stepUnless h

/-- Steps until the search is finished or at its limit, and what the last step came to. -/
def exhaustUnless (halts : Search V E κ → Queued κ → Bool) (s : Search V E κ) (g : Graph V E) :
    Step × Search V E κ :=
  match _h : s.stepUnless halts g with
  | (.expanded _, s') => s'.exhaustUnless halts g
  | (last, s') => (last, s')
termination_by s.remaining
decreasing_by exact remaining_lt_of_stepUnless _h

def exhaust (s : Search V E κ) (g : Graph V E) : Step × Search V E κ :=
  s.exhaustUnless (fun s q => s.beaten g q) g

omit [Cost κ] in
/-- What a search gives back after its last step: the path and the overlay, or the overlay alone at
the limit. -/
def conclude (g : Graph V E) : Step × Search V E κ →
    Except (Failure κ × Overlay V E κ) (Path κ × Overlay V E κ)
  | (.limitReached limit, s) => .error (.expansionLimit limit, s.overlay)
  | (_, s) =>
    match s.path g with
    | .ok path => .ok (path, s.overlay)
    | .error failure => .error (failure, s.overlay)

/-- Steps to the end. -/
def runUnless (halts : Search V E κ → Queued κ → Bool) (s : Search V E κ) (g : Graph V E) :
    Except (Failure κ × Overlay V E κ) (Path κ × Overlay V E κ) :=
  conclude g (s.exhaustUnless halts g)

def run (s : Search V E κ) (g : Graph V E) :
    Except (Failure κ × Overlay V E κ) (Path κ × Overlay V E κ) :=
  s.runUnless (fun s q => s.beaten g q) g

theorem run_eq_conclude (s : Search V E κ) (g : Graph V E) : s.run g = conclude g (s.exhaust g) :=
  rfl

theorem exhaustUnless_of_expanded (h : s.stepUnless halts g = (.expanded e, s')) :
    s.exhaustUnless halts g = s'.exhaustUnless halts g := by
  rw [exhaustUnless]
  split
  · rename_i h'
    rw [h] at h'
    cases h'
    rfl
  · rename_i hne h'
    rw [h] at h'
    cases h'
    exact (hne e rfl).elim

theorem exhaustUnless_of_ended (h : ∀ e, (s.stepUnless halts g).1 ≠ .expanded e) :
    s.exhaustUnless halts g = s.stepUnless halts g := by
  rw [exhaustUnless]
  split
  · rename_i e s' h'
    rw [h'] at h
    exact (h e rfl).elim
  · rename_i h'
    exact h'.symm

theorem exhaustUnless_of_finished (h : s.stepUnless halts g = (.finished, s')) :
    s.exhaustUnless halts g = (.finished, s') := by
  rw [exhaustUnless_of_ended (fun e he => ?_), h]
  rw [h] at he
  cases he

omit [Cost κ] in
theorem conclude_of_finished {path : Path κ} (h : s.path g = .ok path) :
    conclude g (.finished, s) = .ok (path, s.overlay) := by
  simp only [conclude, h]

/-- Every search comes to its end. -/
theorem steps_induct {motive : Search V E κ → Prop}
    (expanded : ∀ s s' e, s.step g = (.expanded e, s') → motive s' → motive s)
    (ended : ∀ s, (∀ e, (s.step g).1 ≠ .expanded e) → motive s) (s : Search V E κ) :
    motive s := by
  fun_induction exhaustUnless (fun s q => s.beaten g q) s g with
  | case1 s e s' h ih => exact expanded s s' e h ih
  | case2 s last s' hne h => exact ended s fun e he => hne e (he.symm.trans (congrArg Prod.fst h)).symm

end Search

/-- Searches for a way from `source` to `destination`. -/
def Overlay.search {V E κ : Type} [Cost κ] (o : Overlay V E κ) (g : Graph V E)
    (source destination : VertexId) (config : SearchConfig) :
    Except (Failure κ × Overlay V E κ) (Path κ × Overlay V E κ) := do
  let s ← Search.start o g source destination config
  s.run g

end Waymark
