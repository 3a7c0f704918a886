import Waymark.Proofs.Search.Optimal

namespace Waymark

namespace Ways

variable {E κ : Type} [Cost κ]

/-- Whether `b` is reached anew when an edge is walked from `a`. -/
def improves (w : Ways κ) (source a b : VertexId) (cost : κ) : Bool :=
  b ≠ source && (w.total? source a).any fun base => !((w b).map Hop.cost).any (· ≤ base + cost)

/-- The ends of an edge that are reached anew when it is walked, one after the other. -/
def written (w : Ways κ) (source : VertexId) (edge : Edge E) (cost : κ) : List VertexId :=
  let w' := w.relax source edge.tail edge.head edge.id cost
  let back := edge.isBidirectional && edge.tail ≠ source
  (if w.improves source edge.tail edge.head cost then [edge.head] else []) ++
    if back && w'.improves source edge.head edge.tail cost then [edge.tail] else []

end Ways

namespace Search

variable {V E κ : Type} [Cost κ] {g : Graph V E} {halts : Search V E κ → Queued κ → Bool}
  {s s' : Search V E κ} {q : Queued κ} {rest : List (Queued κ)}

/-- Walking an edge writes to the mark of the vertex reached anew, and to no other. -/
theorem relax_eq (s : Search V E κ) (g : Graph V E) (a b : VertexId) (e : EdgeId) (cost : κ) :
    s.relax g a b e cost =
      if (s.overlay.ways g).improves s.source a b cost then
        let hop : Hop κ := ⟨a, e, (s.reached? g a).getD 0 + cost⟩
        { s with overlay := s.overlay.setHop g b (some hop) }
      else s := by
  have htotal : (s.overlay.ways g).total? s.source a = s.reached? g a := rfl
  have hhop : s.overlay.ways g b = s.overlay.hop? g b := rfl
  rw [relax, Ways.improves, htotal, hhop]
  by_cases hb : b = s.source
  · simp [hb]
  · cases s.reached? g a with
    | none => simp [hb]
    | some base =>
      cases s.overlay.hop? g b with
      | none => simp [hb]
      | some known =>
        by_cases hle : known.cost ≤ base + cost
        · simp [hb, hle]
        · simp [hb, hle]

/-! Searches that come to their end by any test, or by none -/

/-- The searches from which a step is made, until one explores nothing. -/
def course (halts : Search V E κ → Queued κ → Bool) (s : Search V E κ) (g : Graph V E) :
    List (Search V E κ) :=
  s :: match _h : s.stepUnless halts g with
    | (.expanded _, s') => s'.course halts g
    | _ => []
termination_by s.remaining
decreasing_by exact remaining_lt_of_stepUnless _h

theorem course_of_expanded {e : EdgeId} (h : s.stepUnless halts g = (.expanded e, s')) :
    s.course halts g = s :: s'.course halts g := by
  rw [course]
  split
  · rename_i h'
    rw [h] at h'
    cases h'
    rfl
  · rename_i hne
    exact (hne e s' h).elim

theorem course_of_finished (h : s.stepUnless halts g = (.finished, s')) :
    s.course halts g = [s] := by
  rw [course]
  split
  · rename_i h'
    rw [h] at h'
    cases h'
  · rfl

/-- What the next step takes from the frontier. -/
def taken? (s : Search V E κ) : Option (Queued κ) :=
  if s.finished || s.limitReached?.isSome then none else s.frontier.pop?.map Prod.fst

/-- The vertices whose marks the next step writes to. -/
def written (halts : Search V E κ → Queued κ → Bool) (s : Search V E κ) (g : Graph V E) :
    List VertexId :=
  match (s.stepUnless halts g).1 with
  | .expanded e =>
    match g.edges.get? e with
    | some edge => (s.overlay.ways g).written s.source edge (s.overlay.cost g e)
    | none => []
  | _ => []

/-- The edges taken from the frontier one after another. -/
def pops (halts : Search V E κ → Queued κ → Bool) (s : Search V E κ) (g : Graph V E) :
    List (Queued κ) :=
  (s.course halts g).filterMap taken?

/-- The vertices whose marks are written to one after another. -/
def writes (halts : Search V E κ → Queued κ → Bool) (s : Search V E κ) (g : Graph V E) :
    List VertexId :=
  (s.course halts g).flatMap fun s => s.written halts g

omit [Cost κ] in
theorem limitReached?_eq_none (h : s.maxExpansions? = none) : s.limitReached? = none := by
  rw [limitReached?, h]
  rfl

/-! Short of its limit a search goes by the frontier and the test alone. -/

section Underway

variable (hf : s.finished = false) (hl : s.limitReached? = none)

include hf hl

omit [Cost κ] in
theorem taken?_eq : s.taken? = s.frontier.queue.head? := by
  rw [taken?, hf, hl, Frontier.pop?]
  cases s.frontier.queue <;> rfl

theorem stepUnless_of_dry (hq : s.frontier.queue = []) :
    s.stepUnless halts g = (.finished, { s with finished := true }) := by
  have hpop : s.frontier.pop? = none := by rw [Frontier.pop?, hq]
  rw [stepUnless]
  rw [hf, hl, hpop]
  rfl

theorem stepUnless_of_halted (hq : s.frontier.queue = q :: rest) (hh : halts s q = true) :
    s.stepUnless halts g = (.finished,
      { s with frontier := { s.frontier with queue := rest }, finished := true }) := by
  have hpop : s.frontier.pop? = some (q, { s.frontier with queue := rest }) := by
    rw [Frontier.pop?, hq]
  rw [stepUnless]
  rw [hf, hl, hpop]
  dsimp only
  rw [hh]
  rfl

theorem stepUnless_of_waiting (hq : s.frontier.queue = q :: rest) (hh : halts s q = false) :
    s.stepUnless halts g = (.expanded q.edge, (s.popped rest).explore g q.edge) := by
  have hpop : s.frontier.pop? = some (q, { s.frontier with queue := rest }) := by
    rw [Frontier.pop?, hq]
  rw [stepUnless, popped]
  rw [hf, hl, hpop]
  dsimp only
  rw [hh]
  rfl

theorem pops_of_dry (hq : s.frontier.queue = []) : s.pops halts g = [] := by
  rw [pops, course_of_finished (stepUnless_of_dry hf hl hq), List.filterMap_cons,
    taken?_eq hf hl, hq]
  rfl

theorem pops_of_halted (hq : s.frontier.queue = q :: rest) (hh : halts s q = true) :
    s.pops halts g = [q] := by
  rw [pops, course_of_finished (stepUnless_of_halted hf hl hq hh), List.filterMap_cons,
    taken?_eq hf hl, hq]
  rfl

theorem pops_of_waiting (hq : s.frontier.queue = q :: rest) (hh : halts s q = false) :
    s.pops halts g = q :: ((s.popped rest).explore g q.edge).pops halts g := by
  rw [pops, course_of_expanded (stepUnless_of_waiting hf hl hq hh), List.filterMap_cons,
    taken?_eq hf hl, hq]
  rfl

theorem writes_of_dry (hq : s.frontier.queue = []) : s.writes halts g = [] := by
  have hstep : s.stepUnless halts g = _ := stepUnless_of_dry hf hl hq
  rw [writes, course_of_finished hstep, List.flatMap_singleton, written, hstep]

theorem writes_of_halted (hq : s.frontier.queue = q :: rest) (hh : halts s q = true) :
    s.writes halts g = [] := by
  have hstep := stepUnless_of_halted (g := g) hf hl hq hh
  rw [writes, course_of_finished hstep, List.flatMap_singleton, written, hstep]

theorem writes_of_waiting (hq : s.frontier.queue = q :: rest) (hh : halts s q = false)
    {edge : Edge E} (hedge : g.edges.get? q.edge = some edge) :
    s.writes halts g =
      (s.overlay.ways g).written s.source edge (s.overlay.cost g q.edge) ++
        ((s.popped rest).explore g q.edge).writes halts g := by
  have hstep := stepUnless_of_waiting (g := g) hf hl hq hh
  rw [writes, course_of_expanded hstep, List.flatMap_cons, written, hstep]
  dsimp only
  rw [hedge]
  rfl

theorem step_of_dry (hq : s.frontier.queue = []) :
    s.step g = (.finished, { s with finished := true }) :=
  stepUnless_of_dry hf hl hq

theorem step_of_beaten (hq : s.frontier.queue = q :: rest) (hb : s.beaten g q = true) :
    s.step g = (.finished,
      { s with frontier := { s.frontier with queue := rest }, finished := true }) :=
  stepUnless_of_halted hf hl hq hb

/-- Nothing but an empty queue, a limit or a destination cheap enough keeps a search from its next
edge. -/
theorem step_of_waiting (hq : s.frontier.queue = q :: rest) (hb : s.beaten g q = false) :
    s.step g = (.expanded q.edge, (s.popped rest).explore g q.edge) :=
  stepUnless_of_waiting hf hl hq hb

end Underway

end Search

/-- A search that is cut short where `halts` says so. -/
def Overlay.searchUnless {V E κ : Type} [Cost κ] (halts : Search V E κ → Queued κ → Bool)
    (o : Overlay V E κ) (g : Graph V E) (source destination : VertexId) (config : SearchConfig) :
    Except (Failure κ × Overlay V E κ) (Path κ × Overlay V E κ) := do
  let s ← Search.start o g source destination config
  s.runUnless halts g

end Waymark
