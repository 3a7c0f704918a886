import Waymark.Proofs.Graph.Walk
import Waymark.Proofs.Search.Start

namespace Waymark

/-- The last hop of the way to each vertex that has been reached. -/
abbrev Ways (κ : Type) := VertexId → Option (Hop κ)

namespace Ways

variable {κ : Type}

/-- The ways after `v` has been reached by a hop. -/
def reach (w : Ways κ) (v : VertexId) (hop : Hop κ) : Ways κ := Function.update w v (some hop)

@[simp] theorem reach_self (w : Ways κ) (v : VertexId) (hop : Hop κ) :
    w.reach v hop v = some hop := Function.update_self ..

theorem reach_of_ne (w : Ways κ) {v u : VertexId} (h : u ≠ v) (hop : Hop κ) :
    w.reach v hop u = w u := Function.update_of_ne h ..

/-- What a vertex has been reached by, once another or the same has been reached anew. -/
theorem reach_cases {w : Ways κ} {v u : VertexId} {hop hop' : Hop κ}
    (h : w.reach v hop u = some hop') : (u = v ∧ hop' = hop) ∨ (u ≠ v ∧ w u = some hop') := by
  by_cases huv : u = v
  · rw [huv, reach_self] at h
    cases h
    exact Or.inl ⟨huv, rfl⟩
  · rw [reach_of_ne _ huv] at h
    exact Or.inr ⟨huv, h⟩

variable [Cost κ]

/-- The cost at which a vertex has been reached, which is zero for the source. -/
def total? (w : Ways κ) (source v : VertexId) : Option κ :=
  if v = source then some 0 else (w v).map Hop.cost

/-- The ways after an edge has been walked from `a` to `b`. -/
def relax (w : Ways κ) (source a b : VertexId) (e : EdgeId) (cost : κ) : Ways κ :=
  if b = source then w
  else
    match w.total? source a with
    | none => w
    | some base =>
      if ((w b).map Hop.cost).any (· ≤ base + cost) then w else w.reach b ⟨a, e, base + cost⟩

/-- The ways after an edge has been walked from its tail and, if it is bidirectional, back. -/
def relaxEnds {E : Type} (w : Ways κ) (source : VertexId) (edge : Edge E) (cost : κ) : Ways κ :=
  let w := w.relax source edge.tail edge.head edge.id cost
  if edge.isBidirectional && edge.tail ≠ source then
    w.relax source edge.head edge.tail edge.id cost
  else w

/-- What becomes of the ways when an edge is walked from `a` to `b`. -/
inductive Relaxed (source a b : VertexId) (e : EdgeId) (cost : κ) (w : Ways κ) : Ways κ → Prop
  | toSource (hb : b = source) : Relaxed source a b e cost w w
  | unreached (ha : w.total? source a = none) : Relaxed source a b e cost w w
  | known {base : κ} {hop : Hop κ} (ha : w.total? source a = some base) (hb : w b = some hop)
    (hle : hop.cost ≤ base + cost) : Relaxed source a b e cost w w
  | improved {base : κ} (hb : b ≠ source) (ha : w.total? source a = some base)
    (hlt : ∀ hop, w b = some hop → ¬ hop.cost ≤ base + cost) :
    Relaxed source a b e cost w (w.reach b ⟨a, e, base + cost⟩)

theorem relaxed_relax (w : Ways κ) (source a b : VertexId) (e : EdgeId) (cost : κ) :
    Relaxed source a b e cost w (w.relax source a b e cost) := by
  rw [relax]
  split
  · exact .toSource ‹_›
  · rename_i hsource
    split
    · exact .unreached ‹_›
    · rename_i base hbase
      cases hb : w b with
      | none => exact .improved hsource hbase fun hop hhop => by simp [hb] at hhop
      | some known =>
        by_cases hle : known.cost ≤ base + cost
        · simp only [Option.map_some, Option.any_some, hle, decide_true, if_true]
          exact .known hbase hb hle
        · simp only [Option.map_some, Option.any_some, hle, decide_false]
          refine .improved hsource hbase fun hop hhop => ?_
          rw [hb] at hhop
          cases hhop
          exact hle

theorem total?_source (w : Ways κ) (source : VertexId) : w.total? source source = some 0 := by
  rw [total?, if_pos rfl]

theorem total?_of_ne (w : Ways κ) {source v : VertexId} (h : v ≠ source) :
    w.total? source v = (w v).map Hop.cost := by
  rw [total?, if_neg h]

theorem source_reached (w : Ways κ) (source : VertexId) : w.total? source source ≠ none := by
  rw [total?_source]
  simp

theorem reached_of_hop (w : Ways κ) (source : VertexId) {v : VertexId} {hop : Hop κ}
    (h : w v = some hop) : w.total? source v ≠ none := by
  by_cases hs : v = source
  · rw [hs]
    exact w.source_reached source
  · rw [total?_of_ne _ hs, h]
    simp

theorem total?_reach_self (w : Ways κ) {source v : VertexId} (hv : v ≠ source) (hop : Hop κ) :
    (w.reach v hop).total? source v = some hop.cost := by
  rw [total?_of_ne _ hv, reach_self]
  rfl

theorem total?_reach_of_ne (w : Ways κ) {source v u : VertexId} (h : u ≠ v) (hop : Hop κ) :
    (w.reach v hop).total? source u = w.total? source u := by
  rw [total?, total?, reach_of_ne _ h]

/-- Reaching a new vertex changes nothing for those that have been reached. -/
theorem total?_reach_kept {w : Ways κ} {source u b : VertexId} {total : κ}
    (hu : w.total? source u = some total) (hb : w.total? source b = none) (hop : Hop κ) :
    (w.reach b hop).total? source u = some total := by
  have hub : u ≠ b := by
    intro heq
    rw [heq, hb] at hu
    cases hu
  rw [total?_reach_of_ne w hub]
  exact hu

end Ways

namespace Overlay

variable {V E κ : Type} {o : Overlay V E κ} {g : Graph V E}

def ways (o : Overlay V E κ) (g : Graph V E) : Ways κ := o.hop? g

theorem Blank.ways (h : o.Blank) : o.ways g = fun _ => none := by
  funext v
  unfold Overlay.ways hop?
  cases hm : o.findVertex g v with
  | error failure => rfl
  | ok found =>
    obtain ⟨i, mark⟩ := found
    exact h.vertices mark (Array.mem_of_getElem? (findVertex_eq_ok.mp hm).2.1)

theorem Priced.cost_nonneg [Cost κ] [GrowingCost κ] (h : o.Priced) (e : EdgeId) :
    0 ≤ o.cost g e := by
  rw [Overlay.cost]
  cases hm : o.edgeMark g e with
  | error failure => exact GrowingCost.zero_le_zero
  | ok mark =>
    obtain ⟨i, hi⟩ := edgeMark_eq_ok.mp hm
    exact GrowingCost.nonneg_of_admissible
      (h mark (Array.mem_of_getElem? (findEdge_eq_ok.mp hi).2.1))

end Overlay

namespace Search

open Ways (Relaxed)

variable {V E κ : Type} [Cost κ] {g : Graph V E} {s : Search V E κ}

theorem ways_relax (hf : s.overlay.Fits g) (a : VertexId) {b : VertexId}
    (hb : g.vertices.contains b = true) (e : EdgeId) (cost : κ) :
    (s.relax g a b e cost).overlay.ways g = (s.overlay.ways g).relax s.source a b e cost := by
  have htotal : s.reached? g a = (s.overlay.ways g).total? s.source a := rfl
  have hhop : s.overlay.hop? g b = s.overlay.ways g b := rfl
  rw [relax, Ways.relax, htotal, hhop]
  split
  · rfl
  · cases (s.overlay.ways g).total? s.source a with
    | none => rfl
    | some base =>
      have hset : (s.overlay.setHop g b (some ⟨a, e, base + cost⟩)).ways g =
          (s.overlay.ways g).reach b ⟨a, e, base + cost⟩ :=
        hf.hop?_setHop hb _
      cases s.overlay.ways g b with
      | none => exact hset
      | some known =>
        by_cases hle : known.cost ≤ base + cost
        · simp [hle]
        · simp only [Option.map_some, Option.any_some, hle, decide_false]
          exact hset

omit [Cost κ] in
theorem ways_setState (o : Overlay V E κ) (g : Graph V E) (e : EdgeId) (state : EdgeState) :
    (o.setState g e state).ways g = o.ways g := by
  funext v
  unfold Overlay.ways Overlay.hop? Overlay.findVertex
  rw [Overlay.vertices_setState, (Overlay.sameLayout_setState o g e state).channel]

theorem ways_expand (s : Search V E κ) (g : Graph V E) (v : VertexId) :
    (s.expand g v).overlay.ways g = s.overlay.ways g :=
  expand_induct (P := fun s' => s'.overlay.ways g = s.overlay.ways g)
    (fun s' e _ _ _ _ h => (ways_setState s'.overlay g e _).trans h) rfl v

theorem ways_expandEnds (s : Search V E κ) (g : Graph V E) (edge : Edge E) :
    (s.expandEnds g edge).overlay.ways g = s.overlay.ways g :=
  expandEnds_induct (P := fun s' => s'.overlay.ways g = s.overlay.ways g)
    (fun s' e _ _ _ _ h => (ways_setState s'.overlay g e _).trans h) rfl edge

omit [Cost κ] in
theorem ways_fresh {o : Overlay V E κ} (hf : o.Fits g) (hb : o.Blank) {a : VertexId}
    (ha : g.vertices.contains a = true) (b : VertexId) (config : SearchConfig) :
    (fresh o g a b config).overlay.ways g = fun _ => none := by
  have hset : (o.setHop g a none).ways g = Function.update (o.ways g) a none :=
    hf.hop?_setHop ha none
  show (o.setHop g a none).ways g = fun _ => none
  rw [hset, hb.ways]
  exact Function.update_eq_self a (fun _ => none)

/-- What exploring an edge makes of the ways. -/
inductive Explored (g : Graph V E) (source : VertexId) (e : EdgeId) (cost : κ) (w : Ways κ) :
    Ways κ → Prop
  | oneWay {edge : Edge E} {w' : Ways κ} (hedge : g.edges.get? e = some edge)
    (hone : (edge.isBidirectional && edge.tail ≠ source) = false)
    (h : Relaxed source edge.tail edge.head e cost w w') : Explored g source e cost w w'
  | bothWays {edge : Edge E} {w' w'' : Ways κ} (hedge : g.edges.get? e = some edge)
    (hboth : edge.isBidirectional = true) (hne : edge.tail ≠ source)
    (h : Relaxed source edge.tail edge.head e cost w w')
    (h' : Relaxed source edge.head edge.tail e cost w' w'') : Explored g source e cost w w''

theorem ways_relaxEnds {es : List EdgeId} (hg : g.Mirrors es) (hf : s.overlay.Fits g) {e : EdgeId}
    {edge : Edge E} (hedge : g.edges.get? e = some edge) (cost : κ) :
    (s.relaxEnds g edge cost).overlay.ways g =
      (s.overlay.ways g).relaxEnds s.source edge cost := by
  have hfirst := ways_relax hf edge.tail (hg.head_live hedge) edge.id cost
  have hworks := s.works_relax (g := g) edge.tail edge.head edge.id cost
  have hsecond := ways_relax (hworks.touched.fits hf) edge.head
    (hg.tail_live hedge) edge.id cost
  rw [hworks.source] at hsecond
  unfold relaxEnds Ways.relaxEnds
  dsimp only
  rw [hworks.source]
  split
  · rw [hsecond, hfirst]
  · exact hfirst

theorem explored_relaxEnds {es : List EdgeId} (hg : g.Mirrors es) (w : Ways κ) (source : VertexId)
    {e : EdgeId} {edge : Edge E} (hedge : g.edges.get? e = some edge) (cost : κ) :
    Explored g source e cost w (w.relaxEnds source edge cost) := by
  have hfirst := w.relaxed_relax source edge.tail edge.head e cost
  rw [Ways.relaxEnds, hg.edge_id hedge]
  split
  · rename_i hboth
    simp only [Bool.and_eq_true, decide_eq_true_eq] at hboth
    exact .bothWays hedge hboth.1 hboth.2 hfirst (Ways.relaxed_relax ..)
  · rename_i hone
    exact .oneWay hedge (by simpa using hone) hfirst

/-- Exploring a live edge, in full. -/
theorem explore_of_live (hf : s.overlay.Fits g) {e : EdgeId} {edge : Edge E}
    (hedge : g.edges.get? e = some edge) :
    s.explore g e =
      let s' := (s.relaxEnds g edge (s.overlay.cost g e)).expandEnds g edge
      { s' with overlay := s'.overlay.setState g e .explored } := by
  obtain ⟨mark, hmark⟩ := hf.edgeMark (Arena.contains_iff.mpr ⟨edge, hedge⟩)
  have hcost : s.overlay.cost g e = mark.cost := by rw [Overlay.cost, hmark]
  rw [explore]
  rw [hedge, hmark, hcost]

theorem ways_explore {es : List EdgeId} (hg : g.Mirrors es) (hf : s.overlay.Fits g) {e : EdgeId}
    (he : g.edges.contains e = true) :
    Explored g s.source e (s.overlay.cost g e) (s.overlay.ways g)
      ((s.explore g e).overlay.ways g) := by
  obtain ⟨edge, hedge⟩ := Arena.contains_iff.mp he
  rw [explore_of_live hf hedge]
  dsimp only
  rw [ways_setState, ways_expandEnds, ways_relaxEnds hg hf hedge]
  exact explored_relaxEnds hg _ _ hedge _

/-- A search with its next edge in hand and others left in the queue. -/
def popped (s : Search V E κ) (rest : List (Queued κ)) : Search V E κ :=
  { s with frontier := { s.frontier with queue := rest }, expansions := s.expansions + 1 }

/-- What one step comes to and what it does. -/
inductive Stepped (g : Graph V E) (s : Search V E κ) : Step × Search V E κ → Prop
  | idle (hf : s.finished = true) : Stepped g s (.finished, s)
  | atLimit {limit : Nat} (hf : s.finished = false) (hl : s.limitReached? = some limit) :
    Stepped g s (.limitReached limit, s)
  | dry (hf : s.finished = false) (hq : s.frontier.queue = []) :
    Stepped g s (.finished, { s with finished := true })
  | beaten {q : Queued κ} {rest : List (Queued κ)} (hf : s.finished = false)
    (hq : s.frontier.queue = q :: rest) (hb : s.beaten g q = true) :
    Stepped g s (.finished,
      { s with frontier := { s.frontier with queue := rest }, finished := true })
  | explored {q : Queued κ} {rest : List (Queued κ)} (hf : s.finished = false)
    (hq : s.frontier.queue = q :: rest) (hb : s.beaten g q = false) :
    Stepped g s (.expanded q.edge, (s.popped rest).explore g q.edge)

theorem stepped (s : Search V E κ) (g : Graph V E) : Stepped g s (s.step g) := by
  rw [step, stepUnless]
  split
  · exact .idle ‹_›
  · rename_i hf
    have hf : s.finished = false := by simpa using hf
    split
    · exact .atLimit hf ‹_›
    · cases hq : s.frontier.queue with
      | nil =>
        have hp : s.frontier.pop? = none := by rw [Frontier.pop?, hq]
        rw [hp]
        exact .dry hf hq
      | cons q rest =>
        have hp : s.frontier.pop? = some (q, { s.frontier with queue := rest }) := by
          rw [Frontier.pop?, hq]
        rw [hp]
        dsimp only
        split
        · exact .beaten hf hq ‹_›
        · rename_i hb
          exact .explored hf hq (by simpa using hb)

theorem not_beaten_of_fifo (hk : s.frontier.kind = .fifo) (q : Queued κ) :
    s.beaten g q = false := by
  simp [beaten, Frontier.isOrdered, hk]

theorem explore_of_not_live {e : EdgeId} (he : g.edges.contains e = false) :
    s.explore g e = s := by
  have hnone : g.edges.get? e = none := by simpa [Arena.contains] using he
  rw [explore]
  rw [hnone]

theorem ways_step {es : List EdgeId} (hg : g.Mirrors es) (hf : s.overlay.Fits g) :
    (s.step g).2.overlay.ways g = s.overlay.ways g ∨
      ∃ e, Explored g s.source e (s.overlay.cost g e) (s.overlay.ways g)
        ((s.step g).2.overlay.ways g) := by
  have hstep := s.stepped g
  generalize s.step g = r at hstep
  cases hstep with
  | idle => exact Or.inl rfl
  | atLimit => exact Or.inl rfl
  | dry => exact Or.inl rfl
  | beaten => exact Or.inl rfl
  | @explored q rest =>
    cases he : g.edges.contains q.edge with
    | false =>
      rw [explore_of_not_live he]
      exact Or.inl rfl
    | true =>
      refine Or.inr ⟨q.edge, ?_⟩
      exact ways_explore (s := s.popped rest) hg hf he

/-- What walking an edge preserves, a search preserves. -/
theorem ways_after {es : List EdgeId} (hg : g.Mirrors es) (hf : s.overlay.Fits g)
    {P : Ways κ → Prop} (hstart : P (s.overlay.ways g))
    (hrelaxed : ∀ {w w' a b e}, P w → g.leads a b e = true →
      Relaxed s.source a b e (s.overlay.cost g e) w w' → P w') (n : Nat) :
    P ((s.after g n).overlay.ways g) := by
  induction n with
  | zero => exact hstart
  | succ n ih =>
    rw [after_succ]
    have hfollows := s.follows_after (g := g) n
    have hstep := ways_step hg (hfollows.touched.fits hf)
    rw [hfollows.source, hfollows.touched.cost hf] at hstep
    obtain hsame | ⟨e, hexplored⟩ := hstep
    · rw [hsame]
      exact ih
    · generalize ((s.after g n).step g).2.overlay.ways g = w at hexplored
      cases hexplored with
      | oneWay hedge _ h =>
        exact hrelaxed ih (Graph.leads_forth hedge) h
      | bothWays hedge hboth _ h h' =>
        have hfirst := hrelaxed ih (Graph.leads_forth hedge) h
        exact hrelaxed hfirst (Graph.leads_back hedge hboth) h'

end Search

end Waymark
