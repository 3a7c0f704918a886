import Waymark.Proofs.Search.Ways

namespace Waymark.Search

/-! A strict search fails as soon as an element or a mark that it asks for is not there, where other
searches go on without. -/

namespace Strict

variable {V E κ : Type} [Cost κ]

def required {α : Type} : Except Missing α → Except (Failure κ) α :=
  Except.mapError fun m => .missing m.element

def reached? (s : Search V E κ) (g : Graph V E) (v : VertexId) : Except (Failure κ) (Option κ) :=
  if v = s.source then return some 0 else VertexMark.cost? <$> s.overlay.vertexMark g v

def relax (s : Search V E κ) (g : Graph V E) (a b : VertexId) (e : EdgeId) (cost : κ) :
    Except (Failure κ) (Search V E κ) :=
  if b = s.source then return s
  else do
    match ← reached? s g a with
    | none => return s
    | some base =>
      let hop : Hop κ := ⟨a, e, base + cost⟩
      match (← s.overlay.vertexMark g b).cost? with
      | some known =>
        if known ≤ hop.cost then return s
        else return { s with overlay := s.overlay.setHop g b (some hop) }
      | none => return { s with overlay := s.overlay.setHop g b (some hop) }

def discover (g : Graph V E) (base : κ) (s : Search V E κ) (e : EdgeId) :
    Except (Failure κ) (Search V E κ) := do
  let mark ← s.overlay.edgeMark g e
  if mark.state = .unexplored then
    return { s with
      overlay := s.overlay.setState g e .discovered
      frontier := s.frontier.push e (base + mark.cost) }
  else return s

def expand (s : Search V E κ) (g : Graph V E) (v : VertexId) :
    Except (Failure κ) (Search V E κ) := do
  let base := (← reached? s g v).getD 0
  let vertex ← required (g.vertex v)
  vertex.outgoing.edges.foldlM (discover g base) s

def relaxEnds (s : Search V E κ) (g : Graph V E) (edge : Edge E) (cost : κ) :
    Except (Failure κ) (Search V E κ) := do
  let s ← relax s g edge.tail edge.head edge.id cost
  if edge.isBidirectional && edge.tail ≠ s.source then
    relax s g edge.head edge.tail edge.id cost
  else return s

def expandEnds (s : Search V E κ) (g : Graph V E) (edge : Edge E) :
    Except (Failure κ) (Search V E κ) := do
  let s ← expand s g edge.head
  if edge.isBidirectional then expand s g edge.tail else return s

def explore (s : Search V E κ) (g : Graph V E) (e : EdgeId) :
    Except (Failure κ) (Search V E κ) := do
  let edge ← required (g.edge e)
  let mark ← s.overlay.edgeMark g e
  let s ← relaxEnds s g edge mark.cost
  let s ← expandEnds s g edge
  let _ ← s.overlay.edgeMark g e
  return { s with overlay := s.overlay.setState g e .explored }

/-- Begins a search. If costs cannot be taken the overlay is left as far as that came. -/
def start (o : Overlay V E κ) (g : Graph V E) (source destination : VertexId)
    (config : SearchConfig) : Except (Failure κ × Overlay V E κ) (Search V E κ) :=
  match refusal? o g source destination with
  | some failure => .error (failure, o)
  | none => do
    let o ← o.beginRun g
    let s : Search V E κ := {
      overlay := o.setHop g source none
      frontier := { kind := config.frontier }
      maxExpansions? := config.maxExpansions?
      source, destination }
    let _ ← (o.vertexMark g source).mapError (·, o)
    (expand s g source).mapError (·, o)

def step (s : Search V E κ) (g : Graph V E) : Except (Failure κ) (Step × Search V E κ) :=
  if s.finished then return (.finished, s)
  else
    match s.limitReached? with
    | some limit => return (.limitReached limit, s)
    | none =>
      match s.frontier.pop? with
      | none => return (.finished, { s with finished := true })
      | some (q, frontier) => do
        let best? := (← s.overlay.vertexMark g s.destination).cost?
        if s.frontier.isOrdered && best?.any (· ≤ q.key) then
          return (.finished, { s with frontier, finished := true })
        else
          let s := { s with frontier, expansions := s.expansions + 1 }
          return (.expanded q.edge, ← explore s g q.edge)

/-! While all that lives has its mark, a strict search does what any other does. -/

variable {g : Graph V E} {es : List EdgeId} {s : Search V E κ}

omit [Cost κ] in
theorem required_vertex {v : VertexId} {x : Vertex V} (hx : g.vertices.get? v = some x) :
    required (κ := κ) (g.vertex v) = .ok x := by
  rw [Graph.vertex, hx]
  rfl

omit [Cost κ] in
theorem required_edge {e : EdgeId} {x : Edge E} (hx : g.edges.get? e = some x) :
    required (κ := κ) (g.edge e) = .ok x := by
  rw [Graph.edge, hx]
  rfl

theorem reached?_eq_ok (hf : s.overlay.Fits g) {v : VertexId} (hv : g.vertices.contains v = true) :
    reached? s g v = .ok (s.reached? g v) := by
  obtain ⟨mark, hm, hhop⟩ := hf.vertexMark hv
  rw [reached?, Search.reached?, hm, hhop]
  split <;> rfl

theorem relax_eq_ok (hf : s.overlay.Fits g) {a b : VertexId} (ha : g.vertices.contains a = true)
    (hb : g.vertices.contains b = true) (e : EdgeId) (cost : κ) :
    relax s g a b e cost = .ok (s.relax g a b e cost) := by
  obtain ⟨⟨v, hop?⟩, hm, hhop⟩ := hf.vertexMark hb
  rw [relax, Search.relax, reached?_eq_ok hf ha, hm, hhop]
  split
  · rfl
  · cases s.reached? g a with
    | none => rfl
    | some base =>
      cases hop? with
      | none => rfl
      | some known =>
        dsimp only [bind, Except.bind, VertexMark.cost?, Option.map]
        split <;> rfl

theorem discover_eq_ok (hf : s.overlay.Fits g) (base : κ) {e : EdgeId}
    (he : g.edges.contains e = true) : discover g base s e = .ok (s.discover g base e) := by
  obtain ⟨mark, hm⟩ := hf.edgeMark he
  rw [discover, Search.discover, hm]
  dsimp only [bind, Except.bind]
  split <;> rfl

theorem foldlM_discover (hf : s.overlay.Fits g) (base : κ) {l : List EdgeId}
    (hl : ∀ e ∈ l, g.edges.contains e = true) :
    l.foldlM (discover g base) s = .ok (l.foldl (fun s e => s.discover g base e) s) := by
  induction l generalizing s with
  | nil => rfl
  | cons e l ih =>
    have hnext := (s.works_discover (g := g) base e).touched.fits hf
    rw [List.foldlM_cons, discover_eq_ok hf base (hl e (.head l))]
    exact ih hnext fun d hd => hl d (.tail e hd)

theorem expand_eq_ok (hg : g.Mirrors es) (hf : s.overlay.Fits g) {v : VertexId}
    (hv : g.vertices.contains v = true) : expand s g v = .ok (s.expand g v) := by
  obtain ⟨x, hx⟩ := Arena.contains_iff.mp hv
  have hlive : ∀ e ∈ x.outgoing.edges, g.edges.contains e = true := by
    intro e he
    obtain ⟨b, hb⟩ := (hg.mem_outgoing hx).mp he
    exact Graph.contains_of_leads hb
  rw [expand, Search.expand, reached?_eq_ok hf hv, required_vertex hx, hx]
  exact foldlM_discover hf _ hlive

theorem relaxEnds_eq_ok (hg : g.Mirrors es) (hf : s.overlay.Fits g) {e : EdgeId} {edge : Edge E}
    (hedge : g.edges.get? e = some edge) (cost : κ) :
    relaxEnds s g edge cost = .ok (s.relaxEnds g edge cost) := by
  have htail := hg.tail_live hedge
  have hhead := hg.head_live hedge
  have hnext := (s.works_relax (g := g) edge.tail edge.head edge.id cost).touched.fits hf
  unfold relaxEnds Search.relaxEnds
  rw [relax_eq_ok hf htail hhead]
  dsimp only [bind, Except.bind]
  split
  · exact relax_eq_ok hnext hhead htail edge.id cost
  · rfl

theorem expandEnds_eq_ok (hg : g.Mirrors es) (hf : s.overlay.Fits g) {e : EdgeId} {edge : Edge E}
    (hedge : g.edges.get? e = some edge) : expandEnds s g edge = .ok (s.expandEnds g edge) := by
  have hnext := (s.works_expand (g := g) edge.head).touched.fits hf
  unfold expandEnds Search.expandEnds
  rw [expand_eq_ok hg hf (hg.head_live hedge)]
  dsimp only [bind, Except.bind]
  split
  · exact expand_eq_ok hg hnext (hg.tail_live hedge)
  · rfl

theorem explore_eq_ok (hg : g.Mirrors es) (hf : s.overlay.Fits g) {e : EdgeId}
    (he : g.edges.contains e = true) : explore s g e = .ok (s.explore g e) := by
  obtain ⟨edge, hedge⟩ := Arena.contains_iff.mp he
  obtain ⟨mark, hm⟩ := hf.edgeMark he
  have hf₁ := (s.works_relaxEnds (g := g) edge mark.cost).touched.fits hf
  have hworks := (s.relaxEnds g edge mark.cost).works_expandEnds (g := g) edge
  have hf₂ := hworks.touched.fits hf₁
  obtain ⟨mark', hm'⟩ := hf₂.edgeMark he
  rw [explore, Search.explore, required_edge hedge, hedge, hm]
  dsimp only [bind, Except.bind]
  rw [relaxEnds_eq_ok hg hf hedge]
  dsimp only
  rw [expandEnds_eq_ok hg hf₁ hedge]
  dsimp only
  rw [hm']
  rfl

/-- All that a step asks for is its destination and the next edge. -/
theorem step_eq_ok (hg : g.Mirrors es) (hf : s.overlay.Fits g)
    (hb : g.vertices.contains s.destination = true)
    (hnext : s.finished = false → ∀ q ∈ s.frontier.queue, g.edges.contains q.edge = true) :
    step s g = .ok (s.step g) := by
  obtain ⟨mark, hm, hhop⟩ := hf.vertexMark hb
  rw [step, Search.step, stepUnless]
  by_cases hfinished : s.finished = true
  · rw [if_pos hfinished, if_pos hfinished]
    rfl
  · rw [if_neg hfinished, if_neg hfinished]
    cases s.limitReached? with
    | some limit => rfl
    | none =>
      rw [Frontier.pop?]
      cases hq : s.frontier.queue with
      | nil => rfl
      | cons q rest =>
        have hlive : g.edges.contains q.edge = true := by
          refine hnext (by simpa using hfinished) q ?_
          rw [hq]
          exact .head rest
        have hbeaten : s.beaten g q = (s.frontier.isOrdered && mark.cost?.any (· ≤ q.key)) := by
          rw [Search.beaten, hhop]
          rfl
        have hexplore := explore_eq_ok (s := s.popped rest) hg hf hlive
        rw [popped] at hexplore
        dsimp only [bind, Except.bind]
        rw [hm, hbeaten]
        dsimp only
        rw [hexplore]
        split <;> rfl

/-- Beginning a search asks for its source and the edges out of it. -/
theorem start_eq {o : Overlay V E κ} (hg : g.Mirrors es) (hf : o.Fits g) (a b : VertexId)
    (config : SearchConfig) : start o g a b config = Search.start o g a b config := by
  rw [start, Search.start]
  cases hrefusal : refusal? o g a b with
  | some failure => rfl
  | none =>
    cases hbegun : o.beginRun g with
    | error e => rfl
    | ok o₁ =>
      obtain ⟨ha, _, _⟩ := (refusal?_eq_none hf).mp hrefusal
      have hf₁ := (Overlay.sameLayout_beginRun hbegun).fits hf
      obtain ⟨mark, hm, _⟩ := hf₁.vertexMark ha
      have hfresh : (fresh o₁ g a b config).overlay.Fits g :=
        ((Overlay.Touched.refl (g := g)).setHop a none).fits hf₁
      have hexpand := expand_eq_ok hg hfresh ha
      rw [fresh] at hexpand
      dsimp only [bind, Except.bind]
      rw [hm]
      dsimp only [Except.mapError]
      rw [hexpand]
      rfl

end Strict

end Waymark.Search
