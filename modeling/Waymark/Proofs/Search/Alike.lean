import Waymark.Proofs.Overlay.Alike
import Waymark.Proofs.Search.Start

namespace Waymark

namespace Overlay

variable {V E κ : Type} {g g' : Graph V E} {o o' : Overlay V E κ} {v : VertexId}

/-- Two overlays agree on which vertices there are. -/
theorem Fits.vertexMark_of_vertices
    (hb : g'.vertices.map Vertex.bare = g.vertices.map Vertex.bare) (hf : o.Fits g)
    (hf' : o'.Fits g') (v : VertexId) :
    (∃ mark mark', o.vertexMark g v = .ok mark ∧ o'.vertexMark g' v = .ok mark') ∨
      (o.vertexMark g v = .error (.missing (.vertex v)) ∧
        o'.vertexMark g' v = .error (.missing (.vertex v))) := by
  have hget : (g'.vertices.get? v).map Vertex.bare = (g.vertices.get? v).map Vertex.bare := by
    rw [← Arena.get?_map, ← Arena.get?_map, hb]
  cases hv : g.vertices.get? v with
  | none =>
    have hv' : g'.vertices.get? v = none := by simpa [hv] using hget
    refine Or.inr ⟨?_, ?_⟩
    · rw [Overlay.vertexMark, findVertex, hv]
      rfl
    · rw [Overlay.vertexMark, findVertex, hv']
      rfl
  | some x =>
    rw [hv, Option.map_some, Option.map_eq_some_iff] at hget
    obtain ⟨x', hv', _⟩ := hget
    obtain ⟨mark, hm, _⟩ := hf.vertexMark (Arena.contains_iff.mpr ⟨x, hv⟩)
    obtain ⟨mark', hm', _⟩ := hf'.vertexMark (Arena.contains_iff.mpr ⟨x', hv'⟩)
    exact Or.inl ⟨mark, mark', hm, hm'⟩

theorem Listed.size_eq (hb : g'.vertices.map Vertex.bare = g.vertices.map Vertex.bare)
    (hl : o.Listed g) (hl' : o'.Listed g') : o'.vertices.size = o.vertices.size := by
  have hids : g'.vertices.ids = g.vertices.ids := by
    have hmap := congrArg Arena.ids hb
    rwa [Arena.ids_map, Arena.ids_map] at hmap
  have hmarks := hl'.vertices.trans (hids.trans hl.vertices.symm)
  simpa using congrArg List.length hmarks

/-- Whether a search is let through depends on the vertices alone, and on the channel only what is
said of a graph without any. -/
theorem refusal?_of_vertices (hb : g'.vertices.map Vertex.bare = g.vertices.map Vertex.bare)
    (hf : o.Fits g) (hl : o.Listed g) (hf' : o'.Fits g') (hl' : o'.Listed g') (a b : VertexId) :
    Search.refusal? o' g' a b = (Search.refusal? o g a b).map (.on o'.channel) := by
  have hempty : o'.vertices.isEmpty = o.vertices.isEmpty := by
    rw [Array.isEmpty, Array.isEmpty, hl.size_eq hb hl']
  rw [Search.refusal?, Search.refusal?, hempty]
  cases o.vertices.isEmpty with
  | true => rfl
  | false =>
    obtain ⟨ma, ma', ha, ha'⟩ | ⟨ha, ha'⟩ := Fits.vertexMark_of_vertices hb hf hf' a
    · obtain ⟨mb, mb', hd, hd'⟩ | ⟨hd, hd'⟩ := Fits.vertexMark_of_vertices hb hf hf' b
      · simp only [ha, ha', hd, hd']
        split
        · rfl
        · split <;> rfl
      · simp only [ha, ha', hd, hd']
        rfl
    · simp only [ha, ha']
      rfl

end Overlay

namespace Search

variable {V E κ : Type} {g g' : Graph V E} {s s' : Search V E κ}

/-! Searches that go in step -/

section Lockstep

variable [Cost κ] {R : Search V E κ → Search V E κ → Prop}
  (hstep : ∀ {s s'}, R s s' → (s'.step g').1 = (s.step g).1 ∧ R (s.step g).2 (s'.step g').2)

include hstep

theorem after_of_lockstep (h : R s s') (n : Nat) : R (s.after g n) (s'.after g' n) := by
  induction n with
  | zero => exact h
  | succ n ih =>
    rw [after_succ, after_succ]
    exact (hstep ih).2

theorem exhaust_of_lockstep (h : R s s') :
    (s'.exhaust g').1 = (s.exhaust g).1 ∧ R (s.exhaust g).2 (s'.exhaust g').2 := by
  induction s using steps_induct generalizing s' with
  | expanded s s₁ e hfirst ih =>
    obtain ⟨hlast, hrest⟩ := hstep h
    rw [hfirst] at hlast hrest
    have hfirst' : s'.step g' = (.expanded e, (s'.step g').2) := Prod.ext hlast rfl
    rw [exhaust_of_expanded hfirst, exhaust_of_expanded hfirst']
    exact ih hrest
  | ended s hne =>
    obtain ⟨hlast, hrest⟩ := hstep h
    rw [exhaust_of_ended hne, exhaust_of_ended fun e he => hne e (hlast.symm.trans he)]
    exact ⟨hlast, hrest⟩

omit hstep in
theorem channel_exhaust (s : Search V E κ) (g : Graph V E) :
    (s.exhaust g).2.overlay.channel = s.overlay.channel := by
  obtain ⟨n, hn, _⟩ := s.exhaust_eq_after (g := g)
  rw [hn]
  exact (s.follows_after (g := g) (n + 1)).touched.sameLayout.channel

/-- If they tell the same paths they report the same when they are run to the end. -/
theorem run_of_lockstep
    (hpath : ∀ {s s'}, R s s' → s'.path g' = (s.path g).mapError (.on s'.overlay.channel))
    (h : R s s') :
    reported (s'.run g') = (reported (s.run g)).mapError (.on s'.overlay.channel) ∧
      ∃ t t', R t t' ∧ givenBack (s.run g) = t.overlay ∧ givenBack (s'.run g') = t'.overlay := by
  obtain ⟨hlast, hend⟩ := exhaust_of_lockstep hstep h
  have hend_path := hpath hend
  rw [channel_exhaust] at hend_path
  rw [run_eq_conclude, run_eq_conclude, givenBack_conclude, givenBack_conclude]
  refine ⟨?_, _, _, hend, rfl, rfl⟩
  generalize s.exhaust g = p at hlast hend_path
  generalize s'.exhaust g' = p' at hlast hend_path
  obtain ⟨last, t⟩ := p
  obtain ⟨last', t'⟩ := p'
  obtain rfl : last' = last := hlast
  unfold conclude
  cases last' with
  | limitReached limit => rfl
  | expanded e =>
    dsimp only at hend_path ⊢
    rw [hend_path]
    cases t.path g <;> rfl
  | finished =>
    dsimp only at hend_path ⊢
    rw [hend_path]
    cases t.path g <;> rfl

end Lockstep

/-- Two searches that have come equally far on overlays that are alike. -/
structure Alike (g : Graph V E) (s : Search V E κ) (g' : Graph V E) (s' : Search V E κ) : Prop where
  overlay : Overlay.Alike g s.overlay g' s'.overlay
  frontier : s'.frontier = s.frontier
  source : s'.source = s.source
  destination : s'.destination = s.destination
  limit : s'.maxExpansions? = s.maxExpansions?
  expansions : s'.expansions = s.expansions
  finished : s'.finished = s.finished

namespace Alike

theorem withOverlay (h : Alike g s g' s') {o o' : Overlay V E κ} (ho : Overlay.Alike g o g' o') :
    Alike g { s with overlay := o } g' { s' with overlay := o' } :=
  ⟨ho, h.frontier, h.source, h.destination, h.limit, h.expansions, h.finished⟩

variable [Cost κ]

theorem reached? (h : Alike g s g' s') (v : VertexId) : s'.reached? g' v = s.reached? g v := by
  rw [Search.reached?, Search.reached?, h.source, h.overlay.hop?]

theorem relax (h : Alike g s g' s') (a b : VertexId) (e : EdgeId) (cost : κ) :
    Alike g (s.relax g a b e cost) g' (s'.relax g' a b e cost) := by
  rw [Search.relax, Search.relax, h.source, h.reached?, h.overlay.hop?]
  split
  · exact h
  · split
    · exact h
    · rename_i base _
      have hset := h.overlay.setHop b (some ⟨a, e, base + cost⟩)
      have hreached := h.withOverlay hset
      rw [h.source] at hreached
      dsimp only
      split
      · split
        · exact h
        · exact hreached
      · exact hreached

theorem discover (h : Alike g s g' s') (base : κ) (e : EdgeId) :
    Alike g (s.discover g base e) g' (s'.discover g' base e) := by
  rw [Search.discover, Search.discover, h.overlay.edgeMark]
  split
  · split
    · have hstate := h.overlay.setState e .discovered
      exact ⟨hstate, congrArg (fun f : Frontier κ => f.push e _) h.frontier, h.source,
        h.destination, h.limit, h.expansions, h.finished⟩
    · exact h
  · exact h

theorem expand (h : Alike g s g' s') (v : VertexId) : Alike g (s.expand g v) g' (s'.expand g' v) := by
  rw [Search.expand, Search.expand, h.reached?]
  cases hv : g.vertices.get? v with
  | none =>
    rw [Graph.vertex_none_of_bare h.overlay.bare hv]
    exact h
  | some x =>
    obtain ⟨x', hx', hbare⟩ := Graph.vertex_of_bare h.overlay.bare hv
    have hout := congrArg (fun y : Vertex V => y.outgoing.edges) hbare
    change x'.outgoing.edges = x.outgoing.edges at hout
    rw [hx']
    dsimp only
    rw [hout]
    generalize (s.reached? g v).getD 0 = base
    induction x.outgoing.edges generalizing s s' with
    | nil => exact h
    | cons e es ih => exact ih (h.discover base e)

/-- A search looks at nothing of an edge but what its bare form shows. -/
theorem relaxEnds (h : Alike g s g' s') {edge edge' : Edge E} (hbare : edge'.bare = edge.bare)
    (cost : κ) : Alike g (s.relaxEnds g edge cost) g' (s'.relaxEnds g' edge' cost) := by
  have hsame := congrArg (fun x : Edge E => s'.relaxEnds g' x cost) hbare
  change s'.relaxEnds g' edge' cost = s'.relaxEnds g' edge cost at hsame
  have hforth := h.relax edge.tail edge.head edge.id cost
  rw [hsame]
  unfold Search.relaxEnds
  dsimp only
  rw [hforth.source]
  split
  · exact hforth.relax edge.head edge.tail edge.id cost
  · exact hforth

theorem expandEnds (h : Alike g s g' s') {edge edge' : Edge E} (hbare : edge'.bare = edge.bare) :
    Alike g (s.expandEnds g edge) g' (s'.expandEnds g' edge') := by
  have hsame := congrArg (fun x : Edge E => s'.expandEnds g' x) hbare
  change s'.expandEnds g' edge' = s'.expandEnds g' edge at hsame
  have hhead := h.expand edge.head
  rw [hsame]
  unfold Search.expandEnds
  dsimp only
  split
  · exact hhead.expand edge.tail
  · exact hhead

theorem begun {o o' : Overlay V E κ} (h : Overlay.Alike g o g' o') (a b : VertexId)
    (config : SearchConfig) :
    Alike g ((fresh o g a b config).expand g a) g' ((fresh o' g' a b config).expand g' a) := by
  have hfresh : Alike g (fresh o g a b config) g' (fresh o' g' a b config) :=
    ⟨h.setHop a none, rfl, rfl, rfl, rfl, rfl, rfl⟩
  exact hfresh.expand a

theorem explore (h : Alike g s g' s') (e : EdgeId) :
    Alike g (s.explore g e) g' (s'.explore g' e) := by
  rw [Search.explore, Search.explore, h.overlay.edgeMark]
  cases he : g.edges.get? e with
  | none =>
    rw [Graph.edge_none_of_bare h.overlay.bare he]
    exact h
  | some edge =>
    obtain ⟨edge', he', hbare⟩ := Graph.edge_of_bare h.overlay.bare he
    rw [he']
    cases s.overlay.edgeMark g e with
    | error failure => exact h
    | ok mark =>
      have hexpanded := (h.relaxEnds hbare mark.cost).expandEnds hbare
      exact hexpanded.withOverlay (hexpanded.overlay.setState e .explored)

theorem beaten (h : Alike g s g' s') (q : Queued κ) : s'.beaten g' q = s.beaten g q := by
  rw [Search.beaten, Search.beaten, h.frontier, h.destination, h.overlay.hop?]

omit [Cost κ] in
theorem limitReached? (h : Alike g s g' s') : s'.limitReached? = s.limitReached? := by
  rw [Search.limitReached?, Search.limitReached?, h.limit, h.expansions, h.frontier]

/-- One step comes to the same in both. -/
theorem step (h : Alike g s g' s') :
    (s'.step g').1 = (s.step g).1 ∧ Alike g (s.step g).2 g' (s'.step g').2 := by
  rw [Search.step, Search.step, stepUnless, stepUnless, h.finished, h.limitReached?, h.frontier]
  split
  · exact ⟨rfl, h⟩
  · split
    · exact ⟨rfl, h⟩
    · split
      · exact ⟨rfl, h.overlay, rfl, h.source, h.destination, h.limit, h.expansions, rfl⟩
      · rename_i q frontier _
        rw [h.beaten]
        split
        · exact ⟨rfl, h.overlay, rfl, h.source, h.destination, h.limit, h.expansions, rfl⟩
        · have hpopped : Alike g { s with frontier, expansions := s.expansions + 1 } g'
              { s' with frontier, expansions := s'.expansions + 1, finished := s.finished } :=
            ⟨h.overlay, rfl, h.source, h.destination, h.limit,
              congrArg (· + 1) h.expansions, rfl⟩
          exact ⟨rfl, hpopped.explore q.edge⟩

omit [Cost κ] in
theorem path (h : Alike g s g' s') :
    s'.path g' = (s.path g).mapError (.on s'.overlay.channel) := by
  rw [Search.path, Search.path, h.destination, h.overlay.pathTo]

/-- Run to the end, both report the same and leave their overlays alike. -/
theorem run (h : Alike g s g' s') :
    reported (s'.run g') = (reported (s.run g)).mapError (.on s'.overlay.channel) ∧
      Overlay.Alike g (givenBack (s.run g)) g' (givenBack (s'.run g')) := by
  obtain ⟨hreport, t, t', halike, hleft, hleft'⟩ := run_of_lockstep Alike.step Alike.path h
  rw [hleft, hleft']
  exact ⟨hreport, halike.overlay⟩

end Alike

end Search

end Waymark
