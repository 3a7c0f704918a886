import Waymark.Proofs.Search.Life
import Waymark.Proofs.Search.Queue

namespace Waymark

variable {V E κ : Type} [Cost κ] {g : Graph V E} {s : Search V E κ} {o : Overlay V E κ}
  {a b : VertexId} {config : SearchConfig}

namespace Search

/-- Nothing has been reached yet, and what has been seen waits in the frontier. -/
structure Opening (s : Search V E κ) : Prop where
  hops : ∀ mark ∈ s.overlay.vertices, mark.hop? = none
  states : ∀ mark ∈ s.overlay.edges, mark.state = .unexplored ∨
    (mark.state = .discovered ∧ ∃ q ∈ s.frontier.queue, q.edge = mark.edge)

namespace Opening

theorem discover (h : s.Opening) {g : Graph V E} {e : EdgeId} {mark : EdgeMark κ}
    (hm : s.overlay.edgeMark g e = .ok mark) (key : κ) :
    Opening { s with
      overlay := s.overlay.setState g e .discovered
      frontier := s.frontier.push e key } := by
  obtain ⟨i, hfound⟩ := Overlay.edgeMark_eq_ok.mp hm
  obtain ⟨_, _, he⟩ := Overlay.findEdge_eq_ok.mp hfound
  refine ⟨?_, fun m hmem => ?_⟩
  · rw [Overlay.vertices_setState]
    exact h.hops
  · dsimp only at hmem ⊢
    rw [Overlay.setState, hfound] at hmem
    refine Overlay.forall_mem_setIfInBounds (P := fun m => m.state = .unexplored ∨
      (m.state = .discovered ∧ ∃ q ∈ (s.frontier.push e key).queue, q.edge = m.edge))
      (fun m' hm' => ?_) i ?_ m hmem
    · obtain hstate | ⟨hstate, q, hq, hqe⟩ := h.states m' hm'
      · exact Or.inl hstate
      · exact Or.inr ⟨hstate, q, Frontier.mem_push.mpr (Or.inr hq), hqe⟩
    · exact Or.inr ⟨rfl, ⟨e, key⟩, Frontier.mem_push.mpr (Or.inl rfl), he.symm⟩

theorem expand (h : s.Opening) (g : Graph V E) (v : VertexId) : (s.expand g v).Opening :=
  expand_induct (fun _ _ _ key hm _ h => h.discover hm key) h v

omit [Cost κ] in
theorem fresh (h : o.Blank) (g : Graph V E) (a b : VertexId) (config : SearchConfig) :
    (fresh o g a b config).Opening := by
  rw [Search.fresh]
  refine ⟨fun m hm => ?_, fun m hm => ?_⟩
  · rw [Overlay.setHop] at hm
    split at hm
    · exact Overlay.forall_mem_setIfInBounds (P := fun m => m.hop? = none) h.vertices _ rfl m hm
    · exact h.vertices m hm
  · rw [Overlay.edges_setHop] at hm
    exact Or.inl (h.edges m hm)

theorem start (h : o.Sound g) (hs : Search.start o g a b config = .ok s) : s.Opening := by
  obtain ⟨_, o₁, hb, rfl⟩ := start_eq_ok.mp hs
  exact (Opening.fresh (h.beginRun_eq_ok hb).2.2.1 g a b config).expand g a

end Opening

end Search

namespace Overlay

variable {rounds : List Round}

/-- After a reset that did not fail all costs come from it. -/
theorem onePass_round {es : List EdgeId} (hm : g.Mirrors es) (hl : o.Listed g)
    {o' : Overlay V E κ} (hr : o.reset g = .ok o') (rounds : List Round) :
    OnePass (o.round g :: rounds) o.edges.size := by
  have hfull := (renewed_reset hm hl).2.2 o' hr
  refine ⟨o.round g, List.mem_cons_self, hfull, fun i hi => ?_⟩
  rw [← hfull] at hi
  simp [hi]

/-- A search begins without any trace of an older one, with a cost for every live edge that its
evaluator has given. All costs come from one pass if the overlay was used, for then it has been
reset; otherwise just if the last reset to renew any cost renewed them all. -/
theorem Lived.costs_origin (h : Lived g o rounds) (hs : Search.start o g a b config = .ok s) :
    (∀ mark ∈ s.overlay.vertices, mark.hop? = none) ∧
      (∀ mark ∈ s.overlay.edges, mark.state = .unexplored ∨
        (mark.state = .discovered ∧ ∃ q ∈ s.frontier.queue, q.edge = mark.edge)) ∧
      s.overlay.edges.toList.map EdgeMark.edge = g.edges.ids ∧
      (∀ i mark, s.overlay.edges[i]? = some mark →
        ∃ r, (o.roundsBegun g rounds).find? (i < ·.renewed) = some r ∧
          s.overlay.appraiser.Answered g (r.first + i) mark.edge mark.cost) ∧
      (OnePass (o.roundsBegun g rounds) o.edges.size ↔
        o.used = true ∨ ∀ r, rounds.find? (0 < ·.renewed) = some r →
          r.renewed = o.edges.size) := by
  have haged := h.aged
  have hbegun := haged.begun hs
  have hopening := Search.Opening.start haged.sound hs
  refine ⟨hopening.hops, hopening.states, hbegun.listed.edges, fun i mark => hbegun.origin, ?_⟩
  obtain ⟨es, hm⟩ := haged.mirrors
  obtain ⟨_, o₁, hb, rfl⟩ := Search.start_eq_ok.mp hs
  rw [roundsBegun]
  obtain ⟨hu, _⟩ | ⟨hu, o₂, hr, _⟩ := beginRun_eq_ok hb
  · rw [hu, if_neg Bool.false_ne_true, onePass_iff haged.bounded haged.complete]
    simp
  · rw [if_pos hu]
    have hone := onePass_round hm haged.listed hr rounds
    exact ⟨fun _ => Or.inl hu, fun _ => hone⟩

/-- Two edges in a row. -/
def chain : Graph Unit Unit :=
  let g := (({} : Graph Unit Unit).addVertices [(), (), ()]).2
  let g := (g.addEdge ⟨0, 0⟩ ⟨1, 0⟩ .directed ()).2
  (g.addEdge ⟨1, 0⟩ ⟨2, 0⟩ .directed ()).2

theorem mirrors_chain : ∃ es, chain.Mirrors es :=
  ⟨_, ((Graph.Mirrors.empty.addVertices _).addEdge (by decide) (by decide) _ _).addEdge
    (by decide) (by decide) _ _⟩

/-- Answers five to the third question, nothing to the fourth and one to all others. -/
def fickle : Evaluator Unit Unit Float where
  answer n _ _ := if n = 2 then .ok 5 else if n = 3 then .error "boom" else .ok 1

theorem ok_of_toOption {ε α : Type} {x : Except ε α} {a : α} (h : x.toOption = some a) :
    x = .ok a := by
  cases x with
  | error e => cases h
  | ok b =>
    cases h
    rfl

/-- A new overlay is reset, which fails at the second edge. The search that follows has the cost of
the first edge from the reset and that of the second from before. -/
theorem Lived.costs_origin_mixed : ∃ (g : Graph Unit Unit) (o : Overlay Unit Unit Float)
    (rounds : List Round) (s : Search Unit Unit Float), Lived g o rounds ∧
      Search.start o g ⟨0, 0⟩ ⟨2, 0⟩ {} = .ok s ∧ s.overlay.edges.map EdgeMark.cost = #[5, 1] ∧
      ¬ OnePass (o.roundsBegun g rounds) o.edges.size := by
  let g := (chain.mount fickle).2
  have hmounts : (chain.mount fickle).1.toOption.isSome = true := by decide +kernel
  have hrun : ∀ o ∈ (chain.mount fickle).1.toOption,
      let left := leftBehind (o.reset g)
      o.round g = ⟨2, 1⟩ ∧ left.used = false ∧ left.edges.size = 2 ∧
        (Search.start left g ⟨0, 0⟩ ⟨2, 0⟩ {}).toOption.isSome = true ∧
        ∀ s ∈ (Search.start left g ⟨0, 0⟩ ⟨2, 0⟩ {}).toOption,
          s.overlay.edges.map EdgeMark.cost = #[5, 1] := by
    decide +kernel
  obtain ⟨o, ho⟩ := Option.isSome_iff_exists.mp hmounts
  obtain ⟨hround, hu, hsize, hstarts, hcosts⟩ := hrun o ho
  obtain ⟨s, hs⟩ := Option.isSome_iff_exists.mp hstarts
  obtain ⟨es, hm⟩ := mirrors_chain
  have hmount : chain.mount fickle = (.ok o, g) := Prod.ext (ok_of_toOption ho) rfl
  have hlived := (Lived.mounted hm hmount).reset
  refine ⟨g, _, _, s, hlived, ok_of_toOption hs, hcosts s hs, ?_⟩
  rw [(Lived.costs_origin hlived (ok_of_toOption hs)).2.2.2.2]
  intro hwhole
  obtain hused | hfull := hwhole
  · rw [hu] at hused
    cases hused
  · have hlast := hfull (o.round g) (by simp [hround])
    rw [hround, hsize] at hlast
    cases hlast

end Overlay

end Waymark
