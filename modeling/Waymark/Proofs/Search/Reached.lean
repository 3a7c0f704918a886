import Waymark.Proofs.Search.Spread

namespace Waymark

namespace Search

variable {V E κ : Type} [Cost κ] {g : Graph V E} {cost : EdgeId → κ} {source : VertexId}
  {s : Search V E κ} {es : List EdgeId}

/-- What holds of a search in the order of discovery at every step. It comes to its end only when no
edge waits any more. -/
structure Spreading (g : Graph V E) (cost : EdgeId → κ) (source : VertexId) (s : Search V E κ) :
    Prop where
  accounted : ∃ log, Accounted g cost source log s
  spreads : (s.chart g).Spreads g source (fun _ => False)
  kind : s.frontier.kind = .fifo
  ended : s.finished = true → ∀ e, s.overlay.state g e ≠ .discovered

namespace Spreading

theorem ranging (h : Spreading g cost source s) : Ranging g cost source s :=
  ⟨h.accounted, h.spreads⟩

theorem step (h : Spreading g cost source s) (hg : g.Mirrors es) :
    Spreading g cost source (s.step g).2 := by
  have hnext := h.ranging.step hg
  have hstep := s.stepped g
  generalize s.step g = r at hstep hnext
  cases hstep with
  | idle => exact h
  | atLimit => exact h
  | dry hf hq =>
    refine ⟨hnext.accounted, hnext.spreads, h.kind, fun _ e he => ?_⟩
    obtain ⟨log, hlog⟩ := h.accounted
    have hwaiting : e ∈ [] ++ (s.chart g).waiting := ((hlog.waiting hf).mem_iff e).mpr he
    change e ∈ s.frontier.queue.map Queued.edge at hwaiting
    rw [hq] at hwaiting
    cases hwaiting
  | @beaten q rest hf hq hb =>
    rw [not_beaten_of_fifo h.kind] at hb
    cases hb
  | @explored q rest hf hq _ =>
    have hworks := (s.popped rest).works_explore (g := g) q.edge
    refine ⟨hnext.accounted, hnext.spreads, hworks.kind.trans h.kind, fun hfinished => ?_⟩
    change ((s.popped rest).explore g q.edge).finished = true at hfinished
    rw [hworks.finished] at hfinished
    change s.finished = true at hfinished
    rw [hf] at hfinished
    cases hfinished

theorem after (h : Spreading g cost source s) (hg : g.Mirrors es) (n : Nat) :
    Spreading g cost source (s.after g n) := by
  induction n with
  | zero => exact h
  | succ n ih =>
    rw [after_succ]
    exact ih.step hg

theorem begun {o : Overlay V E κ} (hg : g.Mirrors es) (hf : o.Fits g) (hb : o.Blank)
    {a : VertexId} (ha : g.vertices.contains a = true) (b : VertexId) {config : SearchConfig}
    (hk : config.frontier = .fifo) :
    Spreading g (o.cost g) a ((fresh o g a b config).expand g a) := by
  have hworks := (fresh o g a b config).works_expand (g := g) a
  have hranging := Ranging.begun hg hf hb ha b config
  refine ⟨hranging.accounted, hranging.spreads, hworks.kind.trans hk, fun hfinished => ?_⟩
  rw [hworks.finished] at hfinished
  cases hfinished

/-- At the end exactly the vertices that can be walked to have a hop, but for the source. -/
theorem hop?_iff (h : Spreading g cost source s) (hf : s.finished = true) (v : VertexId) :
    s.overlay.hop? g v ≠ none ↔ v ≠ source ∧ ∃ es, g.Walk source v es := by
  obtain ⟨log, hlog⟩ := h.accounted
  have hreached := h.spreads.reached_iff (v := v) hlog.plain (h.ended hf)
  have hhop : s.overlay.hop? g v = (s.chart g).ways v := rfl
  rw [hhop, ← hreached]
  by_cases hv : v = source
  · rw [hv, h.spreads.rooted]
    exact ⟨fun hne => (hne rfl).elim, fun hne => (hne.1 rfl).elim⟩
  · rw [Ways.total?_of_ne _ hv]
    simp [hv]

/-- At the end exactly the edges out of the vertices that can be walked to are explored, and no
other edge has been seen. -/
theorem edgeMark (h : Spreading g cost source s) (hf : s.finished = true) (hg : g.Mirrors es)
    {e : EdgeId} (he : g.edges.contains e = true) :
    ∃ mark, s.overlay.edgeMark g e = .ok mark ∧
      (mark.state = .explored ↔
        ∃ v x, g.vertex v = .ok x ∧ (∃ es, g.Walk source v es) ∧ e ∈ x.outgoing.edges) ∧
      (mark.state ≠ .explored → mark.state = .unexplored) := by
  obtain ⟨log, hlog⟩ := h.accounted
  obtain ⟨mark, hmark⟩ := hlog.surveys.fits.edgeMark he
  have hstate : (s.chart g).states e = mark.state := by
    show s.overlay.state g e = mark.state
    rw [Overlay.state, hmark]
  obtain ⟨hexplored, hother⟩ := h.spreads.states_eq hlog.plain (h.ended hf) e
  rw [hstate] at hexplored hother
  refine ⟨mark, hmark, hexplored.trans ⟨fun hwhole => ?_, fun hwhole => ?_⟩, hother⟩
  · obtain ⟨v, b, hl, hv⟩ := hwhole
    obtain ⟨x, hx⟩ := Arena.contains_iff.mp (hg.live_of_leads hl).1
    exact ⟨v, x, Graph.vertex_eq_ok.mpr hx, h.spreads.walkable v hv, (hg.mem_outgoing hx).mpr ⟨b, hl⟩⟩
  · obtain ⟨v, x, hx, hwalk, hmem⟩ := hwhole
    obtain ⟨b, hl⟩ := (hg.mem_outgoing (Graph.vertex_eq_ok.mp hx)).mp hmem
    exact ⟨v, b, hl, (h.spreads.reached_iff hlog.plain (h.ended hf)).mpr hwalk⟩

end Spreading

end Search

/-- A search in the order of discovery and without a limit comes to its end. Then it has reached what
can be walked to from its source and nothing else, it has explored the edges out of there and seen
no other, and it gives an empty path only if there is no walk to its destination. -/
theorem Overlay.search_explores {V E κ : Type} [Cost κ] [LawfulCost κ] {g : Graph V E}
    {o o₁ : Overlay V E κ} (h : g.Hosts o) {config : SearchConfig}
    (hk : config.frontier = .fifo) (hm : config.maxExpansions? = none) {a b : VertexId}
    (ha : g.vertices.contains a = true) (hb : g.vertices.contains b = true) (hne : a ≠ b)
    (ho : o.beginRun g = .ok o₁) :
    ∃ s, Search.start o g a b config = .ok s ∧
      (∃ n path, (s.after g n).finished = true ∧
        o.search g a b config = .ok (path, (s.after g n).overlay) ∧
        (path.isEmpty = true ↔ ∀ es, ¬ g.Walk a b es)) ∧
      ∀ n, (s.after g n).finished = true →
        (∀ v, (s.after g n).overlay.hop? g v ≠ none ↔ v ≠ a ∧ ∃ es, g.Walk a v es) ∧
        ∀ e, g.edges.contains e = true →
          ∃ mark, (s.after g n).overlay.edgeMark g e = .ok mark ∧
            (mark.state = .explored ↔
              ∃ v x, g.vertex v = .ok x ∧ (∃ es, g.Walk a v es) ∧ e ∈ x.outgoing.edges) ∧
            (mark.state ≠ .explored → mark.state = .unexplored) := by
  obtain ⟨hstart, hbegun⟩ := Search.start_of_hosts h config ha hb hne ho
  obtain ⟨es, hg⟩ := hbegun.mirrors
  obtain ⟨hl, _, hblank, _⟩ := h.sound.2.beginRun_eq_ok ho
  have hspreading := Search.Spreading.begun hg (hl.fits h.sound.2.fits) hblank ha b hk
  have hlimit := ((Search.fresh o₁ g a b config).works_expand (g := g) a).limit.trans hm
  generalize (Search.fresh o₁ g a b config).expand g a = s at *
  refine ⟨s, hstart, ?_, fun n hf => ?_⟩
  · obtain ⟨n, path, _, hf, hsearch, hcases⟩ := hbegun.search_ends hstart hlimit hb
    have hhop := (hspreading.after hg n).hop?_iff hf b
    change (s.after g n).overlay.ways g b ≠ none ↔ _ at hhop
    refine ⟨n, path, hf, hsearch, ?_⟩
    obtain ⟨hnone, rfl⟩ | ⟨hop, hsome, hba, htrace⟩ := hcases
    · refine ⟨fun _ es hw => ?_, fun _ => rfl⟩
      exact hhop.mpr ⟨hne.symm, es, hw⟩ hnone
    · have hlast : path.hops.getLast? = some hop := (htrace.getLast? hba).trans hsome
      refine ⟨fun hempty => ?_, fun hnowalk => ?_⟩
      · rw [Path.isEmpty, List.isEmpty_iff] at hempty
        rw [hempty] at hlast
        cases hlast
      · obtain ⟨_, es, hw⟩ := hhop.mp (by rw [hsome]; simp)
        exact (hnowalk es hw).elim
  · have hend := hspreading.after hg n
    exact ⟨hend.hop?_iff hf, fun e he => hend.edgeMark hf hg he⟩

/-- From the far end of a detour there is no way back. -/
theorem Overlay.search_explores_detour : ∃ (g : Graph Unit Float)
    (o o₁ o₂ : Overlay Unit Float Float) (path : Path Float), g.Hosts o ∧ o.beginRun g = .ok o₁ ∧
    o.search g ⟨1, 0⟩ ⟨0, 0⟩ {} = .ok (path, o₂) ∧ path.isEmpty = true ∧
    (∀ es, ¬ g.Walk ⟨1, 0⟩ ⟨0, 0⟩ es) ∧ o₂.hop? g ⟨4, 0⟩ ≠ none := by
  have h : Search.detour.graph.Hosts _ :=
    ⟨Search.detour, ⟨_, rfl⟩, rfl, _, List.mem_cons_self, rfl⟩
  obtain ⟨s, _, ⟨n, path, hf, hsearch, hempty⟩, hend⟩ := Overlay.search_explores (a := ⟨1, 0⟩)
    (b := ⟨0, 0⟩) h (show SearchConfig.frontier {} = .fifo from rfl) rfl (by decide) (by decide)
    (by decide) rfl
  have hwalk : Search.detour.graph.Walk ⟨1, 0⟩ ⟨4, 0⟩ ([] ++ [⟨4, 0⟩]) :=
    Graph.Walk.start.along (by decide)
  have hnowalk : ∀ es, ¬ Search.detour.graph.Walk ⟨1, 0⟩ ⟨0, 0⟩ es := by
    intro es hw
    have hheads : ∀ edge ∈ Search.detour.graph.edges.values,
        edge.head ≠ ⟨0, 0⟩ ∧ edge.isBidirectional = false := by
      decide +kernel
    cases hw with
    | @along _ _ _ e _ he =>
      obtain ⟨edge, hedge, _⟩ := Graph.leads_iff.mp he
      obtain ⟨hhead, hone⟩ := hheads edge (Arena.mem_values.mpr ⟨e, hedge⟩)
      obtain ⟨_, heq⟩ | ⟨hboth, _⟩ := Graph.leads_cases hedge he
      · exact hhead heq.symm
      · rw [hone] at hboth
        cases hboth
  exact ⟨_, _, _, _, path, h, rfl, hsearch, hempty.mpr hnowalk, hnowalk,
    ((hend n hf).1 ⟨4, 0⟩).mpr ⟨by decide, _, hwalk⟩⟩

end Waymark
