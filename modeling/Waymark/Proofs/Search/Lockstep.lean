import Waymark.Proofs.Search.Account
import Waymark.Proofs.Search.Alike
import Waymark.Proofs.Search.Halting
import Waymark.Proofs.Workspace.Life

namespace Waymark.Search

variable {V E κ : Type} {R : Chart κ → Chart κ → Prop} {g g' : Graph V E}
  {s s' : Search V E κ}

/-- Two searches that have come equally far, as far as `R` can tell from their charts. -/
structure Lockstep (R : Chart κ → Chart κ → Prop) (g : Graph V E) (s : Search V E κ)
    (g' : Graph V E) (s' : Search V E κ) : Prop where
  charts : R (s.chart g) (s'.chart g')
  destination : s'.destination = s.destination
  limit : s'.maxExpansions? = s.maxExpansions?
  expansions : s'.expansions = s.expansions
  finished : s'.finished = s.finished

namespace Lockstep

theorem ways_eq (h : Lockstep Eq g s g' s') : s'.overlay.ways g' = s.overlay.ways g :=
  congrArg Chart.ways h.charts.symm

theorem states_eq (h : Lockstep Eq g s g' s') : s'.overlay.state g' = s.overlay.state g :=
  congrArg Chart.states h.charts.symm

theorem frontier_eq (h : Lockstep Eq g s g' s') : s'.frontier = s.frontier :=
  congrArg Chart.frontier h.charts.symm

variable [Cost κ]

/-- They stay so if the same edges wait and the next one is explored alike. -/
theorem step (h : Lockstep R g s g' s') (hwaiting : (s'.chart g').waiting = (s.chart g).waiting)
    (hnext : s.finished = false → ∀ q rest q' rest', s.frontier.queue = q :: rest →
      s'.frontier.queue = q' :: rest' → q'.edge = q.edge →
        s'.beaten g' q' = s.beaten g q ∧
        R ((s.chart g).popped rest) ((s'.chart g').popped rest') ∧
        R (((s.popped rest).explore g q.edge).chart g)
          (((s'.popped rest').explore g' q.edge).chart g')) :
    (s'.step g').1 = (s.step g).1 ∧ Lockstep R g (s.step g).2 g' (s'.step g').2 := by
  change s'.frontier.queue.map Queued.edge = s.frontier.queue.map Queued.edge at hwaiting
  cases hf : s.finished with
  | true =>
    rw [step_of_finished hf, step_of_finished (h.finished.trans hf)]
    exact ⟨rfl, h⟩
  | false =>
    have hf' := h.finished.trans hf
    have hempty : s'.frontier.isEmpty = s.frontier.isEmpty := by
      rw [Frontier.isEmpty, Frontier.isEmpty, ← List.isEmpty_map (f := Queued.edge), hwaiting,
        List.isEmpty_map]
    have hlimit : s'.limitReached? = s.limitReached? := by
      rw [limitReached?, limitReached?, h.limit, h.expansions, hempty]
    cases hl : s.limitReached? with
    | some limit =>
      rw [step_at_limit hf hl, step_at_limit hf' (hlimit.trans hl)]
      exact ⟨rfl, h⟩
    | none =>
      have hl' := hlimit.trans hl
      cases hq : s.frontier.queue with
      | nil =>
        have hq' : s'.frontier.queue = [] := by simpa [hq] using hwaiting
        rw [step_of_dry hf hl hq, step_of_dry hf' hl' hq']
        exact ⟨rfl, h.charts, h.destination, h.limit, h.expansions, rfl⟩
      | cons q rest =>
        rw [hq, List.map_cons, List.map_eq_cons_iff] at hwaiting
        obtain ⟨q', rest', hq', hedge, _⟩ := hwaiting
        obtain ⟨hbeaten, hpopped, hexplored⟩ := hnext hf q rest q' rest' hq hq' hedge
        cases hb : s.beaten g q with
        | true =>
          rw [step_of_beaten hf hl hq hb, step_of_beaten hf' hl' hq' (hbeaten.trans hb)]
          exact ⟨rfl, hpopped, h.destination, h.limit, h.expansions, rfl⟩
        | false =>
          rw [step_of_waiting hf hl hq hb, step_of_waiting hf' hl' hq' (hbeaten.trans hb), hedge]
          have hworks := (s.popped rest).works_explore (g := g) q.edge
          have hworks' := (s'.popped rest').works_explore (g := g') q.edge
          refine ⟨rfl, hexplored, ?_, ?_, ?_, ?_⟩
          · exact hworks'.destination.trans (h.destination.trans hworks.destination.symm)
          · exact hworks'.limit.trans (h.limit.trans hworks.limit.symm)
          · exact hworks'.expansions.trans
              ((congrArg (· + 1) h.expansions).trans hworks.expansions.symm)
          · exact hworks'.finished.trans (h.finished.trans hworks.finished.symm)

/-- What two searches that begin have to agree on. -/
theorem begun {o o' : Overlay V E κ} {a b : VertexId} {config : SearchConfig}
    (hc : R (((fresh o g a b config).expand g a).chart g)
      (((fresh o' g' a b config).expand g' a).chart g')) :
    Lockstep R g ((fresh o g a b config).expand g a) g' ((fresh o' g' a b config).expand g' a) := by
  have hworks := (fresh o g a b config).works_expand (g := g) a
  have hworks' := (fresh o' g' a b config).works_expand (g := g') a
  refine ⟨hc, hworks'.destination.trans hworks.destination.symm,
    hworks'.limit.trans hworks.limit.symm, hworks'.expansions.trans hworks.expansions.symm,
    hworks'.finished.trans hworks.finished.symm⟩

/-! Searches whose charts are the same -/

theorem beaten_eq (h : Lockstep Eq g s g' s') (q : Queued κ) : s'.beaten g' q = s.beaten g q := by
  have hhop : s'.overlay.hop? g' s.destination = s.overlay.hop? g s.destination :=
    congrFun h.ways_eq s.destination
  rw [beaten, beaten, h.frontier_eq, h.destination, hhop]

theorem step_of_eq (h : Lockstep Eq g s g' s') (hexplore : s.finished = false → ∀ q rest,
    s.frontier.queue = q :: rest → ((s.popped rest).explore g q.edge).chart g =
      ((s'.popped rest).explore g' q.edge).chart g') :
    (s'.step g').1 = (s.step g).1 ∧ Lockstep Eq g (s.step g).2 g' (s'.step g').2 := by
  refine h.step (congrArg Chart.waiting h.charts.symm) fun hf q rest q' rest' hq hq' _ => ?_
  rw [h.frontier_eq, hq] at hq'
  cases hq'
  exact ⟨h.beaten_eq q, congrArg (fun c => c.popped rest) h.charts, hexplore hf q rest hq⟩

end Lockstep

/-- On graphs with the same vertices both searches are refused for the same reason, or both begin. -/
theorem start_of_vertices [Cost κ] {o o₁ o' o₁' : Overlay V E κ} (h : g.Hosts o) (h' : g'.Hosts o')
    (hv : g'.vertices.map Vertex.bare = g.vertices.map Vertex.bare) (ho : o.beginRun g = .ok o₁)
    (ho' : o'.beginRun g' = .ok o₁') (a b : VertexId) (config : SearchConfig) :
    (∃ failure, start o g a b config = .error (failure, o) ∧
      start o' g' a b config = .error (failure.on o'.channel, o')) ∨
    (g.vertices.contains a = true ∧
      start o g a b config = .ok ((fresh o₁ g a b config).expand g a) ∧
      start o' g' a b config = .ok ((fresh o₁' g' a b config).expand g' a)) := by
  obtain ⟨rounds, hlived⟩ := h.lived
  obtain ⟨rounds', hlived'⟩ := h'.lived
  have hf := h.sound.2.fits
  have hrefusal := Overlay.refusal?_of_vertices hv hf hlived.aged.listed h'.sound.2.fits
    hlived'.aged.listed a b
  cases hrefused : refusal? o g a b with
  | some failure =>
    rw [hrefused] at hrefusal
    refine Or.inl ⟨failure, ?_, ?_⟩
    · rw [start, hrefused]
    · rw [start, hrefusal]
      rfl
  | none =>
    rw [hrefused] at hrefusal
    exact Or.inr ⟨((refusal?_eq_none hf).mp hrefused).1, start_eq_ok.mpr ⟨hrefused, o₁, ho, rfl⟩,
      start_eq_ok.mpr ⟨hrefusal, o₁', ho', rfl⟩⟩

end Waymark.Search
