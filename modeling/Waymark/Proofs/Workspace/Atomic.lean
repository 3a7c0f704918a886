import Waymark.Proofs.Cost.Binary64
import Waymark.Proofs.Graph.Restored
import Waymark.Proofs.Overlay.Question
import Waymark.Proofs.Workspace.Issue
import Waymark.Proofs.Workspace.Registry

namespace Waymark

variable {V E : Type}

namespace Graph

variable {g : Graph V E} {evaluator : Evaluator V E Float} {k : Nat} {failure : Failure Float}

/-- The answer to question number `k` of a mounting, about the edge at position `k`, keeps the
overlay off the graph: there is none, or it is a cost that is not a number, infinite or below zero.
Beside it stands the failure that says so. -/
inductive Barred (g : Graph V E) (evaluator : Evaluator V E Float) (k : Nat) :
    Failure Float → Prop
  | unpriced {edge : Edge E} {reason : String} (hedge : g.edges.values[k]? = some edge)
      (hanswer : evaluator.answer k (g.halfway k) edge = .error reason) :
      Barred g evaluator k (.unpriced edge.id reason)
  | invalidCost {edge : Edge E} {cost : Float} (hedge : g.edges.values[k]? = some edge)
      (hanswer : evaluator.answer k (g.halfway k) edge = .ok cost)
      (hcost : cost.isNaN = true ∨ cost.isInf = true ∨ cost < 0) :
      Barred g evaluator k (.invalidCost edge.id cost)

theorem barred_iff {es : List EdgeId} (hm : g.Mirrors es) :
    g.Barred evaluator k failure ↔ g.Objection evaluator k failure := by
  have hsize {edge : Edge E} (hedge : g.edges.values[k]? = some edge) :
      (g.appraiserAt evaluator k).asked.size = k := by
    have he : g.edges.ids[k]? = some edge.id := by simp [← hm.map_edge_id, hedge]
    exact size_asked_appraiserAt he
  constructor
  · intro h
    cases h with
    | unpriced hedge hanswer =>
      obtain ⟨appraiser, hp⟩ := Appraiser.price_eq_error.mpr
        (Or.inl ⟨_, by rw [hsize hedge]; exact hanswer, rfl⟩)
      exact ⟨_, appraiser, hedge, hp⟩
    | invalidCost hedge hanswer hcost =>
      obtain ⟨appraiser, hp⟩ := Appraiser.price_eq_error.mpr
        (Or.inr ⟨_, by rw [hsize hedge]; exact hanswer,
          Binary64.float_not_admissible_iff.mpr hcost, rfl⟩)
      exact ⟨_, appraiser, hedge, hp⟩
  · intro h
    obtain ⟨edge, appraiser, hedge, hp⟩ := h
    obtain ⟨reason, hanswer, rfl⟩ | ⟨cost, hanswer, hcost, rfl⟩ :=
      Appraiser.price_eq_error.mp ⟨appraiser, hp⟩
    · rw [hsize hedge] at hanswer
      exact .unpriced hedge hanswer
    · rw [hsize hedge] at hanswer
      exact .invalidCost hedge hanswer (Binary64.float_not_admissible_iff.mp hcost)

end Graph

namespace Workspace

/-- Whatever else is mounted, an overlay is kept off exactly by an answer that is no cost. The first
such answer is reported, nothing is asked after it, and of the attempt nothing stays behind. -/
theorem Reachable.mount_atomic {w : Workspace V E Float} (h : w.Reachable)
    (evaluator : Evaluator V E Float) :
    ((∃ failure appraiser, (w.graph.mount evaluator).1 = .error (failure, appraiser)) ↔
        ∃ k failure, w.graph.Barred evaluator k failure) ∧
      ∀ failure appraiser g, w.graph.mount evaluator = (.error (failure, appraiser), g) →
        w.graph.Restored g ∧
          ∃ k, w.graph.Barred evaluator k failure ∧
            (∀ j < k, ∀ failure', ¬ w.graph.Barred evaluator j failure') ∧
            appraiser.asked.toList = (w.graph.edges.values.take (k + 1)).map Edge.id ∧
            (appraiser.asked.toList.map ElementId.index).Pairwise (· < ·) := by
  obtain ⟨es, hm⟩ := h.sound.mirrors
  have hvacant := h.registered.vacant h.sound.not_mem_channels
  have hbarred (k : Nat) (failure : Failure Float) :
      w.graph.Barred evaluator k failure ↔ w.graph.Objection evaluator k failure :=
    Graph.barred_iff hm
  simp only [hbarred]
  cases hmount : w.graph.mount evaluator with
  | mk mounted g =>
    obtain ⟨o, rfl, hnone⟩ | ⟨k, failure, rfl, hobj, hfirst⟩ :=
      Graph.mount_course hm hvacant hmount
    · refine ⟨⟨fun hfailed => ?_, fun hsome => ?_⟩, fun _ _ _ hfailed => ?_⟩
      · obtain ⟨failure, appraiser, hfailed⟩ := hfailed
        cases hfailed
      · obtain ⟨k, failure, hobj⟩ := hsome
        exact (hnone k failure hobj).elim
      · cases hfailed
    · refine ⟨iff_of_true ⟨failure, _, rfl⟩ ⟨k, failure, hobj⟩, fun _ _ _ hfailed => ?_⟩
      cases hfailed
      obtain ⟨honly, _⟩ := Graph.mount_spec hm hmount
      obtain ⟨hcounted, hundone⟩ := Graph.mount_registry h.registered.counted hvacant hmount
      have hbare := (Graph.redecorated_mount hmount).bare_eq
      refine ⟨honly.restored hbare h.registered.counted hcounted hvacant (hundone _ _ rfl).1,
        k, hobj, hfirst, ?_, ?_⟩
      · rw [List.map_take, hm.map_edge_id]
        rfl
      · show ((w.graph.edges.ids.take (k + 1)).map ElementId.index).Pairwise (· < ·)
        rw [List.map_take]
        exact w.graph.edges.pairwise_ids_index.sublist (List.take_sublist _ _)

/-- Three edges with the first and the third channel taken. An overlay comes to the second edge,
whose payload is no cost, and gives the second channel back. -/
theorem Reachable.mount_atomic_gap :
    ∃ (w : Workspace Unit Float Float) (appraiser : Appraiser Unit Float Float)
      (g : Graph Unit Float), w.Reachable ∧ w.channels = [⟨2⟩, ⟨0⟩] ∧
        w.graph.acquireChannel.1 = ⟨1⟩ ∧
        w.graph.edges.ids = [⟨0, 0⟩, ⟨1, 0⟩, ⟨2, 0⟩] ∧
        w.graph.mount .payload = (.error (.invalidCost ⟨1, 0⟩ (-1), appraiser), g) ∧
        appraiser.asked = #[⟨0, 0⟩, ⟨1, 0⟩] ∧ w.graph.Restored g := by
  let rs : List (Request Unit Float Float) := [.addVertices [(), (), ()],
    .link ⟨0, 0⟩ ⟨1, 0⟩ .directed 1, .link ⟨1, 0⟩ ⟨2, 0⟩ .bidirectional (-1),
    .link ⟨2, 0⟩ ⟨0, 0⟩ .directed 1, .deed 0 (.mount (.constant 1)),
    .deed 1 (.mount (.constant 1)), .deed 2 (.mount (.constant 1)), .deed 1 .unmount]
  let w := rs.foldl obey {}
  have hreach : w.Reachable := ⟨rs, rfl⟩
  have hchannels : w.channels = [⟨2⟩, ⟨0⟩] := by decide +kernel
  have hnext : w.graph.acquireChannel.1 = ⟨1⟩ := by decide +kernel
  have hids : w.graph.edges.ids = [⟨0, 0⟩, ⟨1, 0⟩, ⟨2, 0⟩] := by decide +kernel
  have hend : failure? ((w.graph.mount .payload).1.mapError fun e => ((e.1, e.2.asked), ())) =
      some (.invalidCost ⟨1, 0⟩ (-1), #[⟨0, 0⟩, ⟨1, 0⟩]) := by
    decide +kernel
  generalize w = w at hreach hchannels hnext hids hend
  cases hmount : w.graph.mount .payload with
  | mk mounted g =>
    rw [hmount] at hend
    cases mounted with
    | ok o => cases hend
    | error e =>
      obtain ⟨failure, appraiser⟩ := e
      obtain ⟨hfailure, hasked⟩ := Prod.mk.inj (Option.some.inj hend)
      obtain rfl : failure = .invalidCost ⟨1, 0⟩ (-1) := hfailure
      obtain ⟨hrestored, _⟩ := (hreach.mount_atomic .payload).2 _ _ _ hmount
      exact ⟨w, appraiser, g, hreach, hchannels, hnext, hids, hmount, hasked, hrestored⟩

end Workspace

end Waymark
