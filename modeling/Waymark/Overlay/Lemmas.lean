import Waymark.Overlay.Basic

namespace Waymark.Overlay

variable {V E κ : Type}

theorem backtrack_eq (o : Overlay V E κ) (g : Graph V E) (seen : List VertexId) (v : VertexId)
    (found : List (Hop κ)) :
    o.backtrack g seen v found = (do
      match (← o.vertexMark g v).hop? with
      | none => return found
      | some hop =>
        if v ∈ seen then throw (.cycle v o.channel)
        else o.backtrack g (v :: seen) hop.origin (hop :: found)) := by
  rw [backtrack]
  split
  · rw [‹o.vertexMark g v = _›]
    rfl
  · rename_i mark hm
    rw [hm]
    dsimp only [bind, Except.bind]
    cases mark.hop? with
    | none => rfl
    | some hop =>
      dsimp only
      split <;> rfl

/-- The number of edges that the current search has not seen. -/
def unexplored (o : Overlay V E κ) : Nat := o.edges.countP (·.state = .unexplored)

theorem getElem?_of_findEdge {o : Overlay V E κ} {g : Graph V E} {e : EdgeId} {i : Nat}
    {mark : EdgeMark κ} (h : o.findEdge g e = .ok (i, mark)) :
    o.edges[i]? = some mark ∧ mark.edge = e := by
  unfold findEdge at h
  split at h
  · cases h
  · split at h
    · cases h
    · split at h
      · split at h
        · cases h
          exact ⟨‹_›, ‹_›⟩
        · cases h
      · cases h

@[simp] theorem edges_setHop (o : Overlay V E κ) (g : Graph V E) (v : VertexId)
    (hop? : Option (Hop κ)) : (o.setHop g v hop?).edges = o.edges := by
  unfold setHop
  split <;> rfl

private theorem unexplored_set {o : Overlay V E κ} {i : Nat} {mark : EdgeMark κ}
    (h : o.edges[i]? = some mark) (state : EdgeState) :
    (o.edges.setIfInBounds i { mark with state }).countP (·.state = .unexplored)
        + (if mark.state = .unexplored then 1 else 0)
      = o.unexplored + if state = .unexplored then 1 else 0 := by
  obtain ⟨hi, rfl⟩ := Array.getElem?_eq_some_iff.mp h
  have hpos : o.edges[i].state = .unexplored →
      0 < o.edges.countP (·.state = .unexplored) := fun hu =>
    Array.countP_pos_iff.mpr ⟨_, Array.getElem_mem hi, by simpa using hu⟩
  rw [Array.setIfInBounds_def, dif_pos hi, Array.countP_set, unexplored]
  simp only [decide_eq_true_eq]
  split
  · have := hpos ‹_›
    omega
  · omega

theorem unexplored_setState_of_unexplored {o : Overlay V E κ} {g : Graph V E} {e : EdgeId}
    {mark : EdgeMark κ} (h : o.edgeMark g e = .ok mark) (hu : mark.state = .unexplored)
    {state : EdgeState} (hs : state ≠ .unexplored) :
    (o.setState g e state).unexplored + 1 = o.unexplored := by
  unfold edgeMark at h
  cases hf : o.findEdge g e with
  | error failure => rw [hf] at h; cases h
  | ok found =>
    rw [hf] at h
    cases h
    have hset := unexplored_set (getElem?_of_findEdge hf).1 state
    rw [if_pos hu, if_neg hs] at hset
    unfold setState
    rw [hf]
    exact hset

theorem unexplored_setState_le (o : Overlay V E κ) (g : Graph V E) (e : EdgeId)
    {state : EdgeState} (hs : state ≠ .unexplored) :
    (o.setState g e state).unexplored ≤ o.unexplored := by
  unfold setState
  split
  · rename_i i mark hf
    have hset := unexplored_set (getElem?_of_findEdge hf).1 state
    rw [if_neg hs] at hset
    exact Nat.le_trans (Nat.le_add_right _ _) (Nat.le_of_eq hset)
  · exact Nat.le_refl _

end Waymark.Overlay
