import Waymark.Proofs.Search.Ways

namespace Waymark

namespace Frontier

variable {κ : Type} [Cost κ] {q r : Queued κ} {rs : List (Queued κ)}

theorem mem_insertByKey : r ∈ insertByKey q rs ↔ r = q ∨ r ∈ rs := by
  induction rs with
  | nil => simp [insertByKey]
  | cons x rs ih =>
    rw [insertByKey]
    split
    · rw [List.mem_cons, ih, List.mem_cons]
      exact or_left_comm
    · exact List.mem_cons

theorem mem_push {f : Frontier κ} {e : EdgeId} {key : κ} :
    r ∈ (f.push e key).queue ↔ r = ⟨e, key⟩ ∨ r ∈ f.queue := by
  rw [push]
  split
  · rw [List.mem_append, List.mem_singleton]
    exact or_comm
  · exact mem_insertByKey

/-- Behind keys that are not greater an edge waits at the end. -/
theorem insertByKey_of_le (h : ∀ r ∈ rs, r.key ≤ q.key) : insertByKey q rs = rs ++ [q] := by
  induction rs with
  | nil => rfl
  | cons x rs ih =>
    rw [insertByKey, if_pos (h x (.head rs)), ih fun r hr => h r (.tail x hr)]
    rfl

/-- There both kinds of frontier do the same. -/
theorem push_of_le {f : Frontier κ} {e : EdgeId} {key : κ} (h : ∀ r ∈ f.queue, r.key ≤ key) :
    f.push e key = { f with queue := f.queue ++ [⟨e, key⟩] } := by
  rw [push]
  split
  · rfl
  · rw [insertByKey_of_le h]

/-- The order in which edges wait. -/
def Sorted (rs : List (Queued κ)) : Prop := rs.Pairwise (·.key ≤ ·.key)

theorem Sorted.insertByKey [LawfulCost κ] (h : Sorted rs) (hq : 0 ≤ q.key)
    (hrs : ∀ r ∈ rs, 0 ≤ r.key) : Sorted (insertByKey q rs) := by
  induction rs with
  | nil => exact List.pairwise_singleton _ q
  | cons x rs ih =>
    obtain ⟨hx, hrest⟩ := List.pairwise_cons.mp h
    rw [Frontier.insertByKey]
    split
    · rename_i hle
      refine List.pairwise_cons.mpr ⟨fun y hy => ?_, ih hrest fun r hr => hrs r (.tail x hr)⟩
      obtain rfl | hy := mem_insertByKey.mp hy
      · exact hle
      · exact hx y hy
    · rename_i hle
      have hqx : q.key ≤ x.key := LawfulCost.le_of_not_le (hrs x (.head rs)) hq hle
      refine List.pairwise_cons.mpr ⟨fun y hy => ?_, h⟩
      obtain rfl | hy := List.mem_cons.mp hy
      · exact hqx
      · exact LawfulCost.le_trans hqx (hx y hy)

end Frontier

namespace Overlay

variable {V E κ : Type} {o : Overlay V E κ} {g : Graph V E}

theorem state_setHop (o : Overlay V E κ) (g : Graph V E) (v : VertexId)
    (hop? : Option (Hop κ)) : (o.setHop g v hop?).state g = o.state g := by
  funext e
  rw [state, state, edgeMark_setHop]

theorem Fits.state_setState (h : o.Fits g) {e : EdgeId} (he : g.edges.contains e = true)
    (state : EdgeState) : (o.setState g e state).state g = Function.update (o.state g) e state := by
  funext d
  rw [Overlay.state, h.edgeMark_setState he]
  by_cases hd : d = e
  · obtain ⟨mark, hm⟩ := h.edgeMark he
    rw [if_pos hd, hd, hm, Function.update_self]
    rfl
  · rw [if_neg hd, Function.update_of_ne hd]
    rfl

theorem Blank.state (h : o.Blank) : o.state g = fun _ => .unexplored := by
  funext e
  rw [Overlay.state]
  cases hm : o.edgeMark g e with
  | error failure => rfl
  | ok mark =>
    obtain ⟨i, hi⟩ := edgeMark_eq_ok.mp hm
    exact h.edges mark (Array.mem_of_getElem? (findEdge_eq_ok.mp hi).2.1)

end Overlay

namespace Search

variable {V E κ : Type} [Cost κ] {g : Graph V E} {s : Search V E κ}

/-- Reaching a vertex says nothing of edges. -/
theorem state_relaxEnds (s : Search V E κ) (g : Graph V E) (edge : Edge E) (cost : κ) :
    (s.relaxEnds g edge cost).overlay.state g = s.overlay.state g ∧
      (s.relaxEnds g edge cost).frontier = s.frontier :=
  relaxEnds_induct (P := fun s' => s'.overlay.state g = s.overlay.state g ∧
      s'.frontier = s.frontier)
    (fun s' v hop? h => ⟨(s'.overlay.state_setHop g v hop?).trans h.1, h.2⟩) ⟨rfl, rfl⟩ edge cost

end Search

end Waymark
