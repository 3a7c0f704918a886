import Waymark.Overlay.Lemmas
import Waymark.Search.Basic

namespace Waymark.Search

variable {V E κ : Type} [Cost κ] {g : Graph V E} {P : Search V E κ → Prop}

/-! What holds of a search all the time while it explores an edge: it does nothing but write hops,
discover edges that it has not seen, and mark the edge as explored. -/

section Write

variable (write : ∀ s v hop?, P s → P { s with overlay := s.overlay.setHop g v hop? })

include write

theorem relax_induct {s : Search V E κ} (h : P s) (a b : VertexId) (e : EdgeId) (cost : κ) :
    P (s.relax g a b e cost) := by
  rw [relax]
  split
  · exact h
  · split
    · exact h
    · dsimp only
      split
      · split
        · exact h
        · exact write s b _ h
      · exact write s b _ h

theorem relaxEnds_induct {s : Search V E κ} (h : P s) (edge : Edge E) (cost : κ) :
    P (s.relaxEnds g edge cost) := by
  unfold relaxEnds
  dsimp only
  split
  · exact relax_induct write (relax_induct write h _ _ _ _) _ _ _ _
  · exact relax_induct write h _ _ _ _

end Write

section Discover

variable (discover : ∀ s e mark key, s.overlay.edgeMark g e = .ok mark →
  mark.state = .unexplored → P s → P { s with
    overlay := s.overlay.setState g e .discovered
    frontier := s.frontier.push e key })

include discover

theorem discover_induct {s : Search V E κ} (h : P s) (base : κ) (e : EdgeId) :
    P (s.discover g base e) := by
  rw [Search.discover]
  split
  · split
    · exact discover s e _ _ ‹_› ‹_› h
    · exact h
  · exact h

theorem expand_induct {s : Search V E κ} (h : P s) (v : VertexId) : P (s.expand g v) := by
  rw [expand]
  split
  · rename_i vertex _
    generalize (s.reached? g v).getD 0 = base
    induction vertex.outgoing.edges generalizing s with
    | nil => exact h
    | cons e es ih => exact ih (discover_induct discover h base e)
  · exact h

theorem expandEnds_induct {s : Search V E κ} (h : P s) (edge : Edge E) :
    P (s.expandEnds g edge) := by
  unfold expandEnds
  dsimp only
  split
  · exact expand_induct discover (expand_induct discover h _) _
  · exact expand_induct discover h _

theorem explore_induct
    (write : ∀ s v hop?, P s → P { s with overlay := s.overlay.setHop g v hop? })
    (settle : ∀ s e, P s → P { s with overlay := s.overlay.setState g e .explored })
    {s : Search V E κ} (h : P s) (e : EdgeId) : P (s.explore g e) := by
  rw [explore]
  split
  · exact settle _ e (expandEnds_induct discover (relaxEnds_induct write h _ _) _)
  · exact h

end Discover

end Waymark.Search
