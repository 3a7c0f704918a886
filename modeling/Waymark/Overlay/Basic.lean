import Waymark.Evaluator
import Waymark.Path

namespace Waymark

/-- How far a search has come with an edge: not seen, waiting in the frontier, ruled out, or done.
No search rules an edge out. -/
inductive EdgeState
  | unexplored
  | discovered
  | excluded
  | explored
  deriving DecidableEq, Repr

namespace EdgeState

instance : Inhabited EdgeState := ⟨.unexplored⟩

def code : EdgeState → UInt8
  | .unexplored => 0
  | .discovered => 1
  | .excluded => 254
  | .explored => 255

end EdgeState

/-- What an overlay knows of a vertex: the last hop of the way by which it was reached. -/
structure VertexMark (κ : Type) where
  vertex : VertexId
  hop? : Option (Hop κ) := none
  deriving DecidableEq, Repr

def VertexMark.cost? {κ : Type} (m : VertexMark κ) : Option κ := m.hop?.map Hop.cost

/-- What an overlay knows of an edge: its cost, taken when the overlay is mounted and at every reset,
and how far a search has come with it. -/
structure EdgeMark (κ : Type) where
  edge : EdgeId
  cost : κ
  state : EdgeState := .unexplored
  deriving DecidableEq, Repr

/-- Private marks of one user of a graph. Each element of the graph holds, under the overlay's
channel, the position of its mark. `used` tells whether a search has begun since costs were last
taken. -/
structure Overlay (V E κ : Type) where
  channel : Channel
  appraiser : Appraiser V E κ
  vertices : Array (VertexMark κ) := #[]
  edges : Array (EdgeMark κ) := #[]
  used : Bool := false

namespace Overlay

variable {V E κ : Type}

/-- The position and the mark of a vertex, found through the handle it carries. -/
def findVertex (o : Overlay V E κ) (g : Graph V E) (v : VertexId) :
    Except (Failure κ) (Nat × VertexMark κ) :=
  match g.vertices.get? v with
  | none => .error (.missing (.vertex v))
  | some vertex =>
    match (vertex.handle? o.channel).bind Handle.vertex? with
    | none => .error (.undecorated (.vertex v) o.channel)
    | some i =>
      match o.vertices[i]? with
      | some mark =>
        if mark.vertex = v then .ok (i, mark) else .error (.undecorated (.vertex v) o.channel)
      | none => .error (.undecorated (.vertex v) o.channel)

/-- The position and the mark of an edge, found through the handle it carries. -/
def findEdge (o : Overlay V E κ) (g : Graph V E) (e : EdgeId) :
    Except (Failure κ) (Nat × EdgeMark κ) :=
  match g.edges.get? e with
  | none => .error (.missing (.edge e))
  | some edge =>
    match (edge.handle? o.channel).bind Handle.edge? with
    | none => .error (.undecorated (.edge e) o.channel)
    | some i =>
      match o.edges[i]? with
      | some mark =>
        if mark.edge = e then .ok (i, mark) else .error (.undecorated (.edge e) o.channel)
      | none => .error (.undecorated (.edge e) o.channel)

def vertexMark (o : Overlay V E κ) (g : Graph V E) (v : VertexId) :
    Except (Failure κ) (VertexMark κ) :=
  Prod.snd <$> o.findVertex g v

def edgeMark (o : Overlay V E κ) (g : Graph V E) (e : EdgeId) : Except (Failure κ) (EdgeMark κ) :=
  Prod.snd <$> o.findEdge g e

def hop? (o : Overlay V E κ) (g : Graph V E) (v : VertexId) : Option (Hop κ) :=
  match o.findVertex g v with
  | .ok (_, mark) => mark.hop?
  | .error _ => none

def setHop (o : Overlay V E κ) (g : Graph V E) (v : VertexId) (hop? : Option (Hop κ)) :
    Overlay V E κ :=
  match o.findVertex g v with
  | .ok (i, mark) => { o with vertices := o.vertices.setIfInBounds i { mark with hop? } }
  | .error _ => o

def setState (o : Overlay V E κ) (g : Graph V E) (e : EdgeId) (state : EdgeState) :
    Overlay V E κ :=
  match o.findEdge g e with
  | .ok (i, mark) => { o with edges := o.edges.setIfInBounds i { mark with state } }
  | .error _ => o

/-- The marks of the vertices that are not among those seen. -/
def unseen (o : Overlay V E κ) (seen : List VertexId) : List (VertexMark κ) :=
  o.vertices.toList.filter (·.vertex ∉ seen)

theorem mem_vertices_of_vertexMark {o : Overlay V E κ} {g : Graph V E} {v : VertexId}
    {mark : VertexMark κ} (h : o.vertexMark g v = .ok mark) :
    mark ∈ o.vertices ∧ mark.vertex = v := by
  unfold vertexMark findVertex at h
  split at h
  · cases h
  · split at h
    · cases h
    · split at h
      · split at h
        · cases h
          exact ⟨Array.mem_of_getElem? ‹_›, ‹_›⟩
        · cases h
      · cases h

theorem length_unseen_cons_lt {o : Overlay V E κ} {g : Graph V E} {v : VertexId}
    {mark : VertexMark κ} {seen : List VertexId} (h : o.vertexMark g v = .ok mark)
    (hv : v ∉ seen) : (o.unseen (v :: seen)).length < (o.unseen seen).length := by
  obtain ⟨hmem, rfl⟩ := mem_vertices_of_vertexMark h
  have hcons : o.unseen (mark.vertex :: seen) =
      (o.unseen seen).filter (·.vertex ≠ mark.vertex) := by
    simp [unseen, List.filter_filter]
  rw [hcons]
  refine List.length_filter_lt_length_iff_exists.mpr ⟨mark, ?_, by simp⟩
  simp [unseen, hmem, hv]

/-- Follows hops back from `v`, in front of the hops already found, up to a vertex that has none.
No vertex may be come to twice. -/
def backtrack (o : Overlay V E κ) (g : Graph V E) (seen : List VertexId) (v : VertexId)
    (found : List (Hop κ)) : Except (Failure κ) (List (Hop κ)) :=
  match _h : o.vertexMark g v with
  | .error failure => .error failure
  | .ok mark =>
    match mark.hop? with
    | none => .ok found
    | some hop =>
      if _hv : v ∈ seen then .error (.cycle v o.channel)
      else o.backtrack g (v :: seen) hop.origin (hop :: found)
termination_by (o.unseen seen).length
decreasing_by exact length_unseen_cons_lt _h _hv

/-- The way by which `v` was reached; empty if it was not. -/
def pathTo (o : Overlay V E κ) (g : Graph V E) (v : VertexId) : Except (Failure κ) (Path κ) := do
  return ⟨← o.backtrack g [] v []⟩

def description (o : Overlay V E κ) : String :=
  "DecorationContext \x7b channel: Channel(" ++ o.channel.text ++ "), vertices: "
    ++ toString o.vertices.size ++ ", edges: " ++ toString o.edges.size ++ " \x7d"

end Overlay

end Waymark
