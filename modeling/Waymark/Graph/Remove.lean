import Waymark.Graph.Basic

namespace Waymark.Graph

variable {V E : Type}

/-- Takes an edge out of the lists of both its ends and returns its payload. -/
def removeEdge (g : Graph V E) (e : EdgeId) : Except Missing (E × Graph V E) :=
  match g.edges.erase? e with
  | some (edge, edges) =>
    let vertices := g.vertices.modify edge.tail (·.detach e edge.head edge.kind.tailRoles)
    let vertices := vertices.modify edge.head (·.detach e edge.tail edge.kind.headRoles)
    .ok (edge.data, { g with edges, vertices })
  | none => .error ⟨.edge e⟩

def removeEdges (g : Graph V E) (es : List EdgeId) : Except Missing (Graph V E) :=
  es.foldlM (fun g e => Prod.snd <$> g.removeEdge e) g

/-- Removes a vertex after the edges in `order`, which are to be the incident ones in any order. -/
def removeVertexAlong (g : Graph V E) (order : List EdgeId) (v : VertexId) :
    Except Missing (V × Graph V E) := do
  let g ← g.removeEdges order
  match g.vertices.erase? v with
  | some (vertex, vertices) => return (vertex.data, { g with vertices })
  | none => throw ⟨.vertex v⟩

/-- Removes a vertex with all its edges and returns its payload. -/
def removeVertex (g : Graph V E) (v : VertexId) : Except Missing (V × Graph V E) := do
  let vertex ← g.vertex v
  g.removeVertexAlong vertex.incident v

/-- Removes every vertex and edge. Channels stay as they are. -/
def clear (g : Graph V E) : Graph V E :=
  { g with vertices := g.vertices.clear, edges := g.edges.clear }

end Waymark.Graph
