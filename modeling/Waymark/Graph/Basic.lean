import Waymark.Arena
import Waymark.Edge

namespace Waymark

/-- The refusal to work on an element that is not in the graph. -/
structure Missing where
  element : AnyId
  deriving DecidableEq, Repr

/-- A directed graph with payloads. Each vertex keeps lists of its incident edges; the graph and all
its elements carry a slot table, in which overlays register. -/
structure Graph (V E : Type) where
  vertices : Arena .vertex (Vertex V) := {}
  edges : Arena .edge (Edge E) := {}
  channels : SlotTable := {}

namespace Graph

variable {V E : Type}

def withCapacity (vertexCount edgeCount : Nat) : Graph V E where
  vertices := .withCapacity vertexCount
  edges := .withCapacity edgeCount

def vertex (g : Graph V E) (v : VertexId) : Except Missing (Vertex V) :=
  match g.vertices.get? v with
  | some vertex => .ok vertex
  | none => .error ⟨.vertex v⟩

def edge (g : Graph V E) (e : EdgeId) : Except Missing (Edge E) :=
  match g.edges.get? e with
  | some edge => .ok edge
  | none => .error ⟨.edge e⟩

def vertexCount (g : Graph V E) : Nat := g.vertices.size

def edgeCount (g : Graph V E) : Nat := g.edges.size

def isEmpty (g : Graph V E) : Bool := g.vertexCount == 0

def addVertex (g : Graph V E) (data : V) : VertexId × Graph V E :=
  let (v, vertices) := g.vertices.insertWith fun id => { id, data }
  (v, { g with vertices })

def addVertices (g : Graph V E) : List V → List VertexId × Graph V E
  | [] => ([], g)
  | data :: rest =>
    let (v, g) := g.addVertex data
    let (vs, g) := g.addVertices rest
    (v :: vs, g)

/-- Replaces the payload of a vertex and returns the old one. -/
def setVertexData (g : Graph V E) (v : VertexId) (data : V) : Except Missing (V × Graph V E) := do
  let vertex ← g.vertex v
  return (vertex.data, { g with vertices := g.vertices.modify v fun x => { x with data } })

/-- Replaces the payload of an edge and returns the old one. -/
def setEdgeData (g : Graph V E) (e : EdgeId) (data : E) : Except Missing (E × Graph V E) := do
  let edge ← g.edge e
  return (edge.data, { g with edges := g.edges.modify e fun x => { x with data } })

end Graph

end Waymark
