import Waymark.Graph.Basic

namespace Waymark.Graph

variable {V E : Type}

def leads (g : Graph V E) (a b : VertexId) (e : EdgeId) : Bool :=
  match g.edges.get? e with
  | some edge => edge.leads a b
  | none => false

/-- The first edge among those entering `b` that leads there from `a`. The neighbor list is asked
first, as it answers most searches with no. -/
def findEdge? (g : Graph V E) (a b : VertexId) : Option EdgeId :=
  match g.vertices.get? b with
  | some target =>
    if target.incoming.neighbors.contains a then target.incoming.edges.find? (g.leads a b) else none
  | none => none

/-- Adds an edge and enters it in the lists of both ends; a loop is entered twice. -/
def addEdge (g : Graph V E) (tail head : VertexId) (kind : EdgeKind) (data : E) :
    EdgeId × Graph V E :=
  let (e, edges) := g.edges.insertWith fun id => { id, tail, head, kind, data }
  let vertices := g.vertices.modify tail (·.attach e head kind.tailRoles)
  let vertices := vertices.modify head (·.attach e tail kind.headRoles)
  (e, { g with edges, vertices })

/-- The edge leading from `tail` to `head`. If there is none it is added, otherwise `kind` and
`data` go unused. -/
def link (g : Graph V E) (tail head : VertexId) (kind : EdgeKind) (data : E) :
    Except Missing (EdgeId × Graph V E) := do
  let _ ← g.vertex tail
  let _ ← g.vertex head
  match g.findEdge? tail head with
  | some e => return (e, g)
  | none => return g.addEdge tail head kind data

end Waymark.Graph
