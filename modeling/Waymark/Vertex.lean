import Waymark.ElementId
import Waymark.SlotTable

namespace Waymark

/-- Incident edges in the order they came, and the vertices at their other ends. Both lists count
multiplicity; removal takes the first occurrence from each. -/
structure Adjacency where
  edges : List EdgeId := []
  neighbors : List VertexId := []
  deriving DecidableEq

namespace Adjacency

def add (a : Adjacency) (e : EdgeId) (other : VertexId) : Adjacency :=
  ⟨a.edges ++ [e], a.neighbors ++ [other]⟩

def remove (a : Adjacency) (e : EdgeId) (other : VertexId) : Adjacency :=
  ⟨a.edges.erase e, a.neighbors.erase other⟩

end Adjacency

/-- The ways in which an edge may be walked at one of its ends. -/
structure Roles where
  outgoing : Bool
  incoming : Bool

structure Vertex (V : Type) where
  id : VertexId
  data : V
  all : Adjacency := {}
  incoming : Adjacency := {}
  outgoing : Adjacency := {}
  slots : SlotTable := {}

namespace Vertex

variable {V : Type}

def degree (v : Vertex V) : Nat := v.all.edges.length

def attach (v : Vertex V) (e : EdgeId) (other : VertexId) (roles : Roles) : Vertex V :=
  { v with
    all := v.all.add e other
    outgoing := if roles.outgoing then v.outgoing.add e other else v.outgoing
    incoming := if roles.incoming then v.incoming.add e other else v.incoming }

def detach (v : Vertex V) (e : EdgeId) (other : VertexId) (roles : Roles) : Vertex V :=
  { v with
    all := v.all.remove e other
    outgoing := if roles.outgoing then v.outgoing.remove e other else v.outgoing
    incoming := if roles.incoming then v.incoming.remove e other else v.incoming }

/-- The incident edges, each once. -/
def incident (v : Vertex V) : List EdgeId := v.all.edges.eraseDups

def handle? (v : Vertex V) (c : Channel) : Option Handle := v.slots.get? c.index

end Vertex

end Waymark
