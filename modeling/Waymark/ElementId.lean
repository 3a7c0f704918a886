namespace Waymark

/-- The two sorts of element that a graph is made of. -/
inductive Element
  | vertex
  | edge
  deriving DecidableEq, Repr

/-- The address of an element: a slot, and how often that slot had been emptied before the element
came into it. An id whose element is gone differs from those of later occupants, until after
`2 ^ 32` of them the generation comes round. -/
structure ElementId (s : Element) where
  index : Nat
  generation : UInt32
  deriving DecidableEq, Repr

abbrev VertexId := ElementId .vertex

abbrev EdgeId := ElementId .edge

def Element.letter : Element → String
  | .vertex => "v"
  | .edge => "e"

namespace ElementId

variable {s : Element}

/-- Ids are ordered by slot first. -/
instance : Ord (ElementId s) where
  compare a b := (compare a.index b.index).then (compare a.generation b.generation)

def text (id : ElementId s) : String :=
  s.letter ++ toString id.index ++ ":" ++ toString id.generation.toNat

end ElementId

/-- An id together with the sort it belongs to. -/
inductive AnyId
  | vertex (id : VertexId)
  | edge (id : EdgeId)
  deriving DecidableEq, Repr

namespace AnyId

def text : AnyId → String
  | .vertex id => id.text
  | .edge id => id.text

def description : AnyId → String
  | .vertex id => "Vertex " ++ id.text
  | .edge id => "Edge " ++ id.text

end AnyId

end Waymark
