import Waymark.Vertex

namespace Waymark

inductive EdgeKind
  | directed
  | bidirectional
  deriving DecidableEq, Repr

instance : Inhabited EdgeKind := ⟨.directed⟩

namespace EdgeKind

def tailRoles : EdgeKind → Roles
  | .directed => ⟨true, false⟩
  | .bidirectional => ⟨true, true⟩

def headRoles : EdgeKind → Roles
  | .directed => ⟨false, true⟩
  | .bidirectional => ⟨true, true⟩

end EdgeKind

/-- An edge declared from `tail` to `head`. -/
structure Edge (E : Type) where
  id : EdgeId
  tail : VertexId
  head : VertexId
  kind : EdgeKind
  data : E
  slots : SlotTable := {}

namespace Edge

variable {E : Type}

def isBidirectional (e : Edge E) : Bool := e.kind = .bidirectional

def otherEnd? (e : Edge E) (v : VertexId) : Option VertexId :=
  if v = e.tail then some e.head else if v = e.head then some e.tail else none

/-- Whether the edge can be walked from `a` to `b`. -/
def leads (e : Edge E) (a b : VertexId) : Bool :=
  (e.tail = a && e.head = b) || (e.isBidirectional && e.tail = b && e.head = a)

def handle? (e : Edge E) (c : Channel) : Option Handle := e.slots.get? c.index

end Edge

end Waymark
