import Waymark.Cost
import Waymark.ElementId

namespace Waymark

/-- How a vertex was reached: over `edge`, out of `origin`, at a total of `cost` from the start. -/
structure Hop (κ : Type) where
  origin : VertexId
  edge : EdgeId
  cost : κ
  deriving BEq, DecidableEq, Repr

/-- Hops from the source to the destination; none if the destination was not reached. -/
structure Path (κ : Type) where
  hops : List (Hop κ) := []
  deriving BEq, DecidableEq, Repr

namespace Path

variable {κ : Type}

def length (p : Path κ) : Nat := p.hops.length

def isEmpty (p : Path κ) : Bool := p.hops.isEmpty

def cost [Zero κ] (p : Path κ) : κ := (p.hops.getLast?.map Hop.cost).getD 0

def source? (p : Path κ) : Option VertexId := p.hops.head?.map Hop.origin

def edges (p : Path κ) : List EdgeId := p.hops.map Hop.edge

end Path

end Waymark
