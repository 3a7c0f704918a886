import Waymark.Graph.Basic

namespace Waymark.Graph

variable {V E : Type}

def channelInUse (g : Graph V E) (c : Channel) : Bool := g.channels.contains c.index

def channelCount (g : Graph V E) : Nat := g.channels.live

/-- Takes the lowest channel that is not in use. -/
def acquireChannel (g : Graph V E) : Channel × Graph V E :=
  let i := g.channels.freeIndex
  (⟨i⟩, { g with channels := (g.channels.set i .channel).2 })

def releaseChannel (g : Graph V E) (c : Channel) : Graph V E :=
  { g with channels := (g.channels.reset c.index).2 }

def setVertexHandle (g : Graph V E) (v : VertexId) (c : Channel) (h : Handle) : Graph V E :=
  { g with vertices := g.vertices.modify v fun x => { x with slots := (x.slots.set c.index h).2 } }

def setEdgeHandle (g : Graph V E) (e : EdgeId) (c : Channel) (h : Handle) : Graph V E :=
  { g with edges := g.edges.modify e fun x => { x with slots := (x.slots.set c.index h).2 } }

def resetVertexHandle (g : Graph V E) (v : VertexId) (c : Channel) : Graph V E :=
  { g with vertices := g.vertices.modify v fun x => { x with slots := (x.slots.reset c.index).2 } }

def resetEdgeHandle (g : Graph V E) (e : EdgeId) (c : Channel) : Graph V E :=
  { g with edges := g.edges.modify e fun x => { x with slots := (x.slots.reset c.index).2 } }

end Waymark.Graph
