import Waymark.Graph.Channel
import Waymark.Overlay.Basic

namespace Waymark

/-- A graph with an overlay that has taken a channel on it and is registered with some elements. -/
structure Mounting (V E κ : Type) where
  graph : Graph V E
  overlay : Overlay V E κ

namespace Overlay

variable {V E κ : Type}

/-- Takes the overlay's handles off the elements it has marks for and gives its channel back. -/
def unmount (o : Overlay V E κ) (g : Graph V E) : Graph V E :=
  let g := o.vertices.foldl (fun g mark => g.resetVertexHandle mark.vertex o.channel) g
  let g := o.edges.foldl (fun g mark => g.resetEdgeHandle mark.edge o.channel) g
  g.releaseChannel o.channel

end Overlay

namespace Mounting

variable {V E κ : Type}

/-- Takes a channel for an overlay without marks. -/
def begin (g : Graph V E) (evaluator : Evaluator V E κ) : Mounting V E κ :=
  let (channel, graph) := g.acquireChannel
  { graph, overlay := { channel, appraiser := { evaluator } } }

/-- Adds a mark for a vertex and leaves its position with the vertex. -/
def addVertex (m : Mounting V E κ) (vertex : Vertex V) :
    Except (Failure κ × Mounting V E κ) (Mounting V E κ) :=
  let o := m.overlay
  if (vertex.handle? o.channel).isSome then
    .error (.alreadyDecorated (.vertex vertex.id) o.channel, m)
  else
    .ok {
      graph := m.graph.setVertexHandle vertex.id o.channel (.vertex o.vertices.size)
      overlay := { o with vertices := o.vertices.push { vertex := vertex.id } } }

/-- Adds a mark with the cost of an edge and leaves its position with the edge. -/
def addEdge [Cost κ] (m : Mounting V E κ) (edge : Edge E) :
    Except (Failure κ × Mounting V E κ) (Mounting V E κ) :=
  let (priced, appraiser) := m.overlay.appraiser.price m.graph edge
  let o := { m.overlay with appraiser }
  match priced with
  | .error failure => .error (failure, { m with overlay := o })
  | .ok cost =>
    if (edge.handle? o.channel).isSome then
      .error (.alreadyDecorated (.edge edge.id) o.channel, { m with overlay := o })
    else
      .ok {
        graph := m.graph.setEdgeHandle edge.id o.channel (.edge o.edges.size)
        overlay := { o with edges := o.edges.push { edge := edge.id, cost } } }

def addAll [Cost κ] (m : Mounting V E κ) :
    Except (Failure κ × Mounting V E κ) (Mounting V E κ) := do
  let m ← m.graph.vertices.values.foldlM addVertex m
  m.graph.edges.values.foldlM addEdge m

end Mounting

/-- Marks every vertex and then every edge in slot order. On the first failure all is undone, and
the appraiser tells what was asked until then. -/
def Graph.mount {V E κ : Type} [Cost κ] (g : Graph V E) (evaluator : Evaluator V E κ) :
    Except (Failure κ × Appraiser V E κ) (Overlay V E κ) × Graph V E :=
  match (Mounting.begin g evaluator).addAll with
  | .ok m => (.ok m.overlay, m.graph)
  | .error (failure, m) => (.error (failure, m.overlay.appraiser), m.overlay.unmount m.graph)

end Waymark
