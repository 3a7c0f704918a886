import Waymark.Overlay.Reset
import Waymark.SearchConfig

namespace Waymark

/-- A search under way. It keeps its overlay to itself until it ends. An element or a mark that is not
there when it asks for it is passed over; `Strict.step` fails there instead. -/
structure Search (V E κ : Type) where
  overlay : Overlay V E κ
  frontier : Frontier κ
  source : VertexId
  destination : VertexId
  maxExpansions? : Option Nat
  expansions : Nat := 0
  finished : Bool := false

/-- What one step came to. At the limit nothing is done. -/
inductive Step
  | expanded (e : EdgeId)
  | finished
  | limitReached (limit : Nat)
  deriving DecidableEq, Repr

namespace Search

variable {V E κ : Type}

/-- The cost at which a vertex has been reached, which is zero for the source. -/
def reached? [Cost κ] (s : Search V E κ) (g : Graph V E) (v : VertexId) : Option κ :=
  if v = s.source then some 0 else (s.overlay.hop? g v).map Hop.cost

/-- Reaches `b` from `a` over an edge if that is strictly cheaper than before. The source is never
reached again. -/
def relax [Cost κ] (s : Search V E κ) (g : Graph V E) (a b : VertexId) (e : EdgeId) (cost : κ) :
    Search V E κ :=
  if b = s.source then s
  else
    match s.reached? g a with
    | none => s
    | some base =>
      let hop : Hop κ := ⟨a, e, base + cost⟩
      match (s.overlay.hop? g b).map Hop.cost with
      | some known =>
        if known ≤ hop.cost then s else { s with overlay := s.overlay.setHop g b (some hop) }
      | none => { s with overlay := s.overlay.setHop g b (some hop) }

/-- Lets an unexplored edge into the frontier. -/
def discover [Cost κ] (s : Search V E κ) (g : Graph V E) (base : κ) (e : EdgeId) : Search V E κ :=
  match s.overlay.edgeMark g e with
  | .ok mark =>
    if mark.state = .unexplored then
      { s with
        overlay := s.overlay.setState g e .discovered
        frontier := s.frontier.push e (base + mark.cost) }
    else s
  | .error _ => s

/-- Lets the unexplored edges out of a vertex into the frontier. -/
def expand [Cost κ] (s : Search V E κ) (g : Graph V E) (v : VertexId) : Search V E κ :=
  match g.vertices.get? v with
  | some vertex =>
    let base := (s.reached? g v).getD 0
    vertex.outgoing.edges.foldl (fun s e => s.discover g base e) s
  | none => s

/-- Why there can be no search between two vertices, whatever the costs. -/
def refusal? (o : Overlay V E κ) (g : Graph V E) (source destination : VertexId) :
    Option (Failure κ) :=
  if o.vertices.isEmpty then some (.noVertices o.channel)
  else
    match o.vertexMark g source, o.vertexMark g destination with
    | .error failure, _ => some failure
    | .ok _, .error failure => some failure
    | .ok _, .ok _ => if source = destination then some (.sameEndpoints source) else none

/-- Begins a search on an overlay, which is reset if need be. A refusal leaves the overlay alone; if
costs cannot be taken, it is left as far as that came. -/
def start [Cost κ] (o : Overlay V E κ) (g : Graph V E) (source destination : VertexId)
    (config : SearchConfig) : Except (Failure κ × Overlay V E κ) (Search V E κ) :=
  match refusal? o g source destination with
  | some failure => .error (failure, o)
  | none => do
    let o ← o.beginRun g
    let s : Search V E κ := {
      overlay := o.setHop g source none
      frontier := { kind := config.frontier }
      maxExpansions? := config.maxExpansions?
      source, destination }
    return s.expand g source

/-- Reaches the head of an edge from its tail and, if the edge is bidirectional, the tail from the
head. -/
def relaxEnds [Cost κ] (s : Search V E κ) (g : Graph V E) (edge : Edge E) (cost : κ) :
    Search V E κ :=
  let s := s.relax g edge.tail edge.head edge.id cost
  if edge.isBidirectional && edge.tail ≠ s.source then
    s.relax g edge.head edge.tail edge.id cost
  else s

/-- Discovers what lies behind an edge, on both sides if it is bidirectional. -/
def expandEnds [Cost κ] (s : Search V E κ) (g : Graph V E) (edge : Edge E) : Search V E κ :=
  let s := s.expand g edge.head
  if edge.isBidirectional then s.expand g edge.tail else s

def explore [Cost κ] (s : Search V E κ) (g : Graph V E) (e : EdgeId) : Search V E κ :=
  match g.edges.get? e, s.overlay.edgeMark g e with
  | some edge, .ok mark =>
    let s := (s.relaxEnds g edge mark.cost).expandEnds g edge
    { s with overlay := s.overlay.setState g e .explored }
  | _, _ => s

/-- Whether the cheapest waiting edge comes too late to improve on the destination. As keys never
decrease, all others then do too. -/
def beaten [Cost κ] (s : Search V E κ) (g : Graph V E) (q : Queued κ) : Bool :=
  s.frontier.isOrdered && ((s.overlay.hop? g s.destination).map Hop.cost).any (· ≤ q.key)

def limitReached? (s : Search V E κ) : Option Nat :=
  s.maxExpansions?.filter fun limit => limit ≤ s.expansions && !s.frontier.isEmpty

/-- Takes the next edge from the frontier and explores it, unless the test `halts` says that the
search comes to its end there. -/
def stepUnless [Cost κ] (halts : Search V E κ → Queued κ → Bool) (s : Search V E κ)
    (g : Graph V E) : Step × Search V E κ :=
  if s.finished then (.finished, s)
  else
    match s.limitReached? with
    | some limit => (.limitReached limit, s)
    | none =>
      match s.frontier.pop? with
      | none => (.finished, { s with finished := true })
      | some (q, frontier) =>
        if halts s q then (.finished, { s with frontier, finished := true })
        else
          let s := { s with frontier, expansions := s.expansions + 1 }
          (.expanded q.edge, s.explore g q.edge)

/-- Takes the next edge from the frontier and explores it, unless it is beaten. -/
def step [Cost κ] (s : Search V E κ) (g : Graph V E) : Step × Search V E κ :=
  s.stepUnless (fun s q => s.beaten g q) g

/-- The way to the destination as far as it is known. -/
def path (s : Search V E κ) (g : Graph V E) : Except (Failure κ) (Path κ) :=
  s.overlay.pathTo g s.destination

end Search

end Waymark
