import Waymark.Finder
import Waymark.Graph.Link
import Waymark.Graph.Remove

namespace Waymark

/-- What a numbered place of a workspace holds. -/
inductive Tenant (V E κ : Type)
  | overlay (o : Overlay V E κ)
  | finder (f : Finder V E κ)
  /-- An overlay that a stepwise search keeps to itself. -/
  | search (s : Search V E κ)

namespace Tenant

variable {V E κ : Type}

def toOverlay : Tenant V E κ → Overlay V E κ
  | .overlay o => o
  | .finder f => f.overlay
  | .search s => s.overlay

end Tenant

/-- Why a workspace does not even try. -/
inductive Refusal
  | unknownReference
  | borrowed
  | placeTaken
  | nothingThere
  | searching
  | isFinder
  | notFinder
  | noSearch
  deriving DecidableEq, Repr

inductive Trouble (κ : Type)
  | refused (refusal : Refusal)
  | failed (failure : Failure κ)
  deriving DecidableEq, Repr

/-- A graph with the overlays mounted on it, each at a numbered place, and all ids that its making
has returned. While anything is mounted, the graph cannot be edited. -/
structure Workspace (V E κ : Type) where
  graph : Graph V E := {}
  vertices : Array VertexId := #[]
  edges : Array EdgeId := #[]
  tenants : List (Nat × Tenant V E κ) := []

/-- Something done in a workspace. What was changed before trouble arose stays changed. -/
abbrev Act (V E κ : Type) := EStateM (Trouble κ) (Workspace V E κ)

namespace Workspace

variable {V E κ : Type}

/-- The position at which an edge's id was first returned. -/
def edgeLabel? (w : Workspace V E κ) (e : EdgeId) : Option Nat := w.edges.findIdx? (· = e)

def refuse {α : Type} (refusal : Refusal) : Act V E κ α := throw (.refused refusal)

def fail {α : Type} (failure : Failure κ) : Act V E κ α := throw (.failed failure)

def found {α : Type} : Except Missing α → Act V E κ α
  | .ok a => return a
  | .error m => fail (.missing m.element)

def attempt {α : Type} : Except (Failure κ) α → Act V E κ α
  | .ok a => return a
  | .error failure => fail failure

def vertexAt (n : Nat) : Act V E κ VertexId := do
  match (← get).vertices[n]? with
  | some v => return v
  | none => refuse .unknownReference

def edgeAt (n : Nat) : Act V E κ EdgeId := do
  match (← get).edges[n]? with
  | some e => return e
  | none => refuse .unknownReference

/-! Editing -/

def ensureEditable : Act V E κ Unit := do
  unless (← get).tenants.isEmpty do refuse .borrowed

def edit {α : Type} (f : Graph V E → Except Missing (α × Graph V E)) : Act V E κ α := do
  ensureEditable
  let (a, graph) ← found (f (← get).graph)
  modify fun w => { w with graph }
  return a

def addVertex (data : V) : Act V E κ VertexId := do
  let v ← edit fun g => .ok (g.addVertex data)
  modify fun w => { w with vertices := w.vertices.push v }
  return v

def addVertices (data : List V) : Act V E κ (List VertexId) := do
  let vs ← edit fun g => .ok (g.addVertices data)
  modify fun w => { w with vertices := w.vertices ++ vs }
  return vs

def link (tail head : VertexId) (kind : EdgeKind) (data : E) : Act V E κ EdgeId := do
  let e ← edit fun g => g.link tail head kind data
  modify fun w => { w with edges := w.edges.push e }
  return e

def removeVertex (v : VertexId) : Act V E κ V := edit fun g => g.removeVertex v

def removeEdge (e : EdgeId) : Act V E κ E := edit fun g => g.removeEdge e

def setVertexData (v : VertexId) (data : V) : Act V E κ V := edit fun g => g.setVertexData v data

def setEdgeData (e : EdgeId) (data : E) : Act V E κ E := edit fun g => g.setEdgeData e data

def clear : Act V E κ Unit := edit fun g => .ok ((), g.clear)

/-! Overlays -/

def tenant (n : Nat) : Act V E κ (Tenant V E κ) := do
  match (← get).tenants.lookup n with
  | some t => return t
  | none => refuse .nothingThere

def put (n : Nat) (t : Tenant V E κ) : Act V E κ Unit :=
  modify fun w => { w with tenants := (n, t) :: w.tenants.filter (·.1 ≠ n) }

def ensureFree (n : Nat) : Act V E κ Unit := do
  if ((← get).tenants.lookup n).isSome then refuse .placeTaken

/-- The overlay at a place where no search is under way. -/
def idle (n : Nat) : Act V E κ (Overlay V E κ) := do
  match ← tenant n with
  | .search _ => refuse .searching
  | t => return t.toOverlay

/-- The overlay at a place where there is neither a search nor a finder. -/
def plain (n : Nat) : Act V E κ (Overlay V E κ) := do
  match ← tenant n with
  | .overlay o => return o
  | .finder _ => refuse .isFinder
  | .search _ => refuse .searching

def finder (n : Nat) : Act V E κ (Finder V E κ) := do
  match ← tenant n with
  | .finder f => return f
  | _ => refuse .notFinder

def running (n : Nat) : Act V E κ (Search V E κ) := do
  match ← tenant n with
  | .search s => return s
  | _ => refuse .noSearch

/-- Stores what an attempt on the tenant at `n` left behind, and passes its result on. -/
def settle {α β : Type} (n : Nat) (wrap : β → Tenant V E κ) :
    Except (Failure κ × β) (α × β) → Act V E κ α
  | .ok (a, b) => do
    put n (wrap b)
    return a
  | .error (failure, b) => do
    put n (wrap b)
    fail failure

variable [Cost κ]

def mountAs (n : Nat) (evaluator : Evaluator V E κ) (wrap : Overlay V E κ → Tenant V E κ) :
    Act V E κ Channel := do
  ensureFree n
  let (mounted, graph) := (← get).graph.mount evaluator
  modify fun w => { w with graph }
  match mounted with
  | .ok o => do
    put n (wrap o)
    return o.channel
  | .error (failure, _) => fail failure

def mount (n : Nat) (evaluator : Evaluator V E κ) : Act V E κ Channel :=
  mountAs n evaluator .overlay

def mountFinder (n : Nat) (evaluator : Evaluator V E κ) (config : SearchConfig) :
    Act V E κ Channel :=
  mountAs n evaluator fun overlay => .finder (Finder.withConfig { overlay } config)

omit [Cost κ] in
/-- Takes the overlay at a place off the graph, with any search it is in. -/
def unmount (n : Nat) : Act V E κ Unit := do
  let t ← tenant n
  modify fun w =>
    { w with graph := t.toOverlay.unmount w.graph, tenants := w.tenants.filter (·.1 ≠ n) }

omit [Cost κ] in
/-- The number of times the evaluator at a place has been asked. -/
def calls (n : Nat) : Act V E κ Nat := do
  return (← tenant n).toOverlay.appraiser.asked.size

omit [Cost κ] in
/-- Asks the evaluator at a place about an edge, without a check of its answer. -/
def ask (n : Nat) (e : EdgeId) : Act V E κ (Except String κ) := do
  let o ← idle n
  let g := (← get).graph
  let (answer, appraiser) := o.appraiser.ask g (← found (g.edge e))
  match ← tenant n with
  | .finder f => put n (.finder { f with overlay := { o with appraiser } })
  | _ => put n (.overlay { o with appraiser })
  return answer

def reset (n : Nat) : Act V E κ Unit := do
  let o ← plain n
  settle n .overlay <| (fun o => ((), o)) <$> o.reset (← get).graph

def search (n : Nat) (source destination : VertexId) (config : SearchConfig) :
    Act V E κ (Path κ) := do
  let o ← plain n
  settle n .overlay <| o.search (← get).graph source destination config

def find (n : Nat) (source destination : VertexId) : Act V E κ (Path κ) := do
  let f ← finder n
  settle n .finder <| f.find (← get).graph source destination

/-! Stepwise searches -/

def begin (n : Nat) (source destination : VertexId) (config : SearchConfig) : Act V E κ Unit := do
  let o ← plain n
  match Search.start o (← get).graph source destination config with
  | .ok s => put n (.search s)
  | .error (failure, o) => do
    put n (.overlay o)
    fail failure

/-- The edge that was explored, or none at the end. -/
def step (n : Nat) : Act V E κ (Option EdgeId) := do
  let s ← running n
  let (result, s) := s.step (← get).graph
  put n (.search s)
  match result with
  | .expanded e => return some e
  | .finished => return none
  | .limitReached limit => fail (.expansionLimit limit)

def run (n : Nat) : Act V E κ (Path κ) := do
  let s ← running n
  settle n .overlay <| s.run (← get).graph

omit [Cost κ] in
def cancel (n : Nat) : Act V E κ Unit := do
  let s ← running n
  put n (.overlay s.overlay)

end Workspace

end Waymark
