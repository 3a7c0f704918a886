import Waymark.ElementId
import Waymark.Cost

namespace Waymark

inductive FrontierKind
  | fifo
  | costOrdered
  deriving DecidableEq, Repr

instance : Inhabited FrontierKind := ⟨.fifo⟩

/-- An edge waiting to be explored, with the cost at which it reaches its far end. -/
structure Queued (κ : Type) where
  edge : EdgeId
  key : κ
  deriving DecidableEq, Repr

/-- The waiting edges, the next one in front. -/
structure Frontier (κ : Type) where
  kind : FrontierKind
  queue : List (Queued κ) := []
  deriving DecidableEq, Repr

namespace Frontier

variable {κ : Type}

def size (f : Frontier κ) : Nat := f.queue.length

def isEmpty (f : Frontier κ) : Bool := f.queue.isEmpty

/-- Inserts behind all edges whose key is not greater, so that equal keys keep their order. -/
def insertByKey [Cost κ] (q : Queued κ) : List (Queued κ) → List (Queued κ)
  | [] => [q]
  | r :: rest => if r.key ≤ q.key then r :: insertByKey q rest else q :: r :: rest

def push [Cost κ] (f : Frontier κ) (edge : EdgeId) (key : κ) : Frontier κ :=
  match f.kind with
  | .fifo => { f with queue := f.queue ++ [⟨edge, key⟩] }
  | .costOrdered => { f with queue := insertByKey ⟨edge, key⟩ f.queue }

def pop? (f : Frontier κ) : Option (Queued κ × Frontier κ) :=
  match f.queue with
  | [] => none
  | q :: rest => some (q, { f with queue := rest })

/-- Whether edges leave in the order of their keys. -/
def isOrdered (f : Frontier κ) : Bool := f.kind = .costOrdered

end Frontier

end Waymark
