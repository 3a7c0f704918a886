namespace Waymark

/-- Things that several numbered handles may share. -/
structure Shelf (α : Type) where
  items : Array α := #[]
  /-- Each handle with the position of its item. -/
  handles : List (Nat × Nat) := []

namespace Shelf

variable {α : Type}

def position? (s : Shelf α) (h : Nat) : Option Nat := s.handles.lookup h

def get? (s : Shelf α) (h : Nat) : Option α := s.position? h >>= (s.items[·]?)

def point (s : Shelf α) (h position : Nat) : Shelf α :=
  { s with handles := (h, position) :: s.handles.filter (·.1 ≠ h) }

def drop (s : Shelf α) (h : Nat) : Shelf α :=
  { s with handles := s.handles.filter (·.1 ≠ h) }

/-- Puts a new item under a handle, whatever the handle stood for before. -/
def put (s : Shelf α) (h : Nat) (item : α) : Shelf α :=
  { s with items := s.items.push item }.point h s.items.size

/-- Lets `copy` stand for the item of `h` too. -/
def share (s : Shelf α) (h copy : Nat) : Shelf α :=
  match s.position? h with
  | some i => s.point copy i
  | none => s

def set (s : Shelf α) (h : Nat) (item : α) : Shelf α :=
  match s.position? h with
  | some i => { s with items := s.items.setIfInBounds i item }
  | none => s

/-- Whether another handle stands for the item of `h`. -/
def isShared (s : Shelf α) (h : Nat) : Bool :=
  s.handles.any fun (k, i) => k ≠ h && s.position? h = some i

/-- Takes an item off the shelf with its only handle. -/
def take? (s : Shelf α) (h : Nat) : Option (α × Shelf α) :=
  if s.isShared h then none else (s.get? h).map fun item => (item, s.drop h)

end Shelf

end Waymark
