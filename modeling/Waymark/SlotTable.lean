namespace Waymark

/-- The number under which one overlay registers on every element. -/
structure Channel where
  index : Nat
  deriving DecidableEq, Repr

namespace Channel

instance : Ord Channel where
  compare a b := compare a.index b.index

def text (c : Channel) : String := toString c.index

end Channel

/-- What a table holds for a channel: on a vertex or an edge the position of its mark in the
overlay, on the graph itself only that the channel is taken. -/
inductive Handle
  | channel
  | vertex (position : Nat)
  | edge (position : Nat)
  deriving DecidableEq, Repr

namespace Handle

def vertex? : Handle → Option Nat
  | .vertex i => some i
  | _ => none

def edge? : Handle → Option Nat
  | .edge i => some i
  | _ => none

end Handle

/-- Handles by index. The table grows on demand, never shrinks but by `clear`, and counts its
occupied indices in `live`. -/
structure SlotTable where
  items : Array (Option Handle) := #[]
  live : Nat := 0

namespace SlotTable

def get? (t : SlotTable) (i : Nat) : Option Handle := t.items[i]?.join

def contains (t : SlotTable) (i : Nat) : Bool := (t.get? i).isSome

/-- Stores a handle and returns the one it displaces. -/
def set (t : SlotTable) (i : Nat) (h : Handle) : Option Handle × SlotTable :=
  let items := t.items ++ Array.replicate (i + 1 - t.items.size) none
  (t.get? i, ⟨items.setIfInBounds i (some h), if t.contains i then t.live else t.live + 1⟩)

/-- Empties an index and returns what it held. -/
def reset (t : SlotTable) (i : Nat) : Option Handle × SlotTable :=
  (t.get? i, ⟨t.items.setIfInBounds i none, if t.contains i then t.live - 1 else t.live⟩)

def clear (_ : SlotTable) : SlotTable := {}

def isEmpty (t : SlotTable) : Bool := t.live == 0

/-- The first index without a handle, which may lie just past the end. -/
def freeIndex (t : SlotTable) : Nat := t.items.findIdx Option.isNone

/-- One more than the largest index ever set. -/
def nextIndex (t : SlotTable) : Nat := t.items.size

theorem get?_set (t : SlotTable) (i : Nat) (h : Handle) (j : Nat) :
    (t.set i h).2.get? j = if j = i then some h else t.get? j := by
  simp only [set, get?, Array.getElem?_setIfInBounds]
  split
  · rename_i hij
    have hi : i < (t.items ++ Array.replicate (i + 1 - t.items.size) none).size := by
      rw [Array.size_append, Array.size_replicate]
      omega
    rw [if_pos hi, if_pos hij.symm]
    rfl
  · rename_i hij
    rw [if_neg (Ne.symm hij), Array.getElem?_append]
    split
    · rfl
    · rename_i hj
      rw [Array.getElem?_eq_none (Nat.ge_of_not_lt hj), Array.getElem?_replicate]
      split <;> rfl

theorem get?_reset (t : SlotTable) (i j : Nat) :
    (t.reset i).2.get? j = if j = i then none else t.get? j := by
  simp only [reset, get?, Array.getElem?_setIfInBounds]
  split
  · rename_i hij
    rw [if_pos hij.symm]
    split <;> rfl
  · rename_i hij
    rw [if_neg (Ne.symm hij)]

end SlotTable

end Waymark
