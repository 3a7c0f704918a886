import Waymark.ElementId

namespace Waymark

structure Slot (α : Type) where
  generation : UInt32
  occupant? : Option α

namespace Slot

variable {α : Type}

def vacate (slot : Slot α) : Slot α := ⟨slot.generation + 1, none⟩

def modify (f : α → α) (slot : Slot α) : Slot α := { slot with occupant? := slot.occupant?.map f }

end Slot

/-- Storage with reusable slots. Emptying a slot moves it to its next generation, so that ids handed
out before no longer fit it. -/
structure Arena (s : Element) (α : Type) where
  slots : Array (Slot α) := #[]
  /-- The empty slots, the one emptied last in front. -/
  free : List Nat := []
  size : Nat := 0

namespace Arena

variable {s : Element} {α : Type}

def withCapacity (n : Nat) : Arena s α := { slots := Array.emptyWithCapacity n }

def get? (a : Arena s α) (id : ElementId s) : Option α :=
  match a.slots[id.index]? with
  | some slot => if slot.generation = id.generation then slot.occupant? else none
  | none => none

def contains (a : Arena s α) (id : ElementId s) : Bool := (a.get? id).isSome

/-- The id of the next insertion: the slot emptied last, or a new slot if none is empty. -/
def nextId (a : Arena s α) : ElementId s :=
  match a.free with
  | i :: _ => ⟨i, (a.slots[i]?.map Slot.generation).getD 0⟩
  | [] => ⟨a.slots.size, 0⟩

/-- Stores a value that may mention its own id. There is no last slot: as long as no more than `2 ^ 32`
values are stored at a time, 32 bits are enough for every index, and more are not refused. -/
def insertWith (a : Arena s α) (build : ElementId s → α) : ElementId s × Arena s α :=
  let id := a.nextId
  let slot : Slot α := ⟨id.generation, some (build id)⟩
  match a.free with
  | i :: rest => (id, ⟨a.slots.setIfInBounds i slot, rest, a.size + 1⟩)
  | [] => (id, ⟨a.slots.push slot, [], a.size + 1⟩)

def modify (a : Arena s α) (id : ElementId s) (f : α → α) : Arena s α :=
  { a with
    slots := a.slots.modify id.index fun slot =>
      if slot.generation = id.generation then slot.modify f else slot }

def erase? (a : Arena s α) (id : ElementId s) : Option (α × Arena s α) :=
  (a.get? id).map fun value =>
    (value, ⟨a.slots.modify id.index Slot.vacate, id.index :: a.free, a.size - 1⟩)

def toList (a : Arena s α) : List (ElementId s × α) :=
  a.slots.toList.zipIdx.filterMap fun (slot, i) =>
    slot.occupant?.map fun value => (⟨i, slot.generation⟩, value)

/-- The ids of the stored values in slot order. -/
def ids (a : Arena s α) : List (ElementId s) := a.toList.map Prod.fst

/-- The stored values in slot order. -/
def values (a : Arena s α) : List α := a.toList.map Prod.snd

/-- Empties every occupied slot, the first one first. -/
def clear (a : Arena s α) : Arena s α where
  slots := a.slots.map fun slot => if slot.occupant?.isSome then slot.vacate else slot
  free := (a.ids.map ElementId.index).reverse ++ a.free
  size := 0

theorem get?_modify (a : Arena s α) (id : ElementId s) (f : α → α) (id' : ElementId s) :
    (a.modify id f).get? id' = if id' = id then (a.get? id').map f else a.get? id' := by
  obtain ⟨i, n⟩ := id
  obtain ⟨i', n'⟩ := id'
  simp only [modify, get?, Array.getElem?_modify, ElementId.mk.injEq]
  by_cases hi : i = i'
  · subst hi
    rw [if_pos rfl]
    cases a.slots[i]? with
    | none => simp
    | some slot =>
      by_cases hn : slot.generation = n
      · subst hn
        by_cases hn' : slot.generation = n'
        · simp [Slot.modify, hn']
        · simp [Slot.modify, hn', Ne.symm hn']
      · by_cases hn' : slot.generation = n'
        · simp [hn, ← hn']
        · simp [hn, hn']
  · rw [if_neg hi, if_neg fun h => hi h.1.symm]

end Arena

end Waymark
