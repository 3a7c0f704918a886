import Waymark.Proofs.Arena.Occupancy

namespace Waymark

def Slot.map {α β : Type} (f : α → β) (slot : Slot α) : Slot β :=
  ⟨slot.generation, slot.occupant?.map f⟩

namespace Arena

variable {s : Element} {α β : Type}

/-- Every value through a function, under the same ids. -/
def map (f : α → β) (a : Arena s α) : Arena s β where
  slots := a.slots.map (Slot.map f)
  free := a.free
  size := a.size

@[simp] theorem get?_map (f : α → β) (a : Arena s α) (id : ElementId s) :
    (a.map f).get? id = (a.get? id).map f := by
  simp only [get?, map, Array.getElem?_map]
  cases a.slots[id.index]? with
  | none => rfl
  | some slot =>
    by_cases hn : slot.generation = id.generation <;> simp [Slot.map, hn]

@[simp] theorem contains_map (f : α → β) (a : Arena s α) (id : ElementId s) :
    (a.map f).contains id = a.contains id := by
  rw [contains, get?_map, Option.isSome_map, contains]

theorem toList_map (f : α → β) (a : Arena s α) :
    (a.map f).toList = a.toList.map fun p => (p.1, f p.2) := by
  simp only [toList, map, Array.toList_map, List.zipIdx_map, List.filterMap_map, List.map_filterMap]
  refine List.filterMap_congr fun p _ => ?_
  simp only [Function.comp, Prod.map, id, Slot.map, Option.map_map]
  rfl

@[simp] theorem ids_map (f : α → β) (a : Arena s α) : (a.map f).ids = a.ids := by
  rw [ids, toList_map, List.map_map]
  rfl

@[simp] theorem values_map (f : α → β) (a : Arena s α) :
    (a.map f).values = a.values.map f := by
  rw [values, toList_map, List.map_map, values, List.map_map]
  rfl

theorem valid_map {f : α → β} {a : Arena s α} : (a.map f).Valid ↔ a.Valid := by
  have hslot (i : Nat) : (∃ n, (a.map f).slots[i]? = some ⟨n, none⟩) ↔
      ∃ n, a.slots[i]? = some ⟨n, none⟩ := by
    simp only [map, Array.getElem?_map]
    cases a.slots[i]? with
    | none => simp
    | some slot =>
      obtain ⟨n, occupant?⟩ := slot
      cases occupant? <;> simp [Slot.map]
  constructor
  · intro h
    exact ⟨h.nodup, fun i => (h.mem_free i).trans (hslot i)⟩
  · intro h
    exact ⟨h.nodup, fun i => (h.mem_free i).trans (hslot i).symm⟩

/-- A change that the function does not see is gone in the image. -/
theorem map_modify {f : α → β} {k : α → α} (h : ∀ x, f (k x) = f x) (a : Arena s α)
    (id : ElementId s) : (a.modify id k).map f = a.map f := by
  simp only [map, modify, Arena.mk.injEq, and_true]
  refine Array.ext_getElem? fun i => ?_
  rw [Array.getElem?_map, Array.getElem?_map, Array.getElem?_modify]
  split
  · cases a.slots[i]? with
    | none => rfl
    | some slot =>
      obtain ⟨n, occupant?⟩ := slot
      by_cases hn : n = id.generation
      · cases occupant? <;> simp [hn, Slot.modify, Slot.map, h]
      · simp [hn, Slot.map]
  · rfl

theorem erase?_map (f : α → β) (a : Arena s α) (id : ElementId s) :
    (a.map f).erase? id = (a.erase? id).map fun p => (f p.1, p.2.map f) := by
  have hslots : (a.slots.map (Slot.map f)).modify id.index Slot.vacate =
      (a.slots.modify id.index Slot.vacate).map (Slot.map f) := by
    refine Array.ext_getElem? fun i => ?_
    rw [Array.getElem?_modify, Array.getElem?_map, Array.getElem?_map, Array.getElem?_modify]
    split
    · rw [Option.map_map, Option.map_map]
      rfl
    · rfl
  rw [erase?, erase?, get?_map, Option.map_map, Option.map_map]
  congr 1
  funext x
  simp only [Function.comp, map, hslots]

/-- Slots, generations and free slots, whatever the values. -/
def shape (a : Arena s α) : Arena s Unit := a.map fun _ => ()

theorem shape_modify (a : Arena s α) (id : ElementId s) (k : α → α) :
    (a.modify id k).shape = a.shape :=
  map_modify (k := k) (fun _ => rfl) a id

/-- Arenas of one shape are told apart by their values alone. -/
theorem eq_of_shape {a b : Arena s α} (hshape : a.shape = b.shape)
    (hget : ∀ id, a.get? id = b.get? id) : a = b := by
  have hslots := congrArg Arena.slots hshape
  have hfree := congrArg Arena.free hshape
  have hsize := congrArg Arena.size hshape
  have hsame : a.slots = b.slots := by
    refine Array.ext_getElem? fun i => ?_
    have hi := congrArg (·[i]?) hslots
    simp only [shape, map, Array.getElem?_map] at hi
    cases ha : a.slots[i]? with
    | none =>
      rw [ha] at hi
      exact (Option.map_eq_none_iff.mp hi.symm).symm
    | some slot =>
      rw [ha] at hi
      obtain ⟨slot', hb, heq⟩ := Option.map_eq_some_iff.mp hi.symm
      rw [hb]
      obtain ⟨n, occupant?⟩ := slot
      obtain ⟨n', occupant'?⟩ := slot'
      obtain ⟨rfl, ho⟩ := Slot.mk.inj heq
      have hid := hget ⟨i, n'⟩
      rw [get?, get?, ha, hb] at hid
      simp only [if_pos] at hid
      rw [hid]
  cases a
  cases b
  cases hsame
  cases hfree
  cases hsize
  rfl

end Arena

end Waymark
