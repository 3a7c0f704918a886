import Mathlib.Data.List.Nodup
import Waymark.Arena

namespace Waymark.Arena

variable {s : Element} {α : Type}

/-- The free list names the empty slots, each once. -/
structure Valid (a : Arena s α) : Prop where
  nodup : a.free.Nodup
  mem_free : ∀ i, i ∈ a.free ↔ ∃ n, a.slots[i]? = some ⟨n, none⟩

theorem valid_empty : Valid ({} : Arena s α) where
  nodup := List.nodup_nil
  mem_free i := by simp

theorem get?_eq_some {a : Arena s α} {id : ElementId s} {x : α} :
    a.get? id = some x ↔ a.slots[id.index]? = some ⟨id.generation, some x⟩ := by
  rw [get?]
  cases hs : a.slots[id.index]? with
  | none => simp
  | some slot =>
    obtain ⟨n, occupant?⟩ := slot
    by_cases hn : n = id.generation <;> simp [hn]

theorem contains_iff {a : Arena s α} {id : ElementId s} :
    a.contains id = true ↔ ∃ x, a.get? id = some x := by
  rw [contains, Option.isSome_iff_exists]

/-! Insertion -/

theorem get?_nextId {a : Arena s α} (ha : a.Valid) : a.get? a.nextId = none := by
  rw [nextId]
  split
  · rename_i i rest hf
    obtain ⟨n, hs⟩ := (ha.mem_free i).mp (by simp [hf])
    simp [get?, hs]
  · simp [get?]

theorem insertWith_fst (a : Arena s α) (build : ElementId s → α) :
    (a.insertWith build).1 = a.nextId := by
  unfold insertWith
  dsimp only
  split <;> rfl

theorem get?_insertWith {a : Arena s α} (ha : a.Valid) (build : ElementId s → α)
    (id : ElementId s) :
    (a.insertWith build).2.get? id =
      if id = a.nextId then some (build a.nextId) else a.get? id := by
  rw [insertWith]
  cases hf : a.free with
  | nil =>
    have hid : a.nextId = ⟨a.slots.size, 0⟩ := by rw [nextId, hf]
    simp only [hid]
    obtain ⟨i, n⟩ := id
    by_cases hi : i = a.slots.size
    · subst hi
      by_cases hn : n = 0
      · simp [get?, hn]
      · simp [get?, hn, Ne.symm hn]
    · have hne : ¬ (⟨i, n⟩ : ElementId s) = ⟨a.slots.size, 0⟩ := fun h => hi (ElementId.mk.inj h).1
      rw [if_neg hne]
      simp [get?, Array.getElem?_push, hi]
  | cons j rest =>
    obtain ⟨m, hs⟩ := (ha.mem_free j).mp (by simp [hf])
    obtain ⟨hlt, hslot⟩ := Array.getElem?_eq_some_iff.mp hs
    have hid : a.nextId = ⟨j, m⟩ := by rw [nextId, hf]; simp [hs]
    simp only [hid]
    obtain ⟨i, n⟩ := id
    by_cases hi : i = j
    · subst hi
      by_cases hn : n = m
      · simp [get?, hn, hlt]
      · simp [get?, hslot, hn, Ne.symm hn, hlt]
    · have hne : ¬ (⟨i, n⟩ : ElementId s) = ⟨j, m⟩ := fun h => hi (ElementId.mk.inj h).1
      rw [if_neg hne]
      simp [get?, Ne.symm hi]

theorem valid_insertWith {a : Arena s α} (ha : a.Valid) (build : ElementId s → α) :
    (a.insertWith build).2.Valid := by
  rw [insertWith]
  cases hf : a.free with
  | nil =>
    refine ⟨List.nodup_nil, fun i => ?_⟩
    have hi := ha.mem_free i
    rw [hf] at hi
    by_cases he : i = a.slots.size
    · simp [he]
    · simpa [Array.getElem?_push, he] using hi
  | cons j rest =>
    have hn := ha.nodup
    rw [hf, List.nodup_cons] at hn
    refine ⟨hn.2, fun i => ?_⟩
    have hi := ha.mem_free i
    rw [hf, List.mem_cons] at hi
    by_cases he : i = j
    · subst he
      obtain ⟨m, hs⟩ := hi.mp (Or.inl rfl)
      have hlt : i < a.slots.size := (Array.getElem?_eq_some_iff.mp hs).1
      simp [hn.1, hlt]
    · simpa [he, Ne.symm he] using hi

theorem contains_insertWith {a : Arena s α} (ha : a.Valid) (build : ElementId s → α)
    (id : ElementId s) :
    (a.insertWith build).2.contains id = (decide (id = a.nextId) || a.contains id) := by
  rw [contains, get?_insertWith ha]
  by_cases h : id = a.nextId <;> simp [h, contains]

/-! Modification -/

@[simp] theorem contains_modify (a : Arena s α) (id : ElementId s) (f : α → α)
    (id' : ElementId s) : (a.modify id f).contains id' = a.contains id' := by
  rw [contains, get?_modify]
  by_cases h : id' = id <;> simp [h, contains]

theorem get?_modify_eq_map (a : Arena s α) (i : ElementId s) (f : α → α) (id : ElementId s) :
    (a.modify i f).get? id = (a.get? id).map fun x => if id = i then f x else x := by
  rw [get?_modify]
  by_cases hi : id = i
  · rw [if_pos hi, hi]
    simp
  · simp [hi]

theorem get?_modify_modify (a : Arena s α) (i j : ElementId s) (f k : α → α) (id : ElementId s) :
    ((a.modify i f).modify j k).get? id = (a.get? id).map fun x =>
      if id = j then k (if id = i then f x else x) else if id = i then f x else x := by
  rw [get?_modify_eq_map, get?_modify_eq_map, Option.map_map]
  rfl

theorem valid_modify {a : Arena s α} (ha : a.Valid) (id : ElementId s) (f : α → α) :
    (a.modify id f).Valid := by
  refine ⟨ha.nodup, fun i => (ha.mem_free i).trans ?_⟩
  simp only [modify, Array.getElem?_modify]
  split
  · cases hs : a.slots[i]? with
    | none => simp
    | some slot =>
      obtain ⟨n, occupant?⟩ := slot
      cases occupant? <;> by_cases hn : n = id.generation <;> simp [hn, Slot.modify]
  · rfl

/-! Removal -/

theorem erase?_eq_some {a a' : Arena s α} {id : ElementId s} {x : α}
    (h : a.erase? id = some (x, a')) : a.get? id = some x := by
  rw [erase?] at h
  obtain ⟨y, hy, he⟩ := Option.map_eq_some_iff.mp h
  rw [hy, (Prod.mk.inj he).1]

theorem getElem?_erase? {a a' : Arena s α} {id : ElementId s} {x : α}
    (h : a.erase? id = some (x, a')) (i : Nat) :
    a'.slots[i]? = if i = id.index then some ⟨id.generation + 1, none⟩ else a.slots[i]? := by
  have hx := get?_eq_some.mp (erase?_eq_some h)
  rw [erase?] at h
  obtain ⟨y, _, he⟩ := Option.map_eq_some_iff.mp h
  rw [← (Prod.mk.inj he).2, Array.getElem?_modify]
  by_cases hi : i = id.index
  · rw [hi, if_pos rfl, if_pos rfl, hx]
    rfl
  · rw [if_neg hi, if_neg (Ne.symm hi)]

theorem free_erase? {a a' : Arena s α} {id : ElementId s} {x : α}
    (h : a.erase? id = some (x, a')) : a'.free = id.index :: a.free := by
  rw [erase?] at h
  obtain ⟨y, _, he⟩ := Option.map_eq_some_iff.mp h
  rw [← (Prod.mk.inj he).2]

theorem get?_erase? {a a' : Arena s α} {id : ElementId s} {x : α}
    (h : a.erase? id = some (x, a')) (id' : ElementId s) :
    a'.get? id' = if id' = id then none else a.get? id' := by
  have hx := get?_eq_some.mp (erase?_eq_some h)
  obtain ⟨i, n⟩ := id
  obtain ⟨i', n'⟩ := id'
  rw [get?, getElem?_erase? h]
  by_cases hi : i' = i
  · subst hi
    by_cases hn : n' = n
    · simp [hn]
    · simp [get?, hx, hn, Ne.symm hn]
  · have hne : ¬ (⟨i', n'⟩ : ElementId s) = ⟨i, n⟩ := fun h => hi (ElementId.mk.inj h).1
    rw [if_neg hne, if_neg hi, get?]

theorem contains_erase? {a a' : Arena s α} {id : ElementId s} {x : α}
    (h : a.erase? id = some (x, a')) (id' : ElementId s) :
    a'.contains id' = (decide (id' ≠ id) && a.contains id') := by
  rw [contains, get?_erase? h]
  by_cases hi : id' = id <;> simp [hi, contains]

theorem valid_erase? {a a' : Arena s α} {id : ElementId s} {x : α} (ha : a.Valid)
    (h : a.erase? id = some (x, a')) : a'.Valid := by
  have hx := get?_eq_some.mp (erase?_eq_some h)
  have hfree := free_erase? h
  have hfresh : id.index ∉ a.free := by
    intro hf
    obtain ⟨n, hn⟩ := (ha.mem_free _).mp hf
    rw [hx] at hn
    cases hn
  refine ⟨hfree ▸ List.nodup_cons.mpr ⟨hfresh, ha.nodup⟩, fun i => ?_⟩
  rw [hfree, getElem?_erase? h, List.mem_cons, ha.mem_free]
  by_cases hi : i = id.index
  · simp [hi]
  · simp [hi]

/-! Listing -/

theorem mem_toList {a : Arena s α} {id : ElementId s} {x : α} :
    (id, x) ∈ a.toList ↔ a.get? id = some x := by
  rw [get?_eq_some, toList, List.mem_filterMap]
  constructor
  · intro hwhole
    obtain ⟨⟨slot, i⟩, hm, he⟩ := hwhole
    rw [List.mem_zipIdx_iff_getElem?] at hm
    obtain ⟨y, hy, hp⟩ := Option.map_eq_some_iff.mp he
    obtain ⟨n, occupant?⟩ := slot
    obtain ⟨rfl, rfl⟩ := Prod.mk.inj hp
    simp only at hy
    subst hy
    simpa using hm
  · intro h
    exact ⟨(⟨id.generation, some x⟩, id.index),
      by simpa [List.mem_zipIdx_iff_getElem?] using h, rfl⟩

theorem mem_values {a : Arena s α} {x : α} : x ∈ a.values ↔ ∃ id, a.get? id = some x := by
  simp [values, ← mem_toList]

theorem mem_ids {a : Arena s α} {id : ElementId s} : id ∈ a.ids ↔ a.contains id = true := by
  simp [ids, contains_iff, ← mem_toList]

theorem mem_ids_index {a : Arena s α} {i : Nat} :
    i ∈ a.ids.map ElementId.index ↔ ∃ n x, a.slots[i]? = some ⟨n, some x⟩ := by
  simp only [List.mem_map, mem_ids, contains_iff, get?_eq_some]
  constructor
  · intro hwhole
    obtain ⟨id, ⟨x, hx⟩, rfl⟩ := hwhole
    exact ⟨id.generation, x, hx⟩
  · intro hwhole
    obtain ⟨n, x, hx⟩ := hwhole
    exact ⟨⟨i, n⟩, ⟨x, hx⟩, rfl⟩

/-- Ids are listed in the order of their slots, one for each. -/
theorem pairwise_ids_index (a : Arena s α) : (a.ids.map ElementId.index).Pairwise (· < ·) := by
  have hsub (l : List (Slot α × Nat)) :
      ((l.filterMap fun p => p.1.occupant?.map fun value =>
        ((⟨p.2, p.1.generation⟩ : ElementId s), value)).map fun p => p.1.index).Sublist
        (l.map Prod.snd) := by
    induction l with
    | nil => exact List.Sublist.slnil
    | cons p l ih =>
      obtain ⟨⟨n, occupant?⟩, i⟩ := p
      cases occupant? with
      | none => exact ih.cons _
      | some x => exact ih.cons_cons _
  have h := hsub a.slots.toList.zipIdx
  rw [List.zipIdx_map_snd] at h
  simpa [ids, toList, Function.comp_def] using List.Pairwise.sublist h List.pairwise_lt_range'

theorem nodup_ids_index (a : Arena s α) : (a.ids.map ElementId.index).Nodup :=
  a.pairwise_ids_index.imp Nat.ne_of_lt

/-! Clearing -/

theorem get?_clear (a : Arena s α) (id : ElementId s) : a.clear.get? id = none := by
  unfold get? clear
  simp only [Array.getElem?_map]
  cases a.slots[id.index]? with
  | none => rfl
  | some slot =>
    obtain ⟨n, occupant?⟩ := slot
    cases occupant? <;> simp [Slot.vacate]

theorem valid_clear {a : Arena s α} (ha : a.Valid) : a.clear.Valid := by
  refine ⟨?_, fun i => ?_⟩
  · refine List.nodup_append.mpr ⟨List.nodup_reverse.mpr a.nodup_ids_index, ha.nodup, ?_⟩
    intro i hi j hj heq
    subst heq
    obtain ⟨n, x, hs⟩ := mem_ids_index.mp (List.mem_reverse.mp hi)
    obtain ⟨m, hm⟩ := (ha.mem_free i).mp hj
    rw [hs] at hm
    cases hm
  · simp only [clear, List.mem_append, List.mem_reverse, mem_ids_index, ha.mem_free i,
      Array.getElem?_map]
    cases a.slots[i]? with
    | none => simp
    | some slot =>
      obtain ⟨n, occupant?⟩ := slot
      cases occupant? <;> simp [Slot.vacate]

end Waymark.Arena
