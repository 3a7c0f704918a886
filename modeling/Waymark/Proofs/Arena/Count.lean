import Mathlib.Data.List.Perm.Basic
import Waymark.Proofs.Arena.Occupancy

namespace Waymark.Arena

variable {s : Element} {α : Type} {a a' : Arena s α} {id : ElementId s} {x : α}

/-- Every slot is either one of those counted or free. -/
def Sized (a : Arena s α) : Prop := a.size + a.free.length = a.slots.size

/-- Every slot is either occupied or free. -/
theorem length_ids (ha : a.Valid) : a.ids.length + a.free.length = a.slots.size := by
  have hnodup : (a.ids.map ElementId.index ++ a.free).Nodup := by
    refine List.nodup_append.mpr ⟨a.nodup_ids_index, ha.nodup, fun i hi j hj heq => ?_⟩
    subst heq
    obtain ⟨n, x, hs⟩ := mem_ids_index.mp hi
    obtain ⟨m, hm⟩ := (ha.mem_free i).mp hj
    rw [hs] at hm
    cases hm
  have hmem (i : Nat) : i ∈ a.ids.map ElementId.index ++ a.free ↔ i ∈ List.range a.slots.size := by
    rw [List.mem_append, mem_ids_index, ha.mem_free, List.mem_range]
    constructor
    · intro hslot
      obtain ⟨n, x, hs⟩ | ⟨n, hs⟩ := hslot <;> exact (Array.getElem?_eq_some_iff.mp hs).1
    · intro hlt
      have hs := Array.getElem?_eq_getElem hlt
      cases ho : a.slots[i].occupant? with
      | some x => exact Or.inl ⟨a.slots[i].generation, x, by rw [hs, ← ho]⟩
      | none => exact Or.inr ⟨a.slots[i].generation, by rw [hs, ← ho]⟩
  have hperm := (List.perm_ext_iff_of_nodup hnodup List.nodup_range).mpr hmem
  have hlength := hperm.length_eq
  rwa [List.length_append, List.length_map, List.length_range] at hlength

theorem Sized.size_eq (h : a.Sized) (ha : a.Valid) : a.size = a.ids.length := by
  have hids := length_ids ha
  rw [Sized] at h
  omega

theorem sized_empty : Sized ({} : Arena s α) := rfl

theorem Sized.insertWith (h : a.Sized) (build : ElementId s → α) : (a.insertWith build).2.Sized := by
  rw [Sized] at h
  rw [Arena.insertWith]
  cases hf : a.free with
  | nil =>
    rw [hf] at h
    simp only [Sized, Array.size_push, List.length_nil] at h ⊢
    omega
  | cons i rest =>
    rw [hf] at h
    simp only [Sized, Array.size_setIfInBounds, List.length_cons] at h ⊢
    omega

theorem Sized.modify (h : a.Sized) (id : ElementId s) (f : α → α) : (a.modify id f).Sized := by
  rw [Sized] at h ⊢
  rw [Arena.modify, Array.size_modify]
  exact h

/-- What is erased was counted. -/
theorem Sized.size_erase? (h : a.Sized) (ha : a.Valid) (herase : a.erase? id = some (x, a')) :
    a'.size + 1 = a.size := by
  have hlive : id ∈ a.ids := mem_ids.mpr (contains_iff.mpr ⟨x, erase?_eq_some herase⟩)
  have hpos := List.length_pos_of_mem hlive
  rw [← h.size_eq ha] at hpos
  rw [Arena.erase?] at herase
  obtain ⟨y, _, he⟩ := Option.map_eq_some_iff.mp herase
  rw [← (Prod.mk.inj he).2]
  exact Nat.sub_add_cancel hpos

theorem Sized.erase? (h : a.Sized) (ha : a.Valid) (herase : a.erase? id = some (x, a')) :
    a'.Sized := by
  have hsize := h.size_erase? ha herase
  rw [Arena.erase?] at herase
  obtain ⟨y, _, he⟩ := Option.map_eq_some_iff.mp herase
  rw [← (Prod.mk.inj he).2] at hsize ⊢
  simp only [Sized, Array.size_modify, List.length_cons] at h hsize ⊢
  omega

theorem sized_clear (ha : a.Valid) : a.clear.Sized := by
  have hids := length_ids ha
  simp only [Sized, clear, Array.size_map, List.length_append, List.length_reverse, List.length_map]
  omega

end Waymark.Arena
