import Mathlib.Data.Finmap
import Waymark.Proofs.Graph.Restored

namespace Waymark.SlotTable

/-- Handles by index, and nothing else. -/
abbrev Handles := Finmap fun _ : Nat => Handle

inductive Change
  | set (i : Nat) (h : Handle)
  | reset (i : Nat)
  | clear

namespace Change

/-- What a change returns, and what it makes of a table. -/
def onTable : Change → SlotTable → Option Handle × SlotTable
  | set i h, t => t.set i h
  | reset i, t => t.reset i
  | clear, t => (none, t.clear)

/-- The same of a finite map: the handle that was mapped before comes back. -/
def onMap : Change → Handles → Option Handle × Handles
  | set i h, m => (m.lookup i, m.insert i h)
  | reset i, m => (m.lookup i, m.erase i)
  | clear, _ => (none, ∅)

def onIndices : Change → List Nat → List Nat
  | set i _, is => i :: is
  | reset _, is => is
  | clear, _ => []

end Change

def tableAfter (cs : List Change) : SlotTable := cs.foldl (fun t c => (c.onTable t).2) {}

def mapAfter (cs : List Change) : Handles := cs.foldl (fun m c => (c.onMap m).2) ∅

/-- The indices set since the table was last cleared, whatever was reset meanwhile. -/
def setSinceClear (cs : List Change) : List Nat := cs.foldl (fun is c => c.onIndices is) []

variable {t : SlotTable} {m : Handles} {is : List Nat}

/-- A table holds what a map does, counts it, and is as long as the largest of the indices needs. -/
structure Refines (t : SlotTable) (m : Handles) (is : List Nat) : Prop where
  get? : ∀ i, t.get? i = m.lookup i
  counts : t.Counts
  size : t.items.size = is.max?.elim 0 (· + 1)

theorem refines_empty : Refines {} ∅ [] where
  get? _ := rfl
  counts := counts_empty
  size := rfl

theorem size_set (t : SlotTable) (i : Nat) (h : Handle) :
    (t.set i h).2.items.size = max (i + 1) t.items.size := by
  simp only [set, Array.size_setIfInBounds, Array.size_append, Array.size_replicate]
  omega

namespace Refines

theorem set (hr : t.Refines m is) (i : Nat) (h : Handle) :
    (t.set i h).2.Refines (m.insert i h) (i :: is) := by
  refine ⟨fun j => ?_, hr.counts.set i h, ?_⟩
  · rw [get?_set]
    by_cases hj : j = i
    · rw [if_pos hj, hj, Finmap.lookup_insert]
    · rw [if_neg hj, Finmap.lookup_insert_of_ne _ hj, hr.get?]
  · rw [size_set, hr.size, List.max?_cons]
    cases is.max? with
    | none => exact Nat.max_zero (i + 1)
    | some j => exact Nat.add_max_add_right i j 1

theorem reset (hr : t.Refines m is) (i : Nat) : (t.reset i).2.Refines (m.erase i) is := by
  refine ⟨fun j => ?_, hr.counts.reset i, ?_⟩
  · rw [get?_reset]
    by_cases hj : j = i
    · rw [if_pos hj, hj, Finmap.lookup_erase]
    · rw [if_neg hj, Finmap.lookup_erase_ne hj, hr.get?]
  · exact (Array.size_setIfInBounds ..).trans hr.size

/-- Whatever is changed, the same comes back of both, and the table still holds what the map
does. -/
theorem change (hr : t.Refines m is) (c : Change) :
    (c.onTable t).1 = (c.onMap m).1 ∧
      (c.onTable t).2.Refines (c.onMap m).2 (c.onIndices is) := by
  cases c with
  | set i h => exact ⟨hr.get? i, hr.set i h⟩
  | reset i => exact ⟨hr.get? i, hr.reset i⟩
  | clear => exact ⟨rfl, refines_empty⟩

theorem contains_iff (hr : t.Refines m is) (i : Nat) : t.contains i = true ↔ i ∈ m := by
  rw [contains, hr.get?, Finmap.lookup_isSome]

theorem live_eq (hr : t.Refines m is) : t.live = m.keys.card := by
  rw [hr.counts.live_eq m.keys.nodup_toList fun i => ?_, Finset.length_toList]
  rw [Finset.mem_toList, Finmap.mem_keys, hr.contains_iff]

/-- The counter goes down by one for a handle that was there, and then it was not zero. -/
theorem live_reset (hr : t.Refines m is) (i : Nat) :
    (t.reset i).2.live + (if i ∈ m then 1 else 0) = t.live := by
  rw [(hr.reset i).live_eq, hr.live_eq, Finmap.keys_erase]
  by_cases hi : i ∈ m
  · rw [if_pos hi, Finset.card_erase_add_one (Finmap.mem_keys.mpr hi)]
  · rw [if_neg hi, Finset.erase_eq_of_notMem (fun hk => hi (Finmap.mem_keys.mp hk)), Nat.add_zero]

theorem isEmpty_iff (hr : t.Refines m is) : t.isEmpty = true ↔ m = ∅ := by
  rw [isEmpty, beq_iff_eq, hr.live_eq, Finset.card_eq_zero]
  constructor
  · intro hkeys
    refine Finmap.ext_lookup fun i => ?_
    rw [Finmap.lookup_empty, Finmap.lookup_eq_none, ← Finmap.mem_keys, hkeys]
    exact Finset.notMem_empty i
  · rintro rfl
    exact Finmap.keys_empty

theorem isLeast_freeIndex (hr : t.Refines m is) : IsLeast {i | i ∉ m} t.freeIndex := by
  constructor
  · show t.freeIndex ∉ m
    rw [← hr.contains_iff, contains_freeIndex]
    exact Bool.false_ne_true
  · intro i hi
    refine freeIndex_le (Bool.eq_false_iff.mpr fun hc => ?_)
    exact hi ((hr.contains_iff i).mp hc)

end Refines

theorem refines_after (cs : List Change) :
    (tableAfter cs).Refines (mapAfter cs) (setSinceClear cs) := by
  induction cs using List.reverseRecOn with
  | nil => exact refines_empty
  | append_singleton cs c ih =>
    rw [tableAfter, mapAfter, setSinceClear, List.foldl_append, List.foldl_append,
      List.foldl_append]
    exact (ih.change c).2

/-- Whatever has been done to a table, it answers for the handles that a finite map would hold by
then: what is stored, what a change displaces, how many there are and which index is free first. Its
length is told by the largest index set since it was last cleared, zero if there is none. -/
theorem refines_map (cs : List Change) :
    let t := tableAfter cs
    let m := mapAfter cs
    (∀ i, t.get? i = m.lookup i ∧ (t.contains i = true ↔ i ∈ m)) ∧
      (∀ c : Change, (c.onTable t).1 = (c.onMap m).1) ∧
      t.live = m.keys.card ∧
      (∀ i, (t.reset i).2.live + (if i ∈ m then 1 else 0) = t.live) ∧
      (t.isEmpty = true ↔ m = ∅) ∧
      IsLeast {i | i ∉ m} t.freeIndex ∧
      t.nextIndex = (setSinceClear cs).max?.elim 0 (· + 1) := by
  have hr := refines_after cs
  exact ⟨fun i => ⟨hr.get? i, hr.contains_iff i⟩, fun c => (hr.change c).1, hr.live_eq,
    hr.live_reset, hr.isEmpty_iff, hr.isLeast_freeIndex, hr.size⟩

/-- A gap is free first, and the length stays that of the index that was taken back. -/
example : let t := tableAfter [.set 0 .channel, .set 4 (.vertex 7), .set 1 (.edge 2), .reset 4]
    (t.live, t.freeIndex, t.nextIndex) = (2, 2, 5) := by decide +kernel

end Waymark.SlotTable
