import Mathlib.Data.List.Induction
import Mathlib.Order.Bounds.Basic
import Waymark.Proofs.Arena.Chronicle
import Waymark.Proofs.Arena.Count

namespace Waymark.Arena

/-! Lists that name what was emptied, possibly more than once -/

theorem eraseDups_of_nodup {l : List Nat} (h : l.Nodup) : l.eraseDups = l := by
  induction l with
  | nil => rfl
  | cons i l ih =>
    obtain ⟨hi, hl⟩ := List.nodup_cons.mp h
    rw [List.eraseDups_cons, List.filter_eq_self.mpr fun j hj => ?_, ih hl]
    rw [Bool.not_eq_true', beq_eq_false_iff_ne]
    rintro rfl
    exact hi hj

theorem eraseDups_filter_ne {l rest : List Nat} {i : Nat} (h : l.eraseDups = i :: rest) :
    (l.filter (· != i)).eraseDups = rest := by
  cases l with
  | nil => cases h
  | cons j l =>
    rw [List.eraseDups_cons] at h
    obtain ⟨rfl, hrest⟩ := List.cons.inj h
    rw [← hrest, List.filter_cons_of_neg (by simp)]
    rfl

/-- What comes in front holds nothing that was kept so far. -/
theorem eraseDups_filter_append {l log : List Nat} {p q : Nat → Bool} (hl : l.Nodup)
    (hp : ∀ i ∈ l, p i = false) (hq : ∀ i, q i = (l.contains i || p i)) :
    ((l ++ log).filter q).eraseDups = l ++ (log.filter p).eraseDups := by
  have hfront : l.filter q = l :=
    List.filter_eq_self.mpr fun i hi => by rw [hq, List.contains_iff_mem.mpr hi, Bool.true_or]
  have hback : (log.filter q).removeAll l = log.filter p := by
    rw [List.removeAll, List.filter_filter]
    refine List.filter_congr fun i _ => ?_
    rw [hq, List.elem_eq_contains]
    cases hi : l.contains i with
    | true => rw [hp i (List.contains_iff_mem.mp hi)]; rfl
    | false => rfl
  rw [List.filter_append, List.eraseDups_append, hfront, hback, eraseDups_of_nodup hl]

theorem head?_eraseDups (l : List Nat) : l.eraseDups.head? = l.head? := by
  cases l with
  | nil => rfl
  | cons i l => rw [List.eraseDups_cons, List.head?_cons, List.head?_cons]

/-! Changes -/

/-- What can be done to an arena, with any id. -/
inductive Change (s : Element) (α : Type)
  | insert (build : ElementId s → α)
  | modify (id : ElementId s) (f : α → α)
  | erase (id : ElementId s)
  | clear

variable {s : Element} {α : Type} {a a' : Arena s α} {id : ElementId s} {x : α} {log : List Nat}

namespace Change

def on (a : Arena s α) : Change s α → Arena s α
  | insert build => (a.insertWith build).2
  | modify id f => a.modify id f
  | erase id => (a.erase? id).elim a Prod.snd
  | clear => a.clear

/-- The slots that a change empties, the last one in front. -/
def empties (a : Arena s α) : Change s α → List Nat
  | insert _ => []
  | modify _ _ => []
  | erase id => if a.contains id then [id.index] else []
  | clear => (a.ids.map ElementId.index).reverse

end Change

/-- A new arena after some changes. -/
def after (cs : List (Change s α)) : Arena s α := cs.foldl Change.on {}

def emptiedFrom (a : Arena s α) : List (Change s α) → List Nat
  | [] => []
  | c :: cs => emptiedFrom (c.on a) cs ++ c.empties a

/-- The slots that were emptied since the arena was new, the last one in front. One that was emptied
twice is named twice. -/
def emptied (cs : List (Change s α)) : List Nat := emptiedFrom {} cs

/-! What one change comes to, slot by slot and for whoever looks an id up -/

/-- A value comes into the slot of `id`, which is a new one if no slot was free. All other slots stay
as they are. -/
structure Inserts (a : Arena s α) (id : ElementId s) (x : α) (a' : Arena s α) : Prop where
  generation : id.generation = (a.slots[id.index]?.map Slot.generation).getD 0
  slot (i : Nat) :
    a'.slots[i]? = if i = id.index then some ⟨id.generation, some x⟩ else a.slots[i]?
  size_slots : a'.slots.size = if a.free.isEmpty then a.slots.size + 1 else a.slots.size
  get? (i : ElementId s) : a'.get? i = if i = id then some x else a.get? i
  free : a'.free = a.free.tail
  size : a'.size = a.size + 1

/-- The value under `id` goes, and its slot, in its next generation, comes in front of the free
list. -/
structure Erases (a : Arena s α) (id : ElementId s) (x : α) (a' : Arena s α) : Prop where
  stored : a.get? id = some x
  slot (i : Nat) :
    a'.slots[i]? = if i = id.index then some ⟨id.generation + 1, none⟩ else a.slots[i]?
  size_slots : a'.slots.size = a.slots.size
  get? (i : ElementId s) : a'.get? i = if i = id then none else a.get? i
  free : a'.free = id.index :: a.free
  size : a'.size + 1 = a.size

/-- All values go. Their slots, each in its next generation, come in front of the free list one after
another. -/
structure Clears (a a' : Arena s α) : Prop where
  slot (i : Nat) :
    a'.slots[i]? = a.slots[i]?.map fun slot => if slot.occupant?.isSome then slot.vacate else slot
  size_slots : a'.slots.size = a.slots.size
  get? (id : ElementId s) : a'.get? id = none
  free : a'.free = (a.ids.map ElementId.index).reverse ++ a.free
  size : a'.size = 0

theorem nextId_generation (a : Arena s α) :
    a.nextId.generation = (a.slots[a.nextId.index]?.map Slot.generation).getD 0 := by
  rw [nextId]
  cases a.free with
  | nil => rw [Array.getElem?_eq_none (Nat.le_refl a.slots.size)]; rfl
  | cons i rest => rfl

theorem inserts_insertWith (ha : a.Valid) (build : ElementId s → α) :
    a.Inserts (a.insertWith build).1 (build (a.insertWith build).1) (a.insertWith build).2 := by
  rw [insertWith_fst]
  refine ⟨a.nextId_generation, getElem?_insertWith ha build, ?_, get?_insertWith ha build, ?_, ?_⟩
  all_goals
    rw [insertWith]
    cases a.free with
    | nil => simp
    | cons i rest => simp

theorem erase?_eq_none : a.erase? id = none ↔ a.get? id = none := by
  rw [erase?, Option.map_eq_none_iff]

theorem erases_erase? (ha : a.Valid) (hsized : a.Sized) (h : a.erase? id = some (x, a')) :
    a.Erases id x a' := by
  have hsize := hsized.size_erase? ha h
  have hslots : a'.slots.size = a.slots.size := by
    rw [erase?] at h
    obtain ⟨y, _, he⟩ := Option.map_eq_some_iff.mp h
    rw [← (Prod.mk.inj he).2, Array.size_modify]
  exact ⟨erase?_eq_some h, getElem?_erase? h, hslots, get?_erase? h, free_erase? h, hsize⟩

theorem clears_clear (a : Arena s α) : a.Clears a.clear :=
  ⟨fun _ => Array.getElem?_map, Array.size_map, get?_clear a, rfl, rfl⟩

def vacant (a : Arena s α) (i : Nat) : Bool := a.slots[i]?.any (·.occupant?.isNone)

theorem vacant_iff {i : Nat} : a.vacant i = true ↔ ∃ n, a.slots[i]? = some ⟨n, none⟩ := by
  rw [vacant]
  cases a.slots[i]? with
  | none => simp
  | some slot =>
    obtain ⟨n, occupant?⟩ := slot
    cases occupant? <;> simp

theorem vacant_insertWith (ha : a.Valid) (build : ElementId s → α) (i : Nat) :
    (a.insertWith build).2.vacant i = (i != a.nextId.index && a.vacant i) := by
  rw [vacant, getElem?_insertWith ha, vacant]
  by_cases hi : i = a.nextId.index
  · rw [if_pos hi, hi, bne_self_eq_false]
    rfl
  · rw [if_neg hi, bne_iff_ne.mpr hi, Bool.true_and]

theorem vacant_modify (a : Arena s α) (id : ElementId s) (f : α → α) (i : Nat) :
    (a.modify id f).vacant i = a.vacant i := by
  simp only [vacant, modify, Array.getElem?_modify]
  split
  · rw [Option.any_map]
    congr 1
    funext slot
    split
    · rw [Slot.modify, Option.isNone_map]
    · rfl
  · rfl

theorem vacant_erase? (h : a.erase? id = some (x, a')) (i : Nat) :
    a'.vacant i = ([id.index].contains i || a.vacant i) := by
  rw [vacant, getElem?_erase? h, vacant]
  by_cases hi : i = id.index <;> simp [hi]

theorem vacant_clear (a : Arena s α) (i : Nat) :
    a.clear.vacant i = ((a.ids.map ElementId.index).reverse.contains i || a.vacant i) := by
  rw [Bool.eq_iff_iff, Bool.or_eq_true, List.contains_iff_mem, List.mem_reverse, mem_ids_index,
    vacant_iff, vacant_iff]
  simp only [clear, Array.getElem?_map]
  cases a.slots[i]? with
  | none => simp
  | some slot =>
    obtain ⟨n, occupant?⟩ := slot
    cases occupant? <;> simp [Slot.vacate]

/-- The free list can be told from what was emptied so far. -/
structure Stacked (a : Arena s α) (log : List Nat) : Prop where
  valid : a.Valid
  sized : a.Sized
  free : a.free = (log.filter a.vacant).eraseDups

theorem stacked_empty : Stacked ({} : Arena s α) [] := ⟨valid_empty, sized_empty, rfl⟩

namespace Stacked

/-- The slot that comes next is no longer vacant, so that it is left out wherever it is named. -/
theorem insertWith (h : a.Stacked log) (build : ElementId s → α) :
    (a.insertWith build).2.Stacked log := by
  refine ⟨valid_insertWith h.valid build, h.sized.insertWith build, ?_⟩
  rw [funext (vacant_insertWith h.valid build), ← List.filter_filter]
  have hfree := h.free
  rw [Arena.insertWith, nextId]
  cases hf : a.free with
  | cons i rest => exact (eraseDups_filter_ne (hfree.symm.trans hf)).symm
  | nil =>
    rw [hf] at hfree
    cases hlog : log.filter a.vacant with
    | nil => rfl
    | cons j rest =>
      rw [hlog, List.eraseDups_cons] at hfree
      cases hfree

theorem modify (h : a.Stacked log) (id : ElementId s) (f : α → α) :
    (a.modify id f).Stacked log := by
  refine ⟨valid_modify h.valid id f, h.sized.modify id f, ?_⟩
  rw [funext (vacant_modify a id f)]
  exact h.free

theorem erase? (h : a.Stacked log) (herase : a.erase? id = some (x, a')) :
    a'.Stacked (id.index :: log) := by
  refine ⟨valid_erase? h.valid herase, h.sized.erase? h.valid herase, ?_⟩
  have hoccupied : a.vacant id.index = false := by
    rw [vacant, get?_eq_some.mp (erase?_eq_some herase)]
    rfl
  rw [← List.singleton_append, eraseDups_filter_append (List.nodup_singleton _)
    (fun i hi => List.mem_singleton.mp hi ▸ hoccupied) (vacant_erase? herase), ← h.free]
  exact free_erase? herase

theorem clear (h : a.Stacked log) :
    a.clear.Stacked ((a.ids.map ElementId.index).reverse ++ log) := by
  refine ⟨valid_clear h.valid, sized_clear h.valid, ?_⟩
  have hoccupied (i : Nat) (hi : i ∈ (a.ids.map ElementId.index).reverse) : a.vacant i = false := by
    obtain ⟨n, x, hs⟩ := mem_ids_index.mp (List.mem_reverse.mp hi)
    rw [vacant, hs]
    rfl
  rw [eraseDups_filter_append (List.nodup_reverse.mpr a.nodup_ids_index) hoccupied
    (vacant_clear a), ← h.free]
  rfl

theorem on (h : a.Stacked log) (c : Change s α) : (c.on a).Stacked (c.empties a ++ log) := by
  cases c with
  | insert build => exact h.insertWith build
  | modify id f => exact h.modify id f
  | clear => exact h.clear
  | erase id =>
    rw [Change.on, Change.empties, contains]
    cases hx : a.get? id with
    | none =>
      have hnone : a.erase? id = none := by rw [Arena.erase?, hx]; rfl
      rw [hnone]
      exact h
    | some x =>
      have herase : ∃ a', a.erase? id = some (x, a') := ⟨_, by rw [Arena.erase?, hx]; rfl⟩
      obtain ⟨a', herase⟩ := herase
      rw [herase]
      exact h.erase? herase

theorem foldl (h : a.Stacked log) (cs : List (Change s α)) :
    (cs.foldl Change.on a).Stacked (emptiedFrom a cs ++ log) := by
  induction cs generalizing a log with
  | nil => exact h
  | cons c cs ih =>
    rw [List.foldl_cons, emptiedFrom, List.append_assoc]
    exact ih (h.on c)

/-- The next insertion takes the slot emptied last, among those that are still empty. -/
theorem nextId_index (h : a.Stacked log) :
    a.nextId.index = (log.find? a.vacant).getD a.slots.size := by
  rw [← List.head?_filter, ← head?_eraseDups, ← h.free, nextId]
  cases a.free <;> rfl

end Stacked

theorem stacked_after (cs : List (Change s α)) : (after cs).Stacked (emptied cs) := by
  have h := stacked_empty.foldl cs
  rwa [List.append_nil] at h

/-! Slots -/

/-- An arena only grows when it is full, and then it is full again. -/
theorem size_slots_on (a : Arena s α) (c : Change s α) :
    (c.on a).slots.size = a.slots.size ∨
      (c.on a).slots.size = a.slots.size + 1 ∧ (c.on a).free = [] := by
  cases c with
  | insert build =>
    rw [Change.on, insertWith]
    cases hf : a.free with
    | nil => exact Or.inr ⟨Array.size_push .., rfl⟩
    | cons i rest => exact Or.inl (Array.size_setIfInBounds ..)
  | modify id f => exact Or.inl Array.size_modify
  | clear => exact Or.inl Array.size_map
  | erase id =>
    refine Or.inl ?_
    rw [Change.on, erase?]
    cases a.get? id with
    | none => rfl
    | some x => exact Array.size_modify

theorem vacant_eq_false_of_lt (ha : a.Valid) {build : ElementId s → α}
    (h : a.slots.size < (a.insertWith build).2.slots.size) (i : Nat) : a.vacant i = false := by
  rw [Bool.eq_false_iff]
  intro hi
  have hmem := (ha.mem_free i).mpr (vacant_iff.mp hi)
  rw [insertWith] at h
  cases hf : a.free with
  | nil =>
    rw [hf] at hmem
    cases hmem
  | cons j rest =>
    rw [hf, Array.size_setIfInBounds] at h
    exact Nat.lt_irrefl _ h

theorem length_toList (a : Arena s α) :
    a.toList.length = a.slots.toList.countP (·.occupant?.isSome) := by
  rw [toList, List.length_filterMap_eq_countP]
  conv_rhs => rw [← List.zipIdx_map_fst 0 a.slots.toList, List.countP_map]
  refine List.countP_congr fun p _ => ?_
  rw [Option.isSome_map]
  rfl

theorem after_append_singleton (cs : List (Change s α)) (c : Change s α) :
    after (cs ++ [c]) = c.on (after cs) := by
  rw [after, List.foldl_append]
  rfl

/-- There are as many slots as there have been values at the same time. -/
theorem isGreatest_length (cs : List (Change s α)) :
    IsGreatest {n | ∃ past, past <+: cs ∧ (after past).toList.length = n}
      (after cs).slots.size := by
  have hlength (past : List (Change s α)) :
      (after past).toList.length + (after past).free.length = (after past).slots.size := by
    have hids := length_ids (stacked_after past).valid
    rwa [ids, List.length_map] at hids
  induction cs using List.reverseRecOn with
  | nil =>
    constructor
    · exact ⟨[], List.prefix_rfl, rfl⟩
    · rintro n ⟨past, hpast, rfl⟩
      rw [List.prefix_nil.mp hpast]
      exact Nat.le_refl 0
  | append_singleton cs c ih =>
    have hsize := size_slots_on (after cs) c
    rw [← after_append_singleton] at hsize
    constructor
    · obtain hsame | hmore := hsize
      · obtain ⟨past, hpast, hn⟩ := ih.1
        exact ⟨past, hpast.trans (List.prefix_append _ _), hn.trans hsame.symm⟩
      · have hfull := hlength (cs ++ [c])
        rw [hmore.2] at hfull
        exact ⟨_, List.prefix_rfl, hfull⟩
    · rintro n ⟨past, hpast, rfl⟩
      obtain rfl | hpast := List.prefix_concat_iff.mp hpast
      · exact Nat.le_of_add_right_le (Nat.le_of_eq (hlength _))
      · have hle := ih.2 ⟨past, hpast, rfl⟩
        obtain hsame | hmore := hsize <;> omega

/-- As many slots are enough as there are values at the same time, whatever comes and goes. -/
theorem nextId_index_lt {cs : List (Change s α)} {build : ElementId s → α} {n : Nat}
    (h : ∀ past, past <+: cs ++ [.insert build] → (after past).toList.length ≤ n) :
    (after cs).nextId.index < n := by
  obtain ⟨past, hpast, hlength⟩ := (isGreatest_length (cs ++ [.insert build])).1
  have hslot := getElem?_insertWith (stacked_after cs).valid build (after cs).nextId.index
  rw [if_pos rfl] at hslot
  have hlt := (Array.getElem?_eq_some_iff.mp hslot).1
  change _ < (Change.on (after cs) (.insert build)).slots.size at hlt
  rw [← after_append_singleton, ← hlength] at hlt
  exact Nat.lt_of_lt_of_le hlt (h past hpast)

/-- Whatever has been done to an arena: the free list names the empty slots, each once. The counter
counts the occupied ones, and one less when a value goes. The listing gives every value, in slot
order and under the id that it is found by. An insertion stores its value in the slot emptied last of
those still empty, and in a new one if there is none, so that there never were more slots than values
at once; no other slot changes. What goes, one by one or all together, leaves empty slots behind. -/
theorem after_exact (cs : List (Change s α)) :
    let a := after cs
    a.free.Nodup ∧
      (∀ i, i ∈ a.free ↔ ∃ n, a.slots[i]? = some ⟨n, none⟩) ∧
      a.size = a.slots.toList.countP (·.occupant?.isSome) ∧
      (∀ i n x, a.slots[i]? = some ⟨n, some x⟩ ↔ (⟨i, n⟩, x) ∈ a.toList) ∧
      (∀ id x, (id, x) ∈ a.toList ↔ a.get? id = some x) ∧
      (a.ids.map ElementId.index).Pairwise (· < ·) ∧
      (∀ build, (a.insertWith build).1.index =
        ((emptied cs).find? a.vacant).getD a.slots.size) ∧
      (∀ build, a.Inserts (a.insertWith build).1 (build (a.insertWith build).1)
        (a.insertWith build).2) ∧
      (∀ build, a.slots.size < (a.insertWith build).2.slots.size → ∀ i, a.vacant i = false) ∧
      (∀ id, a.erase? id = none ↔ a.get? id = none) ∧
      (∀ id x a', a.erase? id = some (x, a') → a.Erases id x a') ∧
      a.Clears a.clear ∧
      IsGreatest {n | ∃ past, past <+: cs ∧ (after past).toList.length = n} a.slots.size ∧
      ∀ build n, (∀ past, past <+: cs ++ [.insert build] → (after past).toList.length ≤ n) →
        (a.insertWith build).1.index < n := by
  have hs := stacked_after cs
  have hsize := hs.sized.size_eq hs.valid
  refine ⟨hs.valid.nodup, hs.valid.mem_free, ?_, fun i n x => ?_, fun id x => mem_toList,
    pairwise_ids_index _, fun build => ?_, inserts_insertWith hs.valid,
    fun build => vacant_eq_false_of_lt hs.valid, fun id => erase?_eq_none,
    fun id x a' => erases_erase? hs.valid hs.sized, clears_clear _, isGreatest_length cs,
    fun build n hn => ?_⟩
  · rw [hsize, ids, List.length_map, length_toList]
  · rw [mem_toList, get?_eq_some]
  · rw [insertWith_fst, hs.nextId_index]
  · rw [insertWith_fst]
    exact nextId_index_lt hn

/-- Slot 1 is emptied by itself, then the others in order. An id of before is met with nothing. -/
example : (after [.insert fun _ => 'a', .insert fun _ => 'b', .insert fun _ => 'c', .erase ⟨1, 0⟩,
    .clear, .erase ⟨1, 0⟩] : Arena .vertex Char).free = [2, 0, 1] := by
  decide +kernel

end Waymark.Arena
