import Mathlib.Algebra.Group.Nat.Defs
import Mathlib.Data.List.Nodup
import Waymark.Proofs.Arena.Occupancy

namespace Waymark

/-- All ids that were ever issued, in order, each with what it stands for as long as that is
there. -/
abbrev Chronicle (s : Element) (β : Type) := List (ElementId s × Option β)

namespace Chronicle

variable {s : Element} {β : Type} {c : Chronicle s β} {id : ElementId s} {b : β}
  {P : ElementId s → β → Bool}

def ids (c : Chronicle s β) : List (ElementId s) := c.map Prod.fst

def issue (c : Chronicle s β) (id : ElementId s) (b : β) : Chronicle s β := c ++ [(id, some b)]

/-- What `P` holds of goes. -/
def retire (c : Chronicle s β) (P : ElementId s → β → Bool) : Chronicle s β :=
  c.map fun p => (p.1, p.2.filter fun b => !P p.1 b)

def amend (c : Chronicle s β) (id : ElementId s) (f : β → β) : Chronicle s β :=
  c.map fun p => (p.1, p.2.map fun b => if p.1 = id then f b else b)

/-- How often a slot has been emptied. -/
def freed (c : Chronicle s β) (i : Nat) : Nat := c.countP fun p => p.1.index = i && p.2.isNone

/-- No slot has been emptied so often that its generations came round. -/
def Bounded (c : Chronicle s β) : Prop := ∀ i, c.freed i < 2 ^ 32

theorem ids_issue (c : Chronicle s β) (id : ElementId s) (b : β) :
    (c.issue id b).ids = c.ids ++ [id] := by
  simp [ids, issue]

theorem ids_retire (c : Chronicle s β) (P : ElementId s → β → Bool) :
    (c.retire P).ids = c.ids := by
  simp [ids, retire]

theorem ids_amend (c : Chronicle s β) (id : ElementId s) (f : β → β) :
    (c.amend id f).ids = c.ids := by
  simp [ids, amend]

theorem mem_retire_some :
    (id, some b) ∈ c.retire P ↔ (id, some b) ∈ c ∧ P id b = false := by
  simp only [retire, List.mem_map, Prod.mk.injEq]
  constructor
  · intro hwhole
    obtain ⟨⟨_, b?⟩, hp, rfl, hb⟩ := hwhole
    obtain ⟨rfl, hP⟩ := Option.filter_eq_some_iff.mp hb
    exact ⟨hp, by simpa using hP⟩
  · intro hwhole
    exact ⟨_, hwhole.1, rfl, by simp [hwhole.2]⟩

theorem mem_retire_none :
    (id, none) ∈ c.retire P ↔ (id, none) ∈ c ∨ ∃ b, (id, some b) ∈ c ∧ P id b = true := by
  simp only [retire, List.mem_map, Prod.mk.injEq]
  constructor
  · intro hwhole
    obtain ⟨⟨_, b?⟩, hp, rfl, hb⟩ := hwhole
    cases b? with
    | none => exact Or.inl hp
    | some b => exact Or.inr ⟨b, hp, by simpa using hb⟩
  · intro hwhole
    obtain hp | ⟨b, hp, hP⟩ := hwhole
    · exact ⟨_, hp, rfl, rfl⟩
    · exact ⟨_, hp, rfl, by simp [hP]⟩

theorem mem_amend_some {i : ElementId s} {f : β → β} :
    (id, some b) ∈ c.amend i f ↔ ∃ b', (id, some b') ∈ c ∧ (if id = i then f b' else b') = b := by
  simp only [amend, List.mem_map, Prod.mk.injEq]
  constructor
  · intro hwhole
    obtain ⟨⟨_, b?⟩, hp, rfl, hb⟩ := hwhole
    obtain ⟨b', rfl, hb'⟩ := Option.map_eq_some_iff.mp hb
    exact ⟨b', hp, hb'⟩
  · intro hwhole
    obtain ⟨b', hp, rfl⟩ := hwhole
    exact ⟨_, hp, rfl, rfl⟩

theorem mem_amend_none {i : ElementId s} {f : β → β} :
    (id, none) ∈ c.amend i f ↔ (id, none) ∈ c := by
  simp only [amend, List.mem_map, Prod.mk.injEq]
  constructor
  · intro hwhole
    obtain ⟨⟨_, b?⟩, hp, rfl, hb⟩ := hwhole
    obtain rfl := Option.map_eq_none_iff.mp hb
    exact hp
  · intro hp
    exact ⟨_, hp, rfl, rfl⟩

theorem amend_same (c : Chronicle s β) (id : ElementId s) : c.amend id (fun b => b) = c := by
  simp [amend]

theorem freed_issue (c : Chronicle s β) (id : ElementId s) (b : β) (i : Nat) :
    (c.issue id b).freed i = c.freed i := by
  simp [freed, issue]

theorem freed_amend (c : Chronicle s β) (id : ElementId s) (f : β → β) (i : Nat) :
    (c.amend id f).freed i = c.freed i := by
  simp [freed, amend, List.countP_map, Function.comp_def]

/-- A slot is emptied once for each id that goes. -/
theorem freed_retire (c : Chronicle s β) (P : ElementId s → β → Bool) (i : Nat) :
    (c.retire P).freed i = c.freed i + c.countP fun p => p.1.index = i && p.2.any (P p.1) := by
  induction c with
  | nil => rfl
  | cons p c ih =>
    obtain ⟨id, b?⟩ := p
    simp only [freed, retire, List.map_cons, List.countP_cons] at ih ⊢
    rw [ih]
    cases b? with
    | none =>
      simp
      omega
    | some b =>
      rw [Option.filter_some]
      by_cases hi : id.index = i <;> cases hP : P id b <;> simp [hi, hP]
      omega

theorem retire_congr {Q : ElementId s → β → Bool} (h : ∀ id b, (id, some b) ∈ c → P id b = Q id b) :
    c.retire P = c.retire Q := by
  refine List.map_congr_left fun p hp => ?_
  obtain ⟨id, b?⟩ := p
  cases b? with
  | none => rfl
  | some b => simp [Option.filter_some, h id b hp]

theorem retire_retire (c : Chronicle s β) (P Q : ElementId s → β → Bool) :
    (c.retire P).retire Q = c.retire fun id b => P id b || Q id b := by
  rw [retire, retire, List.map_map]
  refine List.map_congr_left fun p _ => ?_
  obtain ⟨id, b?⟩ := p
  cases b? with
  | none => rfl
  | some b => cases hP : P id b <;> simp [Option.filter_some, hP]

theorem retire_nothing (c : Chronicle s β) : c.retire (fun _ _ => false) = c := by
  have hsame (p : ElementId s × Option β) : (p.1, p.2.filter fun _ => true) = p := by
    obtain ⟨id, b?⟩ := p
    cases b? <;> rfl
  simp [retire, hsame]

theorem freed_le_retire (c : Chronicle s β) (P : ElementId s → β → Bool) (i : Nat) :
    c.freed i ≤ (c.retire P).freed i := by
  rw [freed_retire]
  exact Nat.le_add_right _ _

theorem bounded_of_length (h : c.length < 2 ^ 32) : c.Bounded :=
  fun _ => Nat.lt_of_le_of_lt List.countP_le_length h

theorem Bounded.of_issue (h : (c.issue id b).Bounded) : c.Bounded := by
  intro i
  rw [← freed_issue c id b]
  exact h i

theorem Bounded.of_amend {f : β → β} (h : (c.amend id f).Bounded) : c.Bounded := by
  intro i
  rw [← freed_amend c id f]
  exact h i

theorem Bounded.of_retire (h : (c.retire P).Bounded) : c.Bounded :=
  fun i => Nat.lt_of_le_of_lt (c.freed_le_retire P i) (h i)

end Chronicle

namespace Arena

variable {s : Element} {α β : Type} {a a' : Arena s α} {f : α → β} {c : Chronicle s β}

/-- An arena is as its chronicle says, where `f` tells what matters of a value. The generation of a
slot is how often it was emptied, so an id that is gone is behind its slot. -/
structure Chronicled (a : Arena s α) (f : α → β) (c : Chronicle s β) : Prop where
  valid : a.Valid
  generation : ∀ {i : Nat} {slot : Slot α}, a.slots[i]? = some slot →
    slot.generation = UInt32.ofNat (c.freed i)
  inside : ∀ {p}, p ∈ c → p.1.index < a.slots.size
  live : ∀ {id b}, (id, some b) ∈ c ↔ (a.get? id).map f = some b
  gone : ∀ {id}, (id, none) ∈ c → ∃ k < c.freed id.index, id.generation = UInt32.ofNat k
  distinct : c.ids.Nodup

theorem chronicled_empty (f : α → β) : Chronicled ({} : Arena s α) f [] where
  valid := valid_empty
  generation h := by simp at h
  inside h := by cases h
  live := by simp [get?]
  gone h := by cases h
  distinct := List.nodup_nil

/-! Insertion -/

/-- An insertion fills an empty slot or adds one. -/
theorem nextId_cases (ha : a.Valid) :
    a.slots[a.nextId.index]? = some ⟨a.nextId.generation, none⟩ ∨
      a.nextId = ⟨a.slots.size, 0⟩ := by
  rw [nextId]
  cases hf : a.free with
  | nil => exact Or.inr rfl
  | cons i rest =>
    obtain ⟨n, hs⟩ := (ha.mem_free i).mp (by simp [hf])
    exact Or.inl (by simp [hs])

theorem getElem?_insertWith (ha : a.Valid) (build : ElementId s → α) (i : Nat) :
    (a.insertWith build).2.slots[i]? =
      if i = a.nextId.index then some ⟨a.nextId.generation, some (build a.nextId)⟩
      else a.slots[i]? := by
  rw [insertWith]
  cases hf : a.free with
  | nil =>
    have hid : a.nextId = ⟨a.slots.size, 0⟩ := by rw [nextId, hf]
    simp only [hid, Array.getElem?_push]
  | cons j rest =>
    obtain ⟨m, hs⟩ := (ha.mem_free j).mp (by simp [hf])
    have hlt := (Array.getElem?_eq_some_iff.mp hs).1
    have hid : a.nextId.index = j := by rw [nextId, hf]
    simp only [hid, Array.getElem?_setIfInBounds]
    by_cases hi : i = j
    · simp [hi, hlt]
    · simp [hi, Ne.symm hi]

namespace Chronicled

theorem nextId_generation (h : a.Chronicled f c) :
    a.nextId.generation = UInt32.ofNat (c.freed a.nextId.index) := by
  obtain hslot | hnew := nextId_cases h.valid
  · exact h.generation hslot
  · have hnone : c.freed a.slots.size = 0 := by
      refine List.countP_eq_zero.mpr fun p hp => ?_
      have hlt := h.inside hp
      simp [Nat.ne_of_lt hlt]
    rw [hnew, hnone]
    rfl

/-- As long as no generation has come round, no id is issued twice. -/
theorem nextId_fresh (h : a.Chronicled f c) (hb : c.Bounded) : a.nextId ∉ c.ids := by
  intro hmem
  obtain ⟨⟨_, b?⟩, hp, rfl⟩ := List.mem_map.mp hmem
  cases b? with
  | some b =>
    have hlive := h.live.mp hp
    rw [get?_nextId h.valid] at hlive
    cases hlive
  | none =>
    obtain ⟨k, hk, hgen⟩ := h.gone hp
    rw [h.nextId_generation] at hgen
    have hfreed := hb a.nextId.index
    have htoNat := congrArg UInt32.toNat hgen
    rw [UInt32.toNat_ofNat_of_lt' hfreed,
      UInt32.toNat_ofNat_of_lt' (Nat.lt_trans hk hfreed)] at htoNat
    omega

theorem insertWith (h : a.Chronicled f c) (hb : c.Bounded) (build : ElementId s → α) :
    (a.insertWith build).2.Chronicled f (c.issue a.nextId (f (build a.nextId))) := by
  have hfresh := h.nextId_fresh hb
  refine ⟨valid_insertWith h.valid build, fun {i slot} hs => ?_, fun {p} hp => ?_,
    fun {id b} => ?_, fun {id} hp => ?_, ?_⟩
  · rw [getElem?_insertWith h.valid] at hs
    rw [Chronicle.freed_issue]
    split at hs
    · rename_i hi
      cases hs
      rw [hi]
      exact h.nextId_generation
    · exact h.generation hs
  · have hslot := getElem?_insertWith h.valid build p.1.index
    by_cases hi : p.1.index = a.nextId.index
    · rw [if_pos hi] at hslot
      exact (Array.getElem?_eq_some_iff.mp hslot).1
    · rw [if_neg hi] at hslot
      obtain hp | hp := List.mem_append.mp hp
      · rw [Array.getElem?_eq_getElem (h.inside hp)] at hslot
        exact (Array.getElem?_eq_some_iff.mp hslot).1
      · rw [List.mem_singleton.mp hp] at hi
        exact (hi rfl).elim
  · rw [get?_insertWith h.valid, Chronicle.issue, List.mem_append, h.live]
    by_cases hid : id = a.nextId
    · simp [hid, get?_nextId h.valid, eq_comm]
    · simp [hid]
  · rw [Chronicle.freed_issue]
    obtain hp | hp := List.mem_append.mp hp
    · exact h.gone hp
    · simp at hp
  · rw [Chronicle.ids_issue]
    exact List.nodup_append.mpr ⟨h.distinct, List.nodup_singleton _, fun d hd d' hd' heq =>
      hfresh (List.mem_singleton.mp hd' ▸ heq ▸ hd)⟩

/-! Modification -/

theorem modify (h : a.Chronicled f c) (id : ElementId s) {k : α → α} {φ : β → β}
    (hf : ∀ x, f (k x) = φ (f x)) : (a.modify id k).Chronicled f (c.amend id φ) := by
  refine ⟨valid_modify h.valid id k, fun {i slot} hs => ?_, fun {p} hp => ?_,
    fun {d b} => ?_, fun {d} hp => ?_, ?_⟩
  · rw [Chronicle.freed_amend]
    simp only [Arena.modify, Array.getElem?_modify] at hs
    split at hs
    · obtain ⟨slot', hs', rfl⟩ := Option.map_eq_some_iff.mp hs
      rw [← h.generation hs']
      split <;> rfl
    · exact h.generation hs
  · obtain ⟨p', hp', rfl⟩ := List.mem_map.mp hp
    have hlt := h.inside hp'
    simpa [Arena.modify] using hlt
  · rw [Chronicle.mem_amend_some, get?_modify_eq_map, Option.map_map]
    simp only [h.live, Option.map_eq_some_iff, Function.comp_apply]
    by_cases hd : d = id
    · simp [hd, hf]
    · simp [hd]
  · rw [Chronicle.freed_amend]
    exact h.gone (Chronicle.mem_amend_none.mp hp)
  · rw [Chronicle.ids_amend]
    exact h.distinct

/-! Removal -/

variable {P : ElementId s → β → Bool}

/-- Whether the occupant of a slot is one that `P` holds of. -/
def Departs (P : ElementId s → β → Bool) (f : α → β) (i : Nat) (slot : Slot α) : Bool :=
  slot.occupant?.any fun x => P ⟨i, slot.generation⟩ (f x)

/-- At each index one id goes at most. -/
theorem countP_departing (h : a.Chronicled f c) {i : Nat} {slot : Slot α}
    (hs : a.slots[i]? = some slot) :
    (c.countP fun p => p.1.index = i && p.2.any (P p.1)) =
      if Departs P f i slot then 1 else 0 := by
  have hone {p : ElementId s × Option β} (hp : p ∈ c) (hi : p.1.index = i)
      (hP : p.2.any (P p.1) = true) :
      p.1 = ⟨i, slot.generation⟩ ∧ Departs P f i slot = true := by
    obtain ⟨⟨i', n⟩, b?⟩ := p
    obtain ⟨b, rfl, hPb⟩ := (Option.any_eq_true _ _).mp hP
    cases hi
    obtain ⟨x, hx, rfl⟩ := Option.map_eq_some_iff.mp (h.live.mp hp)
    have hslot := get?_eq_some.mp hx
    rw [hs] at hslot
    cases hslot
    exact ⟨rfl, hPb⟩
  cases hd : Departs P f i slot with
  | false =>
    refine List.countP_eq_zero.mpr fun p hp hP => ?_
    simp only [Bool.and_eq_true, decide_eq_true_eq] at hP
    have hdep := (hone hp hP.1 hP.2).2
    rw [hd] at hdep
    cases hdep
  | true =>
    obtain ⟨n, occupant?⟩ := slot
    cases occupant? with
    | none => cases hd
    | some x =>
      have hmem : ((⟨i, n⟩ : ElementId s), some (f x)) ∈ c :=
        h.live.mpr (by rw [get?_eq_some.mpr hs]; rfl)
      have hcount : (c.countP fun p => p.1.index = i && p.2.any (P p.1)) =
          c.ids.count ⟨i, n⟩ := by
        rw [Chronicle.ids, List.count, List.countP_map]
        refine List.countP_congr fun p hp => ?_
        simp only [Bool.and_eq_true, decide_eq_true_eq, Function.comp_apply, beq_iff_eq]
        constructor
        · intro hP
          exact (hone hp hP.1 hP.2).1
        · intro heq
          obtain ⟨id, b?⟩ := p
          cases heq
          have hb : b? = some (f x) :=
            congrArg Prod.snd (List.inj_on_of_nodup_map h.distinct hp hmem rfl)
          rw [hb]
          exact ⟨rfl, hd⟩
      rw [hcount, List.count_eq_one_of_mem h.distinct (List.mem_map_of_mem hmem)]
      rfl

/-- Emptying the slots of all that goes. -/
theorem vacate (h : a.Chronicled f c) (hv : a'.Valid)
    (hs : ∀ i, a'.slots[i]? = (a.slots[i]?).map fun slot =>
      if Departs P f i slot then slot.vacate else slot) :
    a'.Chronicled f (c.retire P) := by
  have hget (id : ElementId s) : a'.get? id = (a.get? id).filter fun x => !P id (f x) := by
    obtain ⟨i, n⟩ := id
    rw [get?, get?, hs]
    cases a.slots[i]? with
    | none => rfl
    | some slot =>
      obtain ⟨m, occupant?⟩ := slot
      by_cases hn : m = n
      · subst hn
        cases occupant? with
        | none => simp [Departs]
        | some x =>
          cases hP : P ⟨i, m⟩ (f x) <;> simp [Departs, hP, Slot.vacate, Option.filter_some]
      · cases occupant? with
        | none => simp [Departs, hn]
        | some x => cases hP : P ⟨i, m⟩ (f x) <;> simp [Departs, hP, hn, Slot.vacate]
  refine ⟨hv, fun {i slot'} hs' => ?_, fun {p} hp => ?_, fun {id b} => ?_, fun {id} hp => ?_, ?_⟩
  · rw [hs] at hs'
    obtain ⟨slot, hslot, rfl⟩ := Option.map_eq_some_iff.mp hs'
    rw [Chronicle.freed_retire, h.countP_departing hslot]
    split
    · rw [UInt32.ofNat_add, ← h.generation hslot]
      rfl
    · exact h.generation hslot
  · obtain ⟨p', hp', rfl⟩ := List.mem_map.mp hp
    have hslot := hs p'.1.index
    rw [Array.getElem?_eq_getElem (h.inside hp')] at hslot
    exact (Array.getElem?_eq_some_iff.mp hslot).1
  · rw [Chronicle.mem_retire_some, h.live, hget]
    simp only [Option.map_eq_some_iff, Option.filter_eq_some_iff]
    constructor
    · intro hwhole
      obtain ⟨⟨x, hx, rfl⟩, hP⟩ := hwhole
      exact ⟨x, ⟨hx, by simp [hP]⟩, rfl⟩
    · intro hwhole
      obtain ⟨x, ⟨hx, hP⟩, rfl⟩ := hwhole
      exact ⟨⟨x, hx, rfl⟩, by simpa using hP⟩
  · obtain hp | ⟨b, hp, hP⟩ := Chronicle.mem_retire_none.mp hp
    · obtain ⟨k, hk, hgen⟩ := h.gone hp
      exact ⟨k, Nat.lt_of_lt_of_le hk (c.freed_le_retire P _), hgen⟩
    · obtain ⟨x, hx, rfl⟩ := Option.map_eq_some_iff.mp (h.live.mp hp)
      have hslot := get?_eq_some.mp hx
      refine ⟨c.freed id.index, ?_, h.generation hslot⟩
      have hdeparts : Departs P f id.index ⟨id.generation, some x⟩ = true := hP
      rw [Chronicle.freed_retire, h.countP_departing hslot, if_pos hdeparts]
      exact Nat.lt_succ_self _
  · rw [Chronicle.ids_retire]
    exact h.distinct

theorem erase? (h : a.Chronicled f c) {id : ElementId s} {x : α}
    (he : a.erase? id = some (x, a')) : a'.Chronicled f (c.retire fun d _ => d = id) := by
  have hx := get?_eq_some.mp (erase?_eq_some he)
  refine h.vacate (valid_erase? h.valid he) fun i => ?_
  rw [getElem?_erase? he]
  by_cases hi : i = id.index
  · subst hi
    simp [hx, Departs, Slot.vacate]
  · have hne (n : UInt32) : ¬ (⟨i, n⟩ : ElementId s) = id := fun heq => hi (heq ▸ rfl)
    cases a.slots[i]? <;> simp [hi, Departs, hne]

theorem clear (h : a.Chronicled f c) : a.clear.Chronicled f (c.retire fun _ _ => true) := by
  refine h.vacate (valid_clear h.valid) fun i => ?_
  rw [Arena.clear, Array.getElem?_map]
  cases a.slots[i]? with
  | none => rfl
  | some slot =>
    obtain ⟨n, occupant?⟩ := slot
    cases occupant? <;> rfl

end Chronicled

end Arena

end Waymark
