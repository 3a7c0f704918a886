import Mathlib.Data.List.Induction
import Mathlib.Data.List.Pairwise
import Mathlib.Data.List.ReduceOption
import Waymark.Proofs.Cost.Binary64
import Waymark.Proofs.Search.Discipline

namespace Waymark.Frontier

inductive Use (κ : Type)
  | push (edge : EdgeId) (key : κ)
  | pop

/-- An edge as it was pushed, with the number of pushes before. -/
structure Entry (κ : Type) extends Queued κ where
  seq : Nat

variable {κ : Type}

def Use.queued? : Use κ → Option (Queued κ)
  | push edge key => some ⟨edge, key⟩
  | pop => none

/-- All that was pushed, in order. -/
def pushed (us : List (Use κ)) : List (Queued κ) := us.filterMap Use.queued?

def entries (us : List (Use κ)) : List (Entry κ) := (pushed us).zipIdx.map fun p => ⟨p.1, p.2⟩

theorem entries_push (us : List (Use κ)) (edge : EdgeId) (key : κ) :
    entries (us ++ [.push edge key]) = entries us ++ [⟨⟨edge, key⟩, (pushed us).length⟩] := by
  rw [entries, pushed, List.filterMap_append, List.zipIdx_append, List.map_append, Nat.zero_add]
  rfl

theorem entries_pop (us : List (Use κ)) : entries (us ++ [.pop]) = entries us := by
  have hsame : pushed (us ++ [.pop]) = pushed us :=
    List.filterMap_append.trans (List.append_nil _)
  rw [entries, hsame, entries]

theorem mem_entries {us : List (Use κ)} {r : Entry κ} :
    r ∈ entries us ↔ (pushed us)[r.seq]? = some r.toQueued := by
  rw [entries, List.mem_map]
  constructor
  · rintro ⟨p, hp, rfl⟩
    exact List.mem_zipIdx_iff_getElem?.mp hp
  · intro hr
    exact ⟨(r.toQueued, r.seq), List.mem_zipIdx_iff_getElem?.mpr hr, rfl⟩

theorem seq_lt_of_mem_entries {us : List (Use κ)} {r : Entry κ} (hr : r ∈ entries us) :
    r.seq < (pushed us).length :=
  (List.getElem?_eq_some_iff.mp (mem_entries.mp hr)).1

theorem queued_of_mem_entries {us : List (Use κ)} {r : Entry κ} (hr : r ∈ entries us) :
    r.toQueued ∈ pushed us :=
  List.mem_of_getElem? (mem_entries.mp hr)

variable [Cost κ]

def compareKeys (a b : κ) : Ordering := if a ≤ b then if b ≤ a then .eq else .lt else .gt

namespace Entry

/-- The order of the heap, whose greatest entry leaves first: keys and numbers both compare the other
way round. -/
protected def compare (r r' : Entry κ) : Ordering :=
  (compareKeys r'.key r.key).then (compare r'.seq r.seq)

theorem compare_ne_gt {r r' : Entry κ} :
    r'.compare r ≠ .gt ↔ r.key ≤ r'.key ∧ (r'.key ≤ r.key → r.seq ≤ r'.seq) := by
  rw [Entry.compare, compareKeys]
  by_cases hle : r.key ≤ r'.key
  · by_cases hge : r'.key ≤ r.key
    · simp [hle, hge, Nat.compare_ne_gt]
    · simp [hle, hge]
  · simp [hle]

theorem seq_of_compare {r r' : Entry κ} (h : r.compare r' = .eq) : r.seq = r'.seq := by
  rw [Entry.compare, Ordering.then_eq_eq] at h
  exact (Nat.compare_eq_eq.mp h.2).symm

theorem compare_trans [LawfulCost κ] {r r' r'' : Entry κ} (h : r.compare r' ≠ .gt)
    (h' : r'.compare r'' ≠ .gt) : r.compare r'' ≠ .gt := by
  rw [compare_ne_gt] at h h' ⊢
  refine ⟨LawfulCost.le_trans h'.1 h.1, fun hle => ?_⟩
  exact Nat.le_trans (h'.2 (LawfulCost.le_trans h.1 hle)) (h.2 (LawfulCost.le_trans hle h'.1))

theorem compare_swap [LawfulCost κ] {r r' : Entry κ} (h : 0 ≤ r.key) (h' : 0 ≤ r'.key) :
    r'.compare r = (r.compare r').swap := by
  have hkeys : compareKeys r.key r'.key = (compareKeys r'.key r.key).swap := by
    rw [compareKeys, compareKeys]
    by_cases hle : r.key ≤ r'.key
    · by_cases hge : r'.key ≤ r.key <;> simp [hle, hge]
    · simp [hle, LawfulCost.le_of_not_le h h' hle]
  rw [Entry.compare, Entry.compare, Ordering.swap_then, hkeys, Nat.compare_swap]

end Entry

/-- Among these entries the order of the heap is a linear one. -/
structure Ranked (rs : List (Entry κ)) : Prop where
  swap : ∀ r ∈ rs, ∀ r' ∈ rs, r'.compare r = (r.compare r').swap
  trans : ∀ r ∈ rs, ∀ r' ∈ rs, ∀ r'' ∈ rs,
    r.compare r' ≠ .gt → r'.compare r'' ≠ .gt → r.compare r'' ≠ .gt
  eq_of_compare : ∀ r ∈ rs, ∀ r' ∈ rs, r.compare r' = .eq → r = r'

/-- A heap is given no key below zero, a queue any keys. -/
def Keyed (kind : FrontierKind) (us : List (Use κ)) : Prop :=
  kind = .costOrdered → ∀ q ∈ pushed us, 0 ≤ q.key

theorem Keyed.past {kind : FrontierKind} {us : List (Use κ)} {u : Use κ}
    (h : Keyed kind (us ++ [u])) : Keyed kind us := by
  intro hk q hq
  refine h hk q ?_
  rw [pushed, List.filterMap_append]
  exact List.mem_append_left _ hq

theorem Keyed.ranked [LawfulCost κ] {us : List (Use κ)} (h : Keyed .costOrdered us) :
    Ranked (entries us) where
  swap _ hr _ hr' :=
    Entry.compare_swap (h rfl _ (queued_of_mem_entries hr)) (h rfl _ (queued_of_mem_entries hr'))
  trans _ _ _ _ _ _ := Entry.compare_trans
  eq_of_compare r hr r' hr' heq := by
    have hseq := Entry.seq_of_compare heq
    have hq := (mem_entries.mp hr).symm.trans (hseq ▸ mem_entries.mp hr')
    cases r
    cases r'
    cases hseq
    cases hq
    rfl

/-- Which of two entries is to leave first. -/
def Before : FrontierKind → Entry κ → Entry κ → Prop
  | .fifo, r, r' => r.seq < r'.seq
  | .costOrdered, r, r' => r.key ≤ r'.key ∧ (r'.key ≤ r.key → r.seq < r'.seq)

/-- A queue gives its front away, a heap any entry than which none is greater. -/
def Takes : FrontierKind → List (Entry κ) → Entry κ → List (Entry κ) → Prop
  | .fifo, ws, r, rest => ws = r :: rest
  | .costOrdered, ws, r, rest => ws.Perm (r :: rest) ∧ ∀ r' ∈ ws, r'.compare r ≠ .gt

/-- What waits after some uses of a queue or a heap, and what the pops gave. -/
inductive Course (kind : FrontierKind) :
    List (Use κ) → List (Entry κ) → List (Option (Entry κ)) → Prop
  | start : Course kind [] [] []
  | push {us ws as} (edge : EdgeId) (key : κ) (past : Course kind us ws as) :
      Course kind (us ++ [.push edge key]) (ws ++ [⟨⟨edge, key⟩, (pushed us).length⟩]) as
  | dry {us as} (past : Course kind us [] as) : Course kind (us ++ [.pop]) [] (as ++ [none])
  | pop {us ws rest as r} (past : Course kind us ws as) (takes : Takes kind ws r rest) :
      Course kind (us ++ [.pop]) rest (as ++ [some r])

/-- The same of a frontier, with what the pops gave so far. -/
def Use.on (p : Frontier κ × List (Option (Queued κ))) :
    Use κ → Frontier κ × List (Option (Queued κ))
  | push edge key => (p.1.push edge key, p.2)
  | pop => ((p.1.pop?.map Prod.snd).getD p.1, p.2 ++ [p.1.pop?.map Prod.fst])

def after (kind : FrontierKind) (us : List (Use κ)) : Frontier κ × List (Option (Queued κ)) :=
  us.foldl Use.on ({ kind := kind }, [])

variable {kind : FrontierKind} {us : List (Use κ)} {ws rest line : List (Entry κ)}
  {as : List (Option (Entry κ))} {r : Entry κ} {f : Frontier κ}

theorem after_append_singleton (kind : FrontierKind) (us : List (Use κ)) (u : Use κ) :
    after kind (us ++ [u]) = u.on (after kind us) := by
  rw [after, List.foldl_append]
  rfl

theorem Takes.perm (h : Takes kind ws r rest) : ws.Perm (r :: rest) := by
  cases kind with
  | fifo => exact h ▸ List.Perm.refl _
  | costOrdered => exact h.1

/-- Every entry either has left or still waits. -/
theorem Course.perm (h : Course kind us ws as) : (entries us).Perm (as.reduceOption ++ ws) := by
  induction h with
  | start => exact List.Perm.nil
  | push edge key past ih =>
    rw [entries_push, ← List.append_assoc]
    exact ih.append_right _
  | dry past ih =>
    rw [entries_pop, List.reduceOption_append]
    simpa using ih
  | pop past takes ih =>
    rw [entries_pop, List.reduceOption_append, List.append_assoc]
    exact ih.trans (takes.perm.append_left _)

theorem Course.mem_entries (h : Course kind us ws as) (hr : r ∈ ws) : r ∈ entries us :=
  h.perm.mem_iff.mpr (List.mem_append_right _ hr)

/-- A newcomer goes behind all whose keys are not greater. -/
theorem exists_insertByKey [LawfulCost κ] (hline : line.Pairwise (Before .costOrdered))
    (hseq : ∀ r' ∈ line, r'.seq < r.seq) (hkey : 0 ≤ r.key) (hkeys : ∀ r' ∈ line, 0 ≤ r'.key) :
    ∃ line' : List (Entry κ), line'.map Entry.toQueued =
        Frontier.insertByKey r.toQueued (line.map Entry.toQueued) ∧
      line'.Perm (r :: line) ∧ line'.Pairwise (Before .costOrdered) := by
  induction line with
  | nil => exact ⟨[r], rfl, List.Perm.refl _, List.pairwise_singleton _ r⟩
  | cons x line ih =>
    obtain ⟨hx, hrest⟩ := List.pairwise_cons.mp hline
    rw [List.map_cons, Frontier.insertByKey]
    by_cases hle : x.key ≤ r.key
    · rw [if_pos hle]
      obtain ⟨line', hline', hperm, hpair⟩ := ih hrest (fun y hy => hseq y (.tail x hy))
        (fun y hy => hkeys y (.tail x hy))
      refine ⟨x :: line', by rw [← hline', List.map_cons],
        (hperm.cons x).trans (List.Perm.swap r x line), List.pairwise_cons.mpr ⟨fun y hy => ?_,
        hpair⟩⟩
      obtain rfl | hy := List.mem_cons.mp (hperm.mem_iff.mp hy)
      · exact ⟨hle, fun _ => hseq x (.head line)⟩
      · exact hx y hy
    · rw [if_neg hle]
      have hrx : r.key ≤ x.key := LawfulCost.le_of_not_le (hkeys x (.head line)) hkey hle
      refine ⟨r :: x :: line, rfl, List.Perm.refl _, List.pairwise_cons.mpr ⟨fun y hy => ?_,
        hline⟩⟩
      obtain rfl | hy := List.mem_cons.mp hy
      · exact ⟨hrx, fun hxr => (hle hxr).elim⟩
      · have hxy := (hx y hy).1
        exact ⟨LawfulCost.le_trans hrx hxy, fun hyr => (hle (LawfulCost.le_trans hxy hyr)).elim⟩

/-- The queue of a frontier is all that waits, brought into line. -/
structure InLine (kind : FrontierKind) (f : Frontier κ) (ws line : List (Entry κ)) : Prop where
  kind_eq : f.kind = kind
  queue : f.queue = line.map Entry.toQueued
  perm : ws.Perm line
  plain : kind = .fifo → line = ws
  ordered : line.Pairwise (Before kind)

theorem inLine_start (kind : FrontierKind) : InLine (κ := κ) kind { kind := kind } [] [] where
  kind_eq := rfl
  queue := rfl
  perm := List.Perm.nil
  plain _ := rfl
  ordered := List.Pairwise.nil

namespace InLine

theorem push [LawfulCost κ] (h : InLine kind f ws line) (edge : EdgeId) {key : κ} {n : Nat}
    (hseq : ∀ r ∈ ws, r.seq < n)
    (hkeys : kind = .costOrdered → 0 ≤ key ∧ ∀ r ∈ ws, 0 ≤ r.key) :
    ∃ line', InLine kind (f.push edge key) (ws ++ [⟨⟨edge, key⟩, n⟩]) line' := by
  have hseq' (r : Entry κ) (hr : r ∈ line) : r.seq < n := hseq r (h.perm.mem_iff.mpr hr)
  rw [Frontier.push, h.kind_eq]
  cases kind with
  | fifo =>
    refine ⟨line ++ [⟨⟨edge, key⟩, n⟩], rfl, ?_, h.perm.append_right _,
      fun _ => by rw [h.plain rfl], List.pairwise_append.mpr
        ⟨h.ordered, List.pairwise_singleton _ _, fun x hx y hy => ?_⟩⟩
    · rw [h.queue, List.map_append]
      rfl
    · rw [List.mem_singleton.mp hy]
      exact hseq' x hx
  | costOrdered =>
    obtain ⟨hkey, hkeys⟩ := hkeys rfl
    obtain ⟨line', hline', hperm, hpair⟩ := exists_insertByKey (r := ⟨⟨edge, key⟩, n⟩) h.ordered
      hseq' hkey fun r hr => hkeys r (h.perm.mem_iff.mpr hr)
    refine ⟨line', rfl, ?_, ?_, fun hk => FrontierKind.noConfusion hk, hpair⟩
    · rw [hline', h.queue]
    · exact (List.perm_append_singleton _ ws).trans ((h.perm.cons _).trans hperm.symm)

theorem first (h : InLine kind f ws (r :: line)) {r' : Entry κ} (hr' : r' ∈ ws) (hne : r' ≠ r) :
    Before kind r r' := by
  obtain heq | hmem := List.mem_cons.mp (h.perm.mem_iff.mp hr')
  · exact (hne heq).elim
  · exact (List.pairwise_cons.mp h.ordered).1 r' hmem

/-- What a queue or a heap gives away is what the frontier has in front. -/
theorem eq_cons (h : InLine kind f ws line) (ht : Takes kind ws r rest) :
    ∃ line', line = r :: line' := by
  cases kind with
  | fifo => exact ⟨rest, (h.plain rfl).trans ht⟩
  | costOrdered =>
    have hr : r ∈ ws := ht.1.mem_iff.mpr (List.mem_cons_self)
    cases line with
    | nil => cases h.perm.mem_iff.mp hr
    | cons x line =>
      by_cases heq : r = x
      · exact ⟨line, by rw [heq]⟩
      · -- `x` is before `r` in line, and yet not greater than it.
        have hfirst := h.first hr heq
        have hx := Entry.compare_ne_gt.mp (ht.2 x (h.perm.mem_iff.mpr List.mem_cons_self))
        exact (Nat.lt_irrefl _ (Nat.lt_of_lt_of_le (hfirst.2 hx.1) (hx.2 hfirst.1))).elim

theorem pop (h : InLine kind f ws (r :: line)) (ht : Takes kind ws r rest) :
    InLine kind { f with queue := line.map Entry.toQueued } rest line where
  kind_eq := h.kind_eq
  queue := rfl
  perm := (ht.perm.symm.trans h.perm).cons_inv
  plain hk := by
    subst hk
    exact (List.cons.inj ((h.plain rfl).trans ht)).2
  ordered := (List.pairwise_cons.mp h.ordered).2

/-- As long as something waits, something can be given away. -/
theorem exists_takes [LawfulCost κ] (h : InLine kind f ws (r :: line))
    (hkeys : kind = .costOrdered → ∀ r' ∈ ws, 0 ≤ r'.key) : ∃ rest, Takes kind ws r rest := by
  refine ⟨line, ?_⟩
  cases kind with
  | fifo => exact (h.plain rfl).symm
  | costOrdered =>
    refine ⟨h.perm, fun r' hr' => Entry.compare_ne_gt.mpr ?_⟩
    by_cases heq : r' = r
    · rw [heq] at hr' ⊢
      exact ⟨LawfulCost.le_refl (hkeys rfl r hr'), fun _ => Nat.le_refl _⟩
    · have hfirst := h.first hr' heq
      exact ⟨hfirst.1, fun hle => Nat.le_of_lt (hfirst.2 hle)⟩

end InLine

/-- A course takes a frontier to what waits, and the pops give what they gave of the frontier. -/
theorem Course.inLine [LawfulCost κ] (h : Course kind us ws as) (hkeys : Keyed kind us) :
    (∃ line, InLine kind (after kind us).1 ws line) ∧
      (after kind us).2 = as.map (Option.map Entry.toQueued) := by
  induction h with
  | start => exact ⟨⟨[], inLine_start kind⟩, rfl⟩
  | push edge key past ih =>
    obtain ⟨⟨line, hline⟩, has⟩ := ih hkeys.past
    rw [after_append_singleton]
    refine ⟨hline.push edge (fun r hr => seq_lt_of_mem_entries (past.mem_entries hr))
      fun hk => ⟨hkeys hk ⟨edge, key⟩ ?_, fun r hr => ?_⟩, has⟩
    · rw [pushed, List.filterMap_append]
      exact List.mem_append_right _ List.mem_cons_self
    · exact hkeys.past hk r.toQueued (queued_of_mem_entries (past.mem_entries hr))
  | @dry us as past ih =>
    obtain ⟨⟨line, hline⟩, has⟩ := ih hkeys.past
    obtain rfl := hline.perm.nil_eq
    have hpop : (after kind us).1.pop? = none := by rw [pop?, hline.queue]; rfl
    rw [after_append_singleton, Use.on, hpop, has, List.map_append]
    exact ⟨⟨[], hline⟩, rfl⟩
  | pop past takes ih =>
    obtain ⟨⟨line, hline⟩, has⟩ := ih hkeys.past
    obtain ⟨line, rfl⟩ := hline.eq_cons takes
    rw [after_append_singleton, Use.on, pop?, hline.queue, has, List.map_append]
    exact ⟨⟨line, hline.pop takes⟩, rfl⟩

theorem exists_course [LawfulCost κ] (kind : FrontierKind) (us : List (Use κ))
    (hkeys : Keyed kind us) : ∃ ws as, Course kind us ws as := by
  induction us using List.reverseRecOn with
  | nil => exact ⟨[], [], .start⟩
  | append_singleton us u ih =>
    obtain ⟨ws, as, past⟩ := ih hkeys.past
    cases u with
    | push edge key => exact ⟨_, _, past.push edge key⟩
    | pop =>
      obtain ⟨⟨line, hline⟩, _⟩ := past.inLine hkeys.past
      cases line with
      | nil =>
        obtain rfl := hline.perm.eq_nil
        exact ⟨_, _, past.dry⟩
      | cons r line =>
        obtain ⟨rest, takes⟩ := hline.exists_takes fun hk r' hr' =>
          hkeys.past hk r'.toQueued (queued_of_mem_entries (past.mem_entries hr'))
        exact ⟨_, _, past.pop takes⟩

/-- However pushes and pops take turns, a frontier does what a queue or a heap of numbered entries
does, and the order of the heap is a linear one. Every pushed edge has been popped or still waits, and
so many wait as the frontier says. A pop gives the edge with the least key that waits, and of several
the one pushed first; for a queue the one pushed first, whatever the keys. -/
theorem stable [LawfulCost κ] (kind : FrontierKind) (us : List (Use κ)) (hkeys : Keyed kind us) :
    (∃ ws as, Course kind us ws as) ∧
      (kind = .costOrdered → Ranked (entries us)) ∧
      ∀ ws as, Course kind us ws as →
        (after kind us).2 = as.map (Option.map Entry.toQueued) ∧
        (after kind us).1.queue.Perm (ws.map Entry.toQueued) ∧
        (entries us).Perm (as.reduceOption ++ ws) ∧
        (after kind us).1.size = ws.length ∧
        ((after kind us).1.pop? = none ↔ ws = []) ∧
        ∀ q f, (after kind us).1.pop? = some (q, f) →
          ∃ r ∈ ws, r.toQueued = q ∧ ∀ r' ∈ ws, r' ≠ r → Before kind r r' := by
  refine ⟨exists_course kind us hkeys, fun hk => ?_, fun ws as hcourse => ?_⟩
  · subst hk
    exact hkeys.ranked
  · obtain ⟨⟨line, hline⟩, has⟩ := hcourse.inLine hkeys
    have hperm : (after kind us).1.queue.Perm (ws.map Entry.toQueued) := by
      rw [hline.queue]
      exact hline.perm.symm.map _
    refine ⟨has, hperm, hcourse.perm, hperm.length_eq.trans (List.length_map _), ?_, fun q f hq => ?_⟩
    · rw [pop?, hline.queue]
      cases line with
      | nil => exact ⟨fun _ => hline.perm.eq_nil, fun _ => rfl⟩
      | cons r line =>
        refine ⟨fun hnone => ?_, fun hnil => ?_⟩
        · cases hnone
        · cases (hnil ▸ hline.perm).nil_eq
    · rw [pop?, hline.queue] at hq
      cases line with
      | nil => cases hq
      | cons r line =>
        cases hq
        exact ⟨r, hline.perm.mem_iff.mpr List.mem_cons_self, rfl, fun r' => hline.first⟩

/-- Three edges with equal keys, one of them pushed after another was popped. -/
def interleaved : List (Use Float) :=
  [.push ⟨0, 0⟩ 3, .push ⟨1, 0⟩ 1, .push ⟨2, 0⟩ 1, .pop, .push ⟨3, 0⟩ 1, .pop, .pop, .pop, .pop]

theorem stable_interleaved : Keyed .costOrdered interleaved ∧
    ∃ ws as, Course .costOrdered interleaved ws as ∧
      as.map (Option.map (·.edge.index)) = [some 1, some 2, some 3, some 0, none] := by
  have hkeys : Keyed .costOrdered interleaved := fun _ => by decide +kernel
  obtain ⟨⟨ws, as, hcourse⟩, _, hall⟩ := stable .costOrdered interleaved hkeys
  have has := (hall ws as hcourse).1
  refine ⟨hkeys, ws, as, hcourse, ?_⟩
  have hindex : as.map (Option.map (·.edge.index)) =
      (as.map (Option.map Entry.toQueued)).map (Option.map (·.edge.index)) := by
    simp [Function.comp_def]
  rw [hindex, ← has]
  decide +kernel

end Waymark.Frontier
