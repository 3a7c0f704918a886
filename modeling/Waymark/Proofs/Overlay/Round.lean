import Waymark.Proofs.Graph.Bare
import Waymark.Proofs.Overlay.Renewal

namespace Waymark

/-- `g'` and `edge` are `g` and its edge `e` but for what is registered. -/
structure Graph.Shows {V E : Type} (g : Graph V E) (e : EdgeId) (g' : Graph V E) (edge : Edge E) :
    Prop where
  graph : g'.bare = g.bare
  edge : g.bare.edges.get? e = some edge.bare

namespace Graph

variable {V E : Type} {g g' g'' : Graph V E} {e : EdgeId} {edge : Edge E}

theorem shows_of_get? (h : g'.bare = g.bare) (he : g'.edges.get? e = some edge) :
    g.Shows e g' edge := by
  refine ⟨h, ?_⟩
  rw [← h]
  simp [bare, he]

theorem Shows.of_bare (hs : g.Shows e g' edge) (h : g''.bare = g.bare) : g''.Shows e g' edge :=
  ⟨hs.graph.trans h.symm, by rw [h]; exact hs.edge⟩

end Graph

namespace Appraiser

variable {V E κ : Type} {a a' a'' : Appraiser V E κ} {g g' : Graph V E} {e : EdgeId} {k : Nat}
  {cost : κ}

/-- The same evaluator, asked the same questions and perhaps more. -/
structure Continues (a a' : Appraiser V E κ) : Prop where
  evaluator : a'.evaluator = a.evaluator
  asked : ∀ {k : Nat} {e : EdgeId}, a.asked[k]? = some e → a'.asked[k]? = some e

theorem Continues.refl (a : Appraiser V E κ) : Continues a a := ⟨rfl, id⟩

theorem Continues.trans (h : Continues a a') (h' : Continues a' a'') : Continues a a'' :=
  ⟨h'.evaluator.trans h.evaluator, fun hk => h'.asked (h.asked hk)⟩

theorem continues_ask (a : Appraiser V E κ) (g : Graph V E) (edge : Edge E) :
    Continues a (a.ask g edge).2 := by
  refine ⟨rfl, fun {k e} hk => ?_⟩
  have hlt := (Array.getElem?_eq_some_iff.mp hk).1
  rw [ask]
  dsimp only
  rw [Array.getElem?_push, if_neg (Nat.ne_of_lt hlt)]
  exact hk

variable [Cost κ]

/-- Question number `k` was about the edge `e`, and the answer was admitted as its cost. -/
structure Answered (a : Appraiser V E κ) (g : Graph V E) (k : Nat) (e : EdgeId) (cost : κ) :
    Prop where
  asked : a.asked[k]? = some e
  answer : ∃ g' edge, g.Shows e g' edge ∧ a.evaluator.answer k g' edge = .ok cost
  admissible : Cost.admissible cost = true

theorem Answered.of_continues (h : a.Answered g k e cost) (hc : Continues a a') :
    a'.Answered g k e cost :=
  ⟨hc.asked h.asked, by rw [hc.evaluator]; exact h.answer, h.admissible⟩

theorem Answered.of_bare (h : a.Answered g k e cost) (hb : g'.bare = g.bare) :
    a.Answered g' k e cost := by
  obtain ⟨g'', edge, hs, hanswer⟩ := h.answer
  exact ⟨h.asked, ⟨g'', edge, hs.of_bare hb, hanswer⟩, h.admissible⟩

theorem snd_price (a : Appraiser V E κ) (g : Graph V E) (edge : Edge E) :
    (a.price g edge).2 = (a.ask g edge).2 := by
  rw [price]
  split <;> rename_i h <;> rw [h]

theorem answer_of_price {edge : Edge E} (h : a.price g edge = (.ok cost, a')) :
    a.evaluator.answer a.asked.size g edge = .ok cost := by
  have hask : (a.ask g edge).1 = a.evaluator.answer a.asked.size g edge := rfl
  rw [price] at h
  split at h
  · rename_i c a₁ hc
    split at h
    · cases h
      rw [← hask, hc]
    · cases h
  · cases h

/-- An admitted cost is the answer to the question asked next. -/
theorem answered_of_price {edge : Edge E} (hs : g.Shows e g' edge) (he : edge.id = e)
    (h : a.price g' edge = (.ok cost, a')) : a'.Answered g a.asked.size e cost := by
  have ha : a' = (a.ask g' edge).2 := by rw [← snd_price, h]
  refine ⟨by simp [ha, ask, he], ⟨g', edge, hs, ?_⟩, admissible_of_price h⟩
  have hevaluator : a'.evaluator = a.evaluator := by rw [ha]; rfl
  rw [hevaluator]
  exact answer_of_price h

end Appraiser

/-- One pass of an evaluator over the edges of an overlay: the number of its first question, and at
how many positions it has left a new cost. -/
structure Round where
  first : Nat
  renewed : Nat
  deriving DecidableEq

namespace Overlay

variable {V E κ : Type} {o o' : Overlay V E κ} {g g' : Graph V E}

/-- Marks stand in slot order, one for each live element. -/
structure Listed (o : Overlay V E κ) (g : Graph V E) : Prop where
  vertices : o.vertices.toList.map VertexMark.vertex = g.vertices.ids
  edges : o.edges.toList.map EdgeMark.edge = g.edges.ids

namespace Listed

theorem of_sameLayout (h : o.Listed g) (hl : SameLayout o o') : o'.Listed g where
  vertices := by rw [← Array.toList_map, hl.vertices, Array.toList_map, h.vertices]
  edges := by rw [← Array.toList_map, hl.edges, Array.toList_map, h.edges]

theorem of_bare (h : o.Listed g) (hb : g'.bare = g.bare) : o.Listed g' where
  vertices := h.vertices.trans (Graph.vertex_ids_of_bare hb).symm
  edges := h.edges.trans (Graph.edge_ids_of_bare hb).symm

theorem size_edges (h : o.Listed g) : o.edges.size = g.edges.ids.length := by
  rw [← h.edges, List.length_map, Array.length_toList]

theorem edge_live (h : o.Listed g) {mark : EdgeMark κ} (hm : mark ∈ o.edges) :
    ∃ edge, g.edges.get? mark.edge = some edge := by
  refine Arena.contains_iff.mp (Arena.mem_ids.mp ?_)
  rw [← h.edges]
  exact List.mem_map_of_mem (Array.mem_toList_iff.mpr hm)

end Listed

variable [Cost κ] {es : List EdgeId} {first k : Nat}

/-- How many costs in a row can be taken anew at the positions named. -/
def renewals (o : Overlay V E κ) (g : Graph V E) : List Nat → Nat
  | [] => 0
  | i :: is =>
    match o.reprice g i with
    | .ok o => o.renewals g is + 1
    | .error _ => 0

/-- The pass that a reset makes. -/
def round (o : Overlay V E κ) (g : Graph V E) : Round where
  first := o.appraiser.asked.size
  renewed := o.clearHops.renewals g (List.range o.edges.size)

/-- An overlay with costs taken anew at the first `k` positions, beginning with question number
`first`, and nothing else done to its edges. -/
structure Renewed (g : Graph V E) (o : Overlay V E κ) (first k : Nat) (o' : Overlay V E κ) :
    Prop where
  layout : SameLayout o o'
  continues : o.appraiser.Continues o'.appraiser
  new : ∀ {i mark}, i < k → o'.edges[i]? = some mark →
    o'.appraiser.Answered g (first + i) mark.edge mark.cost
  old : ∀ {i}, k ≤ i → o'.edges[i]? = o.edges[i]?

/-- Taking a cost anew asks one question, whether it can be answered or not. -/
theorem reprice_of_live {i : Nat} {mark : EdgeMark κ} {edge : Edge E}
    (hi : o.edges[i]? = some mark) (he : g.edges.get? mark.edge = some edge) :
    (∃ cost, o.appraiser.price g edge = (.ok cost, (o.appraiser.ask g edge).2) ∧
      o.reprice g i = .ok { o with
        appraiser := (o.appraiser.ask g edge).2
        edges := o.edges.setIfInBounds i { edge := mark.edge, cost } }) ∨
    ∃ failure, o.appraiser.price g edge = (.error failure, (o.appraiser.ask g edge).2) ∧
      o.reprice g i = .error (failure, { o with appraiser := (o.appraiser.ask g edge).2 }) := by
  have ha := o.appraiser.snd_price g edge
  simp only [reprice, hi, he]
  cases hp : o.appraiser.price g edge with
  | mk priced appraiser =>
    rw [hp] at ha
    cases ha
    cases priced with
    | ok cost => exact Or.inl ⟨cost, rfl, rfl⟩
    | error failure => exact Or.inr ⟨failure, rfl, rfl⟩

/-! No pass changes whom it asks. -/

theorem evaluator_reprice (o : Overlay V E κ) (g : Graph V E) (i : Nat) :
    (leftBehind (o.reprice g i)).appraiser.evaluator = o.appraiser.evaluator := by
  rw [reprice]
  split
  · rfl
  · split
    · rfl
    · rename_i edge _
      have ha := congrArg Appraiser.evaluator (o.appraiser.snd_price g edge)
      dsimp only
      split <;> exact ha

theorem evaluator_reset (o : Overlay V E κ) (g : Graph V E) :
    (leftBehind (o.reset g)).appraiser.evaluator = o.appraiser.evaluator := by
  have hleft := leftBehind_foldlM (f := fun (o : Overlay V E κ) i => o.reprice g i)
    (P := fun s => s.appraiser.evaluator = o.appraiser.evaluator)
    (fun s i hs => (s.evaluator_reprice g i).trans hs) (List.range o.edges.size) (s := o.clearHops)
    rfl
  rw [reset]
  cases hr : (List.range o.edges.size).foldlM (fun o i => o.reprice g i) o.clearHops <;>
    rw [hr] at hleft <;> exact hleft

theorem evaluator_beginRun (o : Overlay V E κ) (g : Graph V E) :
    (leftBehind (o.beginRun g)).appraiser.evaluator = o.appraiser.evaluator := by
  have hreset := o.evaluator_reset g
  cases hb : o.beginRun g with
  | ok o' =>
    obtain ⟨_, rfl⟩ | ⟨_, o₁, hr, rfl⟩ := beginRun_eq_ok hb
    · rfl
    · rw [hr] at hreset
      exact hreset
  | error e =>
    rw [(beginRun_eq_error hb).2] at hreset
    exact hreset

namespace Renewed

variable {s s' : Overlay V E κ}

theorem start (o : Overlay V E κ) (g : Graph V E) (first : Nat) : Renewed g o first 0 o.clearHops
    where
  layout := o.sameLayout_clearHops
  continues := .refl _
  new hi := (Nat.not_lt_zero _ hi).elim
  old _ := rfl

/-- What a pass does at one position: the cost there is new, or the pass is over. -/
theorem reprice (h : Renewed g o first k s) (hsize : s.appraiser.asked.size = first + k)
    (hm : g.Mirrors es) (hl : o.Listed g) (hk : k < o.edges.size) :
    (∃ s', s.reprice g k = .ok s' ∧ Renewed g o first (k + 1) s' ∧
      s'.appraiser.asked.size = first + (k + 1)) ∨
    ∃ failure s', s.reprice g k = .error (failure, s') ∧ Renewed g o first k s' := by
  have hmark : s.edges[k]? = some o.edges[k] := by
    rw [h.old (Nat.le_refl k), Array.getElem?_eq_getElem hk]
  obtain ⟨edge, he⟩ := hl.edge_live (Array.getElem_mem hk)
  have hlt := (Array.getElem?_eq_some_iff.mp hmark).1
  have hcontinues := h.continues.trans (s.appraiser.continues_ask g edge)
  have hasked := s.appraiser.continues_ask g edge
  obtain ⟨cost, hp, hr⟩ | ⟨failure, _, hr⟩ := reprice_of_live hmark he
  · refine Or.inl ⟨_, hr, ⟨h.layout.trans ⟨rfl, rfl, map_setIfInBounds hmark rfl⟩, hcontinues,
      fun {i mark} hi hget => ?_, fun {i} hi => ?_⟩, ?_⟩
    · have hshows := Graph.shows_of_get? (g := g) rfl he
      have hanswered := Appraiser.answered_of_price hshows (hm.edge_id he) hp
      rw [hsize] at hanswered
      rw [Array.getElem?_setIfInBounds] at hget
      split at hget
      · rename_i hik
        cases hget
        rw [← hik]
        exact hanswered
      · exact (h.new (by omega) hget).of_continues hasked
    · rw [Array.getElem?_setIfInBounds, if_neg (by omega)]
      exact h.old (by omega)
    · show (s.appraiser.asked.push edge.id).size = _
      rw [Array.size_push, hsize]
      omega
  · have hlayout := h.layout
    exact Or.inr ⟨failure, _, hr, ⟨⟨hlayout.channel, hlayout.vertices, hlayout.edges⟩, hcontinues,
      fun hi hget => (h.new hi hget).of_continues hasked, h.old⟩⟩

/-- A pass renews one position after another, until it fails or is through. -/
theorem pass (h : Renewed g o first k s) (hsize : s.appraiser.asked.size = first + k)
    (hm : g.Mirrors es) (hl : o.Listed g) {n : Nat} (hn : k + n = o.edges.size) :
    let left := (List.range' k n).foldlM (fun o i => o.reprice g i) s
    Renewed g o first (k + s.renewals g (List.range' k n)) (leftBehind left) ∧
      s.renewals g (List.range' k n) ≤ n ∧
      ((∃ s', left = .ok s') → s.renewals g (List.range' k n) = n) := by
  induction n generalizing k s with
  | zero => exact ⟨h, Nat.le_refl 0, fun _ => rfl⟩
  | succ n ih =>
    rw [List.range'_succ, List.foldlM_cons]
    obtain ⟨s', hr, h', hsize'⟩ | ⟨failure, s', hr, h'⟩ :=
      h.reprice hsize hm hl (show k < o.edges.size by omega)
    · obtain ⟨hrest, hle, hok⟩ := ih h' hsize' (by omega)
      have hcount : s.renewals g (k :: List.range' (k + 1) n) =
          s'.renewals g (List.range' (k + 1) n) + 1 := by
        rw [renewals, hr]
      rw [hcount, hr]
      refine ⟨?_, Nat.succ_le_succ hle, fun hall => congrArg Nat.succ (hok hall)⟩
      rw [Nat.add_assoc, Nat.add_comm 1] at hrest
      exact hrest
    · have hcount : s.renewals g (k :: List.range' (k + 1) n) = 0 := by rw [renewals, hr]
      rw [hcount, hr]
      refine ⟨h', Nat.zero_le _, fun hall => ?_⟩
      obtain ⟨s'', hs''⟩ := hall
      cases hs''

end Renewed

/-- A reset renews the costs at the first positions, all of them unless it fails, and leaves the
others as they were. -/
theorem renewed_reset (hm : g.Mirrors es) (hl : o.Listed g) :
    Renewed g o (o.round g).first (o.round g).renewed (leftBehind (o.reset g)) ∧
      (o.round g).renewed ≤ o.edges.size ∧
      ∀ o', o.reset g = .ok o' → (o.round g).renewed = o.edges.size := by
  have hpass := (Renewed.start o g o.appraiser.asked.size).pass (n := o.edges.size) rfl hm hl
    (Nat.zero_add _)
  rw [← List.range_eq_range', Nat.zero_add] at hpass
  obtain ⟨hleft, hle, hok⟩ := hpass
  rw [reset]
  cases hr : (List.range o.edges.size).foldlM (fun o i => o.reprice g i) o.clearHops with
  | error e =>
    rw [hr] at hleft
    exact ⟨hleft, hle, fun o' h => by cases h⟩
  | ok o₁ =>
    rw [hr] at hleft
    have hlayout := hleft.layout
    exact ⟨⟨⟨hlayout.channel, hlayout.vertices, hlayout.edges⟩, hleft.continues, hleft.new,
      hleft.old⟩, hle, fun _ _ => hok ⟨o₁, hr⟩⟩

end Overlay

end Waymark
