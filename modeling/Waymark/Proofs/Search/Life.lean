import Waymark.Proofs.Overlay.Entry
import Waymark.Proofs.Search.Start

namespace Waymark

open Waymark.Graph (OnlyOn)

/-- All costs at `n` positions come from one pass, and that went over all of them. The round made
last comes first. -/
def OnePass (rounds : List Round) (n : Nat) : Prop :=
  ∃ r ∈ rounds, r.renewed = n ∧ ∀ i < n, rounds.find? (i < ·.renewed) = some r

theorem find?_renewed {rounds : List Round} {r : Round} {i j : Nat}
    (h : rounds.find? (i < ·.renewed) = some r) (hij : i ≤ j) (hj : j < r.renewed) :
    rounds.find? (j < ·.renewed) = some r := by
  obtain ⟨_, later, sooner, rfl, hsooner⟩ := List.find?_eq_some_iff_append.mp h
  refine List.find?_eq_some_iff_append.mpr ⟨by simpa using hj, later, sooner, rfl, ?_⟩
  intro r' hr'
  have hnot := hsooner r' hr'
  simp only [Bool.not_eq_true', decide_eq_false_iff_not] at hnot ⊢
  omega

/-- It takes no more than that the pass which renewed anything last went to the end. -/
theorem onePass_iff {rounds : List Round} {n : Nat} (hle : ∀ r ∈ rounds, r.renewed ≤ n)
    (hfull : ∃ r ∈ rounds, r.renewed = n) :
    OnePass rounds n ↔ ∀ r, rounds.find? (0 < ·.renewed) = some r → r.renewed = n := by
  constructor
  · intro hwhole r hr
    obtain ⟨r', hmem, hn, hall⟩ := hwhole
    have hpos : 0 < r.renewed := by simpa using List.find?_some hr
    have hrn := hle r (List.mem_of_find?_eq_some hr)
    have hsame := hall 0 (by omega)
    rw [hr] at hsame
    cases hsame
    exact hn
  · intro hlast
    obtain ⟨r, hmem, hn⟩ := hfull
    obtain rfl | hpos := Nat.eq_zero_or_pos n
    · exact ⟨r, hmem, hn, fun i hi => (Nat.not_lt_zero i hi).elim⟩
    · have hsome : (rounds.find? (0 < ·.renewed)).isSome :=
        List.find?_isSome.mpr ⟨r, hmem, by simpa [hn] using hpos⟩
      obtain ⟨r', hr'⟩ := Option.isSome_iff_exists.mp hsome
      have hn' := hlast r' hr'
      refine ⟨r', List.mem_of_find?_eq_some hr', hn', fun i hi => ?_⟩
      exact find?_renewed hr' (Nat.zero_le i) (by omega)

namespace Overlay

variable {V E κ : Type} [Cost κ] {g g' : Graph V E} {o o' : Overlay V E κ} {rounds : List Round}

/-- The rounds made by the time a search has been let through. -/
def roundsBegun (o : Overlay V E κ) (g : Graph V E) (rounds : List Round) : List Round :=
  if o.used then o.round g :: rounds else rounds

/-- What an overlay has lived through on a graph, with the passes made over its edges, the last one
first. -/
inductive Lived : Graph V E → Overlay V E κ → List Round → Prop
  | mounted {g g' : Graph V E} {es : List EdgeId} {evaluator : Evaluator V E κ}
    {o : Overlay V E κ} (hg : g.Mirrors es) (h : g.mount evaluator = (.ok o, g')) :
    Lived g' o [⟨0, o.edges.size⟩]
  /-- Others come and go on channels of their own. -/
  | beside {g g' : Graph V E} {o : Overlay V E κ} {rounds : List Round} {c : Channel}
    (h : Lived g o rounds) (ho : OnlyOn c g g') (hb : g'.bare = g.bare) (hc : o.channel ≠ c) :
    Lived g' o rounds
  | asked {g : Graph V E} {o : Overlay V E κ} {rounds : List Round} (h : Lived g o rounds)
    (edge : Edge E) : Lived g { o with appraiser := (o.appraiser.ask g edge).2 } rounds
  | reset {g : Graph V E} {o : Overlay V E κ} {rounds : List Round} (h : Lived g o rounds) :
    Lived g (leftBehind (o.reset g)) (o.round g :: rounds)
  | begun {g : Graph V E} {o : Overlay V E κ} {rounds : List Round} {a b : VertexId}
    {config : SearchConfig} {s : Search V E κ} (h : Lived g o rounds)
    (hs : Search.start o g a b config = .ok s) : Lived g s.overlay (o.roundsBegun g rounds)
  | refused {g : Graph V E} {o o' : Overlay V E κ} {rounds : List Round} {a b : VertexId}
    {config : SearchConfig} {failure : Failure κ} (h : Lived g o rounds)
    (hs : Search.start o g a b config = .error (failure, o')) :
    Lived g o' (if (Search.refusal? o g a b).isSome then rounds else o.round g :: rounds)
  /-- A search under way, to whatever end, writes into the marks. -/
  | searched {g : Graph V E} {o o' : Overlay V E κ} {rounds : List Round} (h : Lived g o rounds)
    (hu : o.used = true) (ht : Touched g o o') : Lived g o' rounds

/-- What can be said of an overlay in the middle of its life: each cost was taken by the last round
that came so far. -/
structure Aged (g : Graph V E) (o : Overlay V E κ) (rounds : List Round) : Prop where
  mirrors : ∃ es, g.Mirrors es
  sound : o.Sound g
  listed : o.Listed g
  bounded : ∀ r ∈ rounds, r.renewed ≤ o.edges.size
  complete : ∃ r ∈ rounds, r.renewed = o.edges.size
  origin : ∀ {i mark}, o.edges[i]? = some mark → ∃ r, rounds.find? (i < ·.renewed) = some r ∧
    o.appraiser.Answered g (r.first + i) mark.edge mark.cost

namespace Aged

omit [Cost κ] in
theorem size_edges (h : SameLayout o o') : o'.edges.size = o.edges.size := by
  simpa using congrArg Array.size h.edges

theorem mounted {es : List EdgeId} {evaluator : Evaluator V E κ} (hg : g.Mirrors es)
    (h : g.mount evaluator = (.ok o, g')) : o.Aged g' [⟨0, o.edges.size⟩] := by
  obtain ⟨honly, hok⟩ := Graph.mount_spec hg h
  obtain ⟨_, hlisted, _, hanswered⟩ := Graph.mount_entered hg h
  obtain ⟨_, hsound, _⟩ := hok o rfl
  refine ⟨⟨es, honly.mirrors hg⟩, hsound, hlisted, by simp, by simp, fun {i mark} hi => ?_⟩
  have hlt := (Array.getElem?_eq_some_iff.mp hi).1
  refine ⟨⟨0, o.edges.size⟩, by simp [hlt], ?_⟩
  rw [Nat.zero_add]
  exact hanswered hi

theorem beside {c : Channel} (h : o.Aged g rounds) (ho : OnlyOn c g g') (hb : g'.bare = g.bare)
    (hc : o.channel ≠ c) : o.Aged g' rounds := by
  obtain ⟨es, hm⟩ := h.mirrors
  refine ⟨⟨es, ho.mirrors hm⟩, h.sound.of_onlyOn ho hc, h.listed.of_bare hb, h.bounded,
    h.complete, fun hi => ?_⟩
  obtain ⟨r, hr, hanswered⟩ := h.origin hi
  exact ⟨r, hr, hanswered.of_bare hb⟩

/-- Neither another question to the evaluator nor a note of use makes a difference. -/
theorem continued {appraiser : Appraiser V E κ} {used : Bool} (h : o.Aged g rounds)
    (ha : o.appraiser.Continues appraiser) (hu : used = false → o.used = false) :
    Aged g { o with appraiser, used } rounds := by
  refine ⟨h.mirrors, ⟨?_, h.sound.priced, fun hused => ?_⟩, ⟨h.listed.vertices, h.listed.edges⟩,
    h.bounded, h.complete, fun hi => ?_⟩
  · have hlayout : SameLayout o { o with appraiser, used } := ⟨rfl, rfl, rfl⟩
    exact hlayout.fits h.sound.fits
  · have hblank := h.sound.tidy (hu hused)
    exact ⟨hblank.vertices, hblank.edges⟩
  · obtain ⟨r, hr, hanswered⟩ := h.origin hi
    exact ⟨r, hr, hanswered.of_continues ha⟩

/-- The costs that a reset renews are those of its round, and the others are as old as before. -/
theorem reset (h : o.Aged g rounds) : (leftBehind (o.reset g)).Aged g (o.round g :: rounds) := by
  obtain ⟨es, hm⟩ := h.mirrors
  obtain ⟨hrenewed, hle, _⟩ := renewed_reset hm h.listed
  have hsize := size_edges hrenewed.layout
  refine ⟨⟨es, hm⟩, h.sound.reset, h.listed.of_sameLayout hrenewed.layout, ?_, ?_,
    fun {i mark} hi => ?_⟩
  · intro r hr
    rw [hsize]
    obtain rfl | hr := List.mem_cons.mp hr
    · exact hle
    · exact h.bounded r hr
  · obtain ⟨r, hr, hn⟩ := h.complete
    exact ⟨r, List.mem_cons_of_mem _ hr, hn.trans hsize.symm⟩
  · by_cases hnew : i < (o.round g).renewed
    · exact ⟨o.round g, by simp [hnew], hrenewed.new hnew hi⟩
    · rw [hrenewed.old (Nat.le_of_not_lt hnew)] at hi
      obtain ⟨r, hr, hanswered⟩ := h.origin hi
      exact ⟨r, by simpa [hnew] using hr, hanswered.of_continues hrenewed.continues⟩

theorem touched (h : o.Aged g rounds) (hu : o.used = true) (ht : Touched g o o') :
    o'.Aged g rounds := by
  have hsize := size_edges ht.sameLayout
  refine ⟨h.mirrors, h.sound.touched hu ht, h.listed.of_sameLayout ht.sameLayout, ?_, ?_,
    fun hi => ?_⟩
  · rw [hsize]
    exact h.bounded
  · rw [hsize]
    exact h.complete
  · obtain ⟨mark', hi', he, hc⟩ := ht.charged hi
    obtain ⟨r, hr, hanswered⟩ := h.origin hi'
    rw [he, hc] at hanswered
    exact ⟨r, hr, by rw [ht.appraiser]; exact hanswered⟩

theorem beginRun (h : o.Aged g rounds) (hb : o.beginRun g = .ok o') :
    o'.Aged g (o.roundsBegun g rounds) := by
  rw [roundsBegun]
  obtain ⟨hu, rfl⟩ | ⟨hu, o₁, hr, rfl⟩ := beginRun_eq_ok hb
  · rw [hu]
    exact h.continued (.refl _) fun _ => hu
  · have hreset := h.reset
    rw [hr] at hreset
    rw [if_pos hu]
    exact hreset.continued (.refl _) fun hfalse => by cases hfalse

theorem begun {a b : VertexId} {config : SearchConfig} {s : Search V E κ} (h : o.Aged g rounds)
    (hs : Search.start o g a b config = .ok s) : s.overlay.Aged g (o.roundsBegun g rounds) := by
  obtain ⟨_, o₁, hb, rfl⟩ := Search.start_eq_ok.mp hs
  have hu : o₁.used = true := (h.sound.beginRun_eq_ok hb).2.2.2
  exact (h.beginRun hb).touched hu (Search.touched_fresh o₁ g a b config 0)

theorem refused {a b : VertexId} {config : SearchConfig} {failure : Failure κ}
    (h : o.Aged g rounds) (hs : Search.start o g a b config = .error (failure, o')) :
    o'.Aged g (if (Search.refusal? o g a b).isSome then rounds else o.round g :: rounds) := by
  cases hr : Search.refusal? o g a b with
  | some failure' =>
    rw [Search.start, hr] at hs
    cases hs
    exact h
  | none =>
    obtain ⟨hsome, _⟩ | hb := Search.start_eq_error hs
    · rw [hr] at hsome
      cases hsome
    · have hreset := h.reset
      rw [(beginRun_eq_error hb).2] at hreset
      exact hreset

end Aged

theorem Lived.aged (h : Lived g o rounds) : o.Aged g rounds := by
  induction h with
  | mounted hg h => exact .mounted hg h
  | beside _ ho hb hc ih => exact ih.beside ho hb hc
  | @asked g o _ _ edge ih => exact ih.continued (o.appraiser.continues_ask g edge) id
  | reset _ ih => exact ih.reset
  | begun _ hs ih => exact ih.begun hs
  | refused _ hs ih => exact ih.refused hs
  | searched _ hu ht ih => exact ih.touched hu ht

end Overlay

end Waymark
