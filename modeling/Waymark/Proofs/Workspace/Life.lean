import Waymark.Proofs.Search.Life
import Waymark.Proofs.Workspace.Issue

namespace Waymark

open Waymark.Graph (OnlyOn)
open Waymark.Overlay (Lived)

variable {V E κ : Type} [Cost κ] {g : Graph V E}

/-- A whole search is a beginning and what a search does, or a refusal. -/
theorem Overlay.Lived.search {o : Overlay V E κ} {rounds : List Round} (h : Lived g o rounds)
    (a b : VertexId) (config : SearchConfig) :
    ∃ rounds', Lived g (givenBack (o.search g a b config)) rounds' := by
  rw [Overlay.search]
  cases hs : Search.start o g a b config with
  | error e => exact ⟨_, h.refused hs⟩
  | ok s =>
    have hu := ((Search.start_sound h.aged.sound a b config).1 s hs).2.1
    exact ⟨_, (h.begun hs).searched hu s.touched_run⟩

/-- Whatever a tenant does is part of its overlay's life. -/
theorem Tenant.Moves.lived {t t' : Tenant V E κ} {failure? : Option (Failure κ)}
    (hm : t.Moves g failure? t') (ht : t.Sound g) {rounds : List Round}
    (h : Lived g t.toOverlay rounds) : ∃ rounds', Lived g t'.toOverlay rounds' := by
  cases hm with
  | asked o he => exact ⟨_, h.asked _⟩
  | finderAsked f he => exact ⟨_, h.asked _⟩
  | reset o => exact ⟨_, h.reset⟩
  | searched o a b config => exact h.search a b config
  | found f a b =>
    obtain ⟨rounds', hlived⟩ := h.search a b f.config
    refine ⟨rounds', ?_⟩
    show Lived g (givenBack (f.find g a b)).overlay rounds'
    rw [(f.overlay_find g a b).1]
    exact hlived
  | begun hs => exact ⟨_, h.begun hs⟩
  | notBegun hs => exact ⟨_, h.refused hs⟩
  | stepped s => exact ⟨_, h.searched (ht.underWay s rfl) (s.follows_step (g := g)).touched⟩
  | ran s => exact ⟨_, h.searched (ht.underWay s rfl) s.touched_run⟩
  | cancelled s => exact ⟨_, h⟩

/-! An overlay keeps its evaluator for good. -/

theorem Search.evaluator_start {o : Overlay V E κ} {a b : VertexId} {config : SearchConfig} :
    (∀ s, Search.start o g a b config = .ok s →
      s.overlay.appraiser.evaluator = o.appraiser.evaluator) ∧
    ∀ failure o', Search.start o g a b config = .error (failure, o') →
      o'.appraiser.evaluator = o.appraiser.evaluator := by
  have hbegin := o.evaluator_beginRun g
  constructor
  · intro s hs
    obtain ⟨_, o₁, hb, rfl⟩ := Search.start_eq_ok.mp hs
    rw [hb] at hbegin
    have ht := Search.touched_fresh o₁ g a b config 0
    exact (congrArg Appraiser.evaluator ht.appraiser).trans hbegin
  · intro failure o' hs
    obtain ⟨_, rfl⟩ | hb := Search.start_eq_error hs
    · rfl
    · rw [hb] at hbegin
      exact hbegin

theorem Overlay.evaluator_search (o : Overlay V E κ) (g : Graph V E) (a b : VertexId)
    (config : SearchConfig) :
    (givenBack (o.search g a b config)).appraiser.evaluator = o.appraiser.evaluator := by
  rw [Overlay.search]
  cases hs : Search.start o g a b config with
  | error e => exact Search.evaluator_start.2 _ _ hs
  | ok s =>
    have ha := congrArg Appraiser.evaluator (s.touched_run (g := g)).appraiser
    exact ha.trans (Search.evaluator_start.1 s hs)

theorem Tenant.Moves.evaluator {t t' : Tenant V E κ} {failure? : Option (Failure κ)}
    (hm : t.Moves g failure? t') :
    t'.toOverlay.appraiser.evaluator = t.toOverlay.appraiser.evaluator := by
  cases hm with
  | asked o he => rfl
  | finderAsked f he => rfl
  | reset o => exact o.evaluator_reset g
  | searched o a b config => exact o.evaluator_search g a b config
  | found f a b =>
    show (givenBack (f.find g a b)).overlay.appraiser.evaluator = _
    rw [(f.overlay_find g a b).1]
    exact f.overlay.evaluator_search g a b f.config
  | begun hs => exact Search.evaluator_start.1 _ hs
  | notBegun hs => exact Search.evaluator_start.2 _ _ hs
  | stepped s => exact congrArg Appraiser.evaluator (s.follows_step (g := g)).touched.appraiser
  | ran s => exact congrArg Appraiser.evaluator (s.touched_run (g := g)).appraiser
  | cancelled s => rfl

namespace Workspace

variable {w w' : Workspace V E κ} {trouble? : Option (Trouble κ)}

/-- Every overlay on the graph is in the middle of a life. -/
def Alive (w : Workspace V E κ) : Prop :=
  ∀ p ∈ w.tenants, ∃ rounds, Lived w.graph p.2.toOverlay rounds

/-- What is done on one channel leaves all overlays on other channels their lives. -/
theorem Alive.beside (h : w.Alive) {g' : Graph V E} {c : Channel} (ho : OnlyOn c w.graph g')
    (hd : w.graph.Redecorated g') {p : Nat × Tenant V E κ} (hp : p ∈ w.tenants)
    (hc : p.2.toOverlay.channel ≠ c) : ∃ rounds, Lived g' p.2.toOverlay rounds := by
  obtain ⟨rounds, hlived⟩ := h p hp
  exact ⟨rounds, hlived.beside ho hd.bare_eq hc⟩

theorem Turn.alive (ht : w.Turn trouble? w') (hs : w.Sound) (h : w.Alive) : w'.Alive := by
  obtain ⟨es, hm⟩ := hs.mirrors
  cases ht with
  | refused refusal => exact h
  | missing m => exact h
  | answered => exact h
  | unanswered hn hfailure => exact h
  | edited hw hg vertices edges =>
    intro p hp
    rw [hw] at hp
    cases hp
  | @mounted n evaluator o g' t hn hmount ht hidle =>
    have honly := (Graph.mount_spec hm hmount).1
    have hne := (hs.onUnused honly w.graph.acquireChannel_free.1).2
    intro p hp
    obtain rfl | hp := List.mem_cons.mp hp
    · have hlived := Lived.mounted hm hmount
      rw [← ht] at hlived
      exact ⟨_, hlived⟩
    · have hp := List.mem_of_mem_filter hp
      exact h.beside honly (Graph.redecorated_mount hmount) hp (hne p hp)
  | notMounted hmount =>
    have honly := (Graph.mount_spec hm hmount).1
    have hne := (hs.onUnused honly w.graph.acquireChannel_free.1).2
    exact fun p hp => h.beside honly (Graph.redecorated_mount hmount) hp (hne p hp)
  | @unmounted n t hn =>
    intro p hp
    have hother := List.of_mem_filter hp
    simp only [ne_eq, decide_not, Bool.not_eq_true', decide_eq_false_iff_not] at hother
    have hp := List.mem_of_mem_filter hp
    exact h.beside (t.toOverlay.unmount_onlyOn w.graph) (t.toOverlay.redecorated_unmount .refl) hp
      (hs.apart_of_ne hn hp hother).symm
  | @moved n t t' failure? hn hmoves =>
    intro p hp
    obtain rfl | hp := List.mem_cons.mp hp
    · obtain ⟨rounds, hlived⟩ := h _ (Sound.mem_of_lookup hn)
      exact hmoves.lived (hs.tenant hn) hlived
    · exact h p (List.mem_of_mem_filter hp)

theorem Reachable.alive (h : w.Reachable) : w.Alive := by
  have hboth : w.Sound ∧ w.Alive := by
    refine h.invariant (P := fun w => w.Sound ∧ w.Alive) ⟨sound_empty, ?_⟩ ?_
    · intro p hp
      cases hp
    · intro w w' trouble? ht hw
      exact ⟨ht.sound hw.1, ht.alive hw.1 hw.2⟩
  exact hboth.2

end Workspace

/-- No overlay comes to be on a graph but by a life of this kind. -/
theorem Graph.Hosts.lived {o : Overlay V E κ} (h : g.Hosts o) : ∃ rounds, Lived g o rounds := by
  obtain ⟨w, hw, rfl, p, hp, rfl⟩ := h
  exact hw.alive p hp

end Waymark
