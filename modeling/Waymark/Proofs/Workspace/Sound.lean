import Mathlib.Data.List.Pairwise
import Waymark.Proofs.Overlay.Mounted
import Waymark.Proofs.Search.Start
import Waymark.Proofs.Workspace.Turn

namespace Waymark

open Waymark.Graph (OnlyOn)

variable {V E κ : Type} [Cost κ]

/-- What holds of a tenant: a search under way has its overlay marked as used. -/
structure Tenant.Sound (t : Tenant V E κ) (g : Graph V E) : Prop where
  overlay : t.toOverlay.Sound g
  underWay : ∀ s, t = .search s → s.overlay.used = true

theorem Tenant.Sound.of_onlyOn {t : Tenant V E κ} {g g' : Graph V E} {c : Channel}
    (h : t.Sound g) (ho : OnlyOn c g g') (hc : t.toOverlay.channel ≠ c) : t.Sound g' :=
  ⟨h.overlay.of_onlyOn ho hc, h.underWay⟩

namespace Overlay

variable {o : Overlay V E κ} {g : Graph V E}

omit [Cost κ] in
theorem sameLayout_asked (o : Overlay V E κ) (g : Graph V E) (edge : Edge E) :
    SameLayout o (o.asked g edge) := ⟨rfl, rfl, rfl⟩

theorem Sound.asked (h : o.Sound g) (edge : Edge E) : (o.asked g edge).Sound g :=
  ⟨(o.sameLayout_asked g edge).fits h.fits, h.priced,
    fun hu => ⟨(h.tidy hu).vertices, (h.tidy hu).edges⟩⟩

end Overlay

theorem Finder.overlay_find (f : Finder V E κ) (g : Graph V E) (a b : VertexId) :
    (givenBack (f.find g a b)).overlay = givenBack (f.overlay.search g a b f.config) ∧
      failure? (f.find g a b) = failure? (f.overlay.search g a b f.config) := by
  rw [Finder.find]
  cases f.overlay.search g a b f.config <;> exact ⟨rfl, rfl⟩

namespace Tenant

variable {t t' : Tenant V E κ} {g : Graph V E} {failure? : Option (Failure κ)}

/-- A tenant without a search is sound if its overlay is. -/
theorem sound_of_idle (h : t.toOverlay.Sound g) (hidle : ∀ s, t ≠ .search s) : t.Sound g :=
  ⟨h, fun s hs => (hidle s hs).elim⟩

theorem sound_overlay {o : Overlay V E κ} (h : o.Sound g) : Sound (.overlay o) g :=
  sound_of_idle h fun s hs => by cases hs

theorem sound_finder {f : Finder V E κ} (h : f.overlay.Sound g) : Sound (.finder f) g :=
  sound_of_idle h fun s hs => by cases hs

/-- Whatever a tenant does, it stays sound and keeps its channel. -/
theorem Moves.sound (hm : t.Moves g failure? t') (h : t.Sound g) :
    t'.Sound g ∧ t'.toOverlay.channel = t.toOverlay.channel := by
  cases hm with
  | asked o he => exact ⟨sound_overlay (h.overlay.asked _), rfl⟩
  | finderAsked f he => exact ⟨sound_finder (h.overlay.asked _), rfl⟩
  | reset o => exact ⟨sound_overlay h.overlay.reset, o.channel_reset g⟩
  | searched o a b config =>
    obtain ⟨hsound, hchannel⟩ := h.overlay.search a b config
    exact ⟨sound_overlay hsound, hchannel⟩
  | found f a b =>
    obtain ⟨hsound, hchannel⟩ := h.overlay.search a b f.config
    have hback := (f.overlay_find g a b).1
    refine ⟨sound_finder ?_, ?_⟩
    · show (givenBack (f.find g a b)).overlay.Sound g
      rw [hback]
      exact hsound
    · show (givenBack (f.find g a b)).overlay.channel = _
      rw [hback]
      exact hchannel
  | begun hs =>
    obtain ⟨hsound, hu, hchannel⟩ := (Search.start_sound h.overlay _ _ _).1 _ hs
    refine ⟨⟨hsound, fun s' hs' => ?_⟩, hchannel⟩
    cases hs'
    exact hu
  | notBegun hs =>
    obtain ⟨hsound, hchannel⟩ := (Search.start_sound h.overlay _ _ _).2 _ _ hs
    exact ⟨sound_overlay hsound, hchannel⟩
  | stepped s =>
    have ht := (s.follows_step (g := g)).touched
    have hu := h.underWay s rfl
    refine ⟨⟨Overlay.Sound.touched h.overlay hu ht, fun s' hs' => ?_⟩, ht.sameLayout.channel⟩
    cases hs'
    exact ht.used.trans hu
  | ran s =>
    have ht := s.touched_run (g := g)
    have hsound := Overlay.Sound.touched h.overlay (h.underWay s rfl) ht
    exact ⟨sound_overlay hsound, ht.sameLayout.channel⟩
  | cancelled s => exact ⟨sound_overlay h.overlay, rfl⟩

end Tenant

namespace Workspace

omit [Cost κ] in
def Apart (p q : Nat × Tenant V E κ) : Prop :=
  p.2.toOverlay.channel ≠ q.2.toOverlay.channel

omit [Cost κ] in
instance : Std.Symm (Apart (V := V) (E := E) (κ := κ)) := ⟨fun _ _ h => h.symm⟩

/-- What holds of a workspace at all times. -/
structure Sound (w : Workspace V E κ) : Prop where
  mirrors : ∃ es, w.graph.Mirrors es
  tenants : ∀ p ∈ w.tenants, p.2.Sound w.graph
  held : ∀ p ∈ w.tenants, w.graph.channelInUse p.2.toOverlay.channel = true
  apart : w.tenants.Pairwise Apart

namespace Sound

variable {w : Workspace V E κ} {n : Nat} {t t' : Tenant V E κ}

omit [Cost κ] in
theorem mem_of_lookup (h : w.tenants.lookup n = some t) : (n, t) ∈ w.tenants := by
  obtain ⟨l, l', hl, _⟩ := List.lookup_eq_some_iff.mp h
  rw [hl]
  simp

theorem tenant (h : w.Sound) (ht : w.tenants.lookup n = some t) : t.Sound w.graph :=
  h.tenants _ (mem_of_lookup ht)

theorem apart_of_ne (h : w.Sound) (ht : w.tenants.lookup n = some t) {p : Nat × Tenant V E κ}
    (hp : p ∈ w.tenants) (hne : p.1 ≠ n) : t.toOverlay.channel ≠ p.2.toOverlay.channel := by
  refine h.apart.forall (mem_of_lookup ht) hp ?_
  intro heq
  exact hne (congrArg Prod.fst heq.symm)

/-- A tenant makes way for what has become of it. -/
theorem placed (h : w.Sound) (ht : w.tenants.lookup n = some t) (hs : t'.Sound w.graph)
    (hc : t'.toOverlay.channel = t.toOverlay.channel) : (w.placed n t').Sound := by
  refine ⟨h.mirrors, ?_, ?_, ?_⟩
  · intro p hp
    obtain rfl | hp := List.mem_cons.mp hp
    · exact hs
    · exact h.tenants p (List.mem_of_mem_filter hp)
  · intro p hp
    obtain rfl | hp := List.mem_cons.mp hp
    · show w.graph.channelInUse t'.toOverlay.channel = true
      rw [hc]
      exact h.held _ (mem_of_lookup ht)
    · exact h.held p (List.mem_of_mem_filter hp)
  · refine List.pairwise_cons.mpr ⟨fun p hp => ?_, h.apart.filter _⟩
    have hne := List.of_mem_filter hp
    simp only [ne_eq, decide_not, Bool.not_eq_true', decide_eq_false_iff_not] at hne
    show t'.toOverlay.channel ≠ p.2.toOverlay.channel
    rw [hc]
    exact h.apart_of_ne ht (List.mem_of_mem_filter hp) hne

/-- An overlay taken off the graph leaves the others as they were. -/
theorem unmount (h : w.Sound) (ht : w.tenants.lookup n = some t) :
    (w.vacated n t).Sound := by
  obtain ⟨es, hm⟩ := h.mirrors
  have honly := t.toOverlay.unmount_onlyOn w.graph
  have hne {p : Nat × Tenant V E κ} (hp : p ∈ w.tenants.filter (·.1 ≠ n)) :
      p.2.toOverlay.channel ≠ t.toOverlay.channel := by
    have hne := List.of_mem_filter hp
    simp only [ne_eq, decide_not, Bool.not_eq_true', decide_eq_false_iff_not] at hne
    exact (h.apart_of_ne ht (List.mem_of_mem_filter hp) hne).symm
  refine ⟨⟨es, honly.mirrors hm⟩, ?_, ?_, h.apart.filter _⟩
  · intro p hp
    exact (h.tenants p (List.mem_of_mem_filter hp)).of_onlyOn honly (hne hp)
  · intro p hp
    exact (honly.channels (hne hp)).trans (h.held p (List.mem_of_mem_filter hp))

/-- Something done to the graph on a channel that nobody uses concerns nobody. -/
theorem onUnused (h : w.Sound) {g' : Graph V E} {c : Channel} (honly : OnlyOn c w.graph g')
    (hc : w.graph.channelInUse c = false) : Sound { w with graph := g' } ∧
      ∀ p ∈ w.tenants, p.2.toOverlay.channel ≠ c := by
  obtain ⟨es, hm⟩ := h.mirrors
  have hne : ∀ p ∈ w.tenants, p.2.toOverlay.channel ≠ c := by
    intro p hp heq
    have hheld := h.held p hp
    rw [heq, hc] at hheld
    cases hheld
  refine ⟨⟨⟨es, honly.mirrors hm⟩, ?_, ?_, h.apart⟩, hne⟩
  · intro p hp
    exact (h.tenants p hp).of_onlyOn honly (hne p hp)
  · intro p hp
    exact (honly.channels (hne p hp)).trans (h.held p hp)

/-- A new tenant comes with a channel of its own. -/
theorem added (h : w.Sound) (hs : t.Sound w.graph)
    (hheld : w.graph.channelInUse t.toOverlay.channel = true)
    (hne : ∀ p ∈ w.tenants, p.2.toOverlay.channel ≠ t.toOverlay.channel) :
    (w.placed n t).Sound := by
  refine ⟨h.mirrors, ?_, ?_, ?_⟩
  · intro p hp
    obtain rfl | hp := List.mem_cons.mp hp
    · exact hs
    · exact h.tenants p (List.mem_of_mem_filter hp)
  · intro p hp
    obtain rfl | hp := List.mem_cons.mp hp
    · exact hheld
    · exact h.held p (List.mem_of_mem_filter hp)
  · refine List.pairwise_cons.mpr ⟨fun p hp => ?_, h.apart.filter _⟩
    exact (hne p (List.mem_of_mem_filter hp)).symm

end Sound

theorem sound_empty : Sound ({} : Workspace V E κ) where
  mirrors := ⟨[], Graph.Mirrors.empty⟩
  tenants p hp := by cases hp
  held p hp := by cases hp
  apart := List.Pairwise.nil

/-- No request does a workspace harm. -/
theorem Turn.sound {w w' : Workspace V E κ} {trouble? : Option (Trouble κ)}
    (ht : w.Turn trouble? w') (h : w.Sound) : w'.Sound := by
  cases ht with
  | refused refusal => exact h
  | missing m => exact h
  | answered => exact h
  | unanswered hn hfailure => exact h
  | edited hw hg vertices edges =>
    obtain ⟨es, hm⟩ := h.mirrors
    refine ⟨hg.mirrors hm, ?_, ?_, ?_⟩ <;> simp [hw]
  | @mounted n evaluator o g' t hn hmount ht hidle =>
    obtain ⟨es, hm⟩ := h.mirrors
    obtain ⟨honly, hok⟩ := Graph.mount_spec hm hmount
    obtain ⟨hchannel, hsound, hheld⟩ := hok o rfl
    obtain ⟨hw, hne⟩ := h.onUnused honly w.graph.acquireChannel_free.1
    rw [← hchannel] at hheld hne
    rw [← ht] at hsound hheld hne
    exact hw.added (Tenant.sound_of_idle hsound hidle) hheld hne
  | notMounted hmount =>
    obtain ⟨es, hm⟩ := h.mirrors
    exact (h.onUnused (Graph.mount_spec hm hmount).1 w.graph.acquireChannel_free.1).1
  | unmounted hn => exact h.unmount hn
  | moved hn hmoves =>
    obtain ⟨hsound, hchannel⟩ := hmoves.sound (h.tenant hn)
    exact h.placed hn hsound hchannel

end Workspace

end Waymark
