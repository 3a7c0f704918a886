import Waymark.Proofs.Search.Course

namespace Waymark

namespace Overlay

variable {V E κ : Type} [Cost κ] {o o' : Overlay V E κ} {g : Graph V E}

/-- What is written into the marks during a search leaves the overlay sound. -/
theorem Sound.touched (h : o.Sound g) (hu : o.used = true) (ht : Touched g o o') : o'.Sound g := by
  refine ⟨ht.fits h.fits, ht.priced h.priced, fun hfalse => ?_⟩
  rw [ht.used, hu] at hfalse
  cases hfalse

end Overlay

namespace Search

open Overlay (Touched)

variable {V E κ : Type} {o : Overlay V E κ} {g : Graph V E} {a b : VertexId}
  {config : SearchConfig}

/-- A search before its source is expanded. -/
def fresh (o : Overlay V E κ) (g : Graph V E) (source destination : VertexId)
    (config : SearchConfig) : Search V E κ where
  overlay := o.setHop g source none
  frontier := { kind := config.frontier }
  maxExpansions? := config.maxExpansions?
  source
  destination

theorem vertexMark_ok_iff (hf : o.Fits g) {v : VertexId} :
    (∃ mark, o.vertexMark g v = .ok mark) ↔ g.vertices.contains v = true := by
  constructor
  · intro hwhole
    obtain ⟨mark, hm⟩ := hwhole
    obtain ⟨i, hm⟩ := Overlay.vertexMark_eq_ok.mp hm
    obtain ⟨⟨x, hx, _⟩, _⟩ := Overlay.findVertex_eq_ok.mp hm
    exact Arena.contains_iff.mpr ⟨x, hx⟩
  · intro hv
    obtain ⟨mark, hm, _⟩ := hf.vertexMark hv
    exact ⟨mark, hm⟩

theorem isEmpty_vertices (hf : o.Fits g) {v : VertexId} (hv : g.vertices.contains v = true) :
    o.vertices.isEmpty = false := by
  obtain ⟨i, mark, hm⟩ := hf.vertex hv
  have hlt := (Array.getElem?_eq_some_iff.mp (Overlay.findVertex_eq_ok.mp hm).2.1).1
  rw [Array.isEmpty_eq_false_iff]
  intro hempty
  simp [hempty] at hlt

theorem refusal?_self (hf : o.Fits g) (ha : g.vertices.contains a = true) :
    refusal? o g a a = some (.sameEndpoints a) := by
  obtain ⟨mark, hm⟩ := (vertexMark_ok_iff hf).mpr ha
  simp [refusal?, isEmpty_vertices hf ha, hm]

/-- A search between any two live vertices is let through. -/
theorem refusal?_eq_none (hf : o.Fits g) : refusal? o g a b = none ↔
    g.vertices.contains a = true ∧ g.vertices.contains b = true ∧ a ≠ b := by
  rw [← vertexMark_ok_iff hf, ← vertexMark_ok_iff hf]
  rw [refusal?]
  constructor
  · intro h
    split at h
    · cases h
    · split at h
      · cases h
      · cases h
      · rename_i hb
        split at h
        · cases h
        · exact ⟨⟨_, ‹_›⟩, ⟨_, hb⟩, ‹_›⟩
  · intro hwhole
    obtain ⟨⟨ma, ha⟩, ⟨mb, hb⟩, hne⟩ := hwhole
    have hsome := isEmpty_vertices hf ((vertexMark_ok_iff hf).mp ⟨ma, ha⟩)
    simp [hsome, ha, hb, hne]

variable [Cost κ]

theorem start_eq_ok {s : Search V E κ} : start o g a b config = .ok s ↔
    refusal? o g a b = none ∧ ∃ o₁, o.beginRun g = .ok o₁ ∧
      s = (fresh o₁ g a b config).expand g a := by
  rw [start]
  cases refusal? o g a b with
  | some failure => simp
  | none =>
    cases o.beginRun g with
    | error e => simp [bind, Except.bind]
    | ok o₁ => simp [bind, Except.bind, pure, Except.pure, fresh, eq_comm]

theorem start_eq_error {failure : Failure κ} {o' : Overlay V E κ}
    (h : start o g a b config = .error (failure, o')) :
    (refusal? o g a b = some failure ∧ o' = o) ∨ o.beginRun g = .error (failure, o') := by
  rw [start] at h
  cases hr : refusal? o g a b with
  | some failure =>
    rw [hr] at h
    cases h
    exact Or.inl ⟨rfl, rfl⟩
  | none =>
    rw [hr] at h
    cases hb : o.beginRun g with
    | error e =>
      simp only [hb, bind, Except.bind] at h
      cases h
      exact Or.inr rfl
    | ok o₁ =>
      simp only [hb, bind, Except.bind, pure, Except.pure] at h
      cases h

theorem touched_fresh (o : Overlay V E κ) (g : Graph V E) (a b : VertexId)
    (config : SearchConfig) (n : Nat) :
    Touched g o (((fresh o g a b config).expand g a).after g n).overlay := by
  have hexpand := (fresh o g a b config).works_expand (g := g) a
  have hafter := ((fresh o g a b config).expand g a).follows_after (g := g) n
  exact (Touched.refl.setHop a none).trans (hexpand.toFollows.trans hafter).touched

/-- What an attempt to begin a search leaves behind. -/
theorem start_sound (h : o.Sound g) (a b : VertexId) (config : SearchConfig) :
    (∀ s, start o g a b config = .ok s → s.overlay.Sound g ∧ s.overlay.used = true ∧
      s.overlay.channel = o.channel) ∧
    ∀ failure o', start o g a b config = .error (failure, o') →
      o'.Sound g ∧ o'.channel = o.channel := by
  constructor
  · intro s hs
    obtain ⟨_, o₁, hb, rfl⟩ := start_eq_ok.mp hs
    obtain ⟨hl, hp, hblank, hu⟩ := h.beginRun_eq_ok hb
    have ht := touched_fresh o₁ g a b config 0
    have h₁ : o₁.Sound g := ⟨hl.fits h.fits, hp, fun _ => hblank⟩
    exact ⟨h₁.touched hu ht, ht.used.trans hu, ht.sameLayout.channel.trans hl.channel⟩
  · intro failure o' he
    obtain ⟨_, rfl⟩ | hb := start_eq_error he
    · exact ⟨h, rfl⟩
    · have hs := h.beginRun
      have hc := o.channel_beginRun g
      rw [hb] at hs hc
      exact ⟨hs, hc⟩

end Search

namespace Overlay

variable {V E κ : Type} [Cost κ] {o : Overlay V E κ} {g : Graph V E}

/-- The same of a whole search, however it ends. -/
theorem Sound.search (h : o.Sound g) (a b : VertexId) (config : SearchConfig) :
    (givenBack (o.search g a b config)).Sound g ∧
      (givenBack (o.search g a b config)).channel = o.channel := by
  have hstart := Search.start_sound h a b config
  rw [Overlay.search]
  cases hs : Search.start o g a b config with
  | error e => exact hstart.2 _ _ hs
  | ok s =>
    obtain ⟨hsound, hu, hc⟩ := hstart.1 s hs
    have ht := s.touched_run (g := g)
    exact ⟨hsound.touched hu ht, ht.sameLayout.channel.trans hc⟩

end Overlay

end Waymark
