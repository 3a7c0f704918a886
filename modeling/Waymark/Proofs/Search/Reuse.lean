import Waymark.Proofs.Overlay.Quote
import Waymark.Proofs.Search.Alike
import Waymark.Proofs.Search.Life

namespace Waymark

variable {V E κ : Type} [Cost κ] {g g' : Graph V E} {o o' : Overlay V E κ} {a b : VertexId}
  {config : SearchConfig}

namespace Overlay

theorem search_of_refusal {failure : Failure κ} (h : Search.refusal? o g a b = some failure) :
    o.search g a b config = .error (failure, o) := by
  rw [Overlay.search, Search.start, h]
  rfl

theorem search_of_beginRun (h : Search.refusal? o g a b = none) (hb : o.beginRun g = .ok o') :
    o.search g a b config = ((Search.fresh o' g a b config).expand g a).run g := by
  rw [Overlay.search, Search.start_eq_ok.mpr ⟨h, o', hb, rfl⟩]
  rfl

variable {price : EdgeId → κ} {rounds rounds' : List Round}

/-- Whatever an overlay has been through, with prices quoted it can be made ready, and nothing of
what it has been through is left then. -/
theorem Lived.prepared (h : Lived g o rounds) (hq : o.appraiser.evaluator.Quotes g price) :
    ∃ o₁, o.beginRun g = .ok o₁ ∧ o₁.Prepared g price ∧ o₁.Fits g ∧ o₁.Listed g ∧
      o₁.channel = o.channel := by
  have haged := h.aged
  obtain ⟨o₁, hb⟩ := beginRun_of_reliable haged.listed hq.reliable
  obtain ⟨hlayout, _, hblank, _⟩ := haged.sound.beginRun_eq_ok hb
  have hbegun := haged.beginRun hb
  have hl := hbegun.listed
  refine ⟨o₁, hb, hblank.prepared hl fun mark hmark => ?_, hbegun.sound.fits, hl, hlayout.channel⟩
  obtain ⟨i, hi⟩ := Array.mem_iff_getElem?.mp hmark
  obtain ⟨r, _, hanswered⟩ := hbegun.origin hi
  have hevaluator := o.evaluator_beginRun g
  rw [hb] at hevaluator
  exact hanswered.eq_price (by rw [show o₁.appraiser.evaluator = _ from hevaluator]; exact hq)

/-- Two overlays with the same prices search alike, whatever each of them has been through. -/
theorem Lived.search_alike (h : Lived g o rounds) (h' : Lived g' o' rounds')
    (hb : g'.bare = g.bare) (hq : o.appraiser.evaluator.Quotes g price)
    (hq' : o'.appraiser.evaluator.Quotes g price) (a b : VertexId) (config : SearchConfig) :
    reported (o'.search g' a b config) =
        (reported (o.search g a b config)).mapError (.on o'.channel) ∧
      (Search.refusal? o g a b = none →
        Alike g (givenBack (o.search g a b config)) g' (givenBack (o'.search g' a b config))) := by
  have haged := h.aged
  have haged' := h'.aged
  have hrefusal := refusal?_of_vertices (congrArg Graph.vertices hb) haged.sound.fits haged.listed
    haged'.sound.fits haged'.listed a b
  cases hr : Search.refusal? o g a b with
  | some failure =>
    rw [hr] at hrefusal
    rw [search_of_refusal hr, search_of_refusal hrefusal]
    exact ⟨rfl, fun hnone => by cases hnone⟩
  | none =>
    rw [hr] at hrefusal
    obtain ⟨o₁, hbegin, hprepared, hf, hl, _⟩ := h.prepared hq
    obtain ⟨o₁', hbegin', hprepared', hf', _, hc'⟩ := h'.prepared (hq'.of_bare hb)
    have halike := hprepared.alike hprepared' hb hf hf' hl
    have hrun := (Search.Alike.begun halike a b config).run
    have hc := (Search.touched_fresh o₁' g' a b config 0).sameLayout.channel.trans hc'
    rw [search_of_beginRun hr hbegin, search_of_beginRun hrefusal hbegin', ← hc]
    exact ⟨hrun.1, fun _ => hrun.2⟩

end Overlay

end Waymark
