import Waymark.Proofs.Overlay.Registration
import Waymark.Proofs.Search.Start

namespace Waymark

/-- What holds of the failure at each element holds of the failure at a whole list. -/
theorem failure?_foldlM {ε σ α : Type} {f : σ → α → Except (ε × σ) σ} {P : ε → Prop}
    (hf : ∀ s a e, failure? (f s a) = some e → P e) (l : List α) {s : σ} {e : ε}
    (he : failure? (l.foldlM f s) = some e) : P e := by
  induction l generalizing s with
  | nil => cases he
  | cons a l ih =>
    have ha := hf s a
    rw [List.foldlM_cons] at he
    cases hfa : f s a with
    | error e' =>
      rw [hfa] at he ha
      exact ha e he
    | ok s' =>
      rw [hfa] at he
      exact ih he

variable {V E κ : Type} {o o' : Overlay V E κ} {g : Graph V E} {a b v : VertexId}
  {failure : Failure κ}

namespace Overlay

/-- A vertex without a mark is not in the graph. -/
theorem Fits.vertexMark_eq_error (hf : o.Fits g) (h : o.vertexMark g v = .error failure) :
    failure = .missing (.vertex v) := by
  cases hlive : g.vertices.contains v with
  | true =>
    obtain ⟨mark, hm, _⟩ := hf.vertexMark hlive
    rw [hm] at h
    cases h
  | false =>
    have hnone : g.vertices.get? v = none := by simpa [Arena.contains] using hlive
    rw [Overlay.vertexMark] at h
    rw [findVertex, hnone] at h
    cases h
    rfl

/-- Nor is an edge without a mark. -/
theorem Fits.edgeMark_eq_error {e : EdgeId} (hf : o.Fits g)
    (h : o.edgeMark g e = .error failure) : failure = .missing (.edge e) := by
  cases hlive : g.edges.contains e with
  | true =>
    obtain ⟨mark, hm⟩ := hf.edgeMark hlive
    rw [hm] at h
    cases h
  | false =>
    have hnone : g.edges.get? e = none := by simpa [Arena.contains] using hlive
    rw [Overlay.edgeMark] at h
    rw [findEdge, hnone] at h
    cases h
    rfl

theorem Fits.not_ofRegistry_backtrack (hf : o.Fits g) {seen : List VertexId}
    {found : List (Hop κ)} (h : o.backtrack g seen v found = .error failure) :
    ¬ failure.OfRegistry := by
  fun_induction Overlay.backtrack o g seen v found with
  | case1 seen v found failure' hm =>
    cases h
    rw [hf.vertexMark_eq_error hm]
    exact id
  | case2 => cases h
  | case3 =>
    cases h
    exact id
  | case4 seen v found mark hm hop hsome hv ih => exact ih h

theorem Fits.not_ofRegistry_pathTo (hf : o.Fits g) (h : o.pathTo g v = .error failure) :
    ¬ failure.OfRegistry := by
  rw [pathTo] at h
  cases hb : o.backtrack g [] v [] with
  | ok hops =>
    rw [hb] at h
    cases h
  | error failure' =>
    rw [hb] at h
    cases h
    exact hf.not_ofRegistry_backtrack hb

variable [Cost κ]

theorem not_ofRegistry_reprice {i : Nat} (h : failure? (o.reprice g i) = some failure) :
    ¬ failure.OfRegistry := by
  rw [reprice] at h
  cases hi : o.edges[i]? with
  | none => simp [hi, failure?] at h
  | some mark =>
    cases he : g.edges.get? mark.edge with
    | none =>
      simp only [hi, he] at h
      cases h
      exact id
    | some edge =>
      cases hp : o.appraiser.price g edge with
      | mk priced appraiser =>
        cases priced with
        | ok cost => simp [hi, he, hp, failure?] at h
        | error failure' =>
          simp only [hi, he, hp] at h
          cases h
          exact Appraiser.not_ofRegistry_of_price hp

theorem not_ofRegistry_reset (h : failure? (o.reset g) = some failure) :
    ¬ failure.OfRegistry := by
  have hall := failure?_foldlM (f := fun (o : Overlay V E κ) i => o.reprice g i)
    (P := fun failure => ¬ failure.OfRegistry) (fun o i e => not_ofRegistry_reprice)
    (List.range o.edges.size) (s := o.clearHops) (e := failure)
  rw [reset] at h
  cases hr : (List.range o.edges.size).foldlM (fun o i => o.reprice g i) o.clearHops with
  | ok o₁ =>
    rw [hr] at h
    cases h
  | error e =>
    rw [hr] at h hall
    exact hall h

theorem not_ofRegistry_beginRun (h : o.beginRun g = .error (failure, o')) :
    ¬ failure.OfRegistry := by
  rw [beginRun] at h
  cases hu : o.used with
  | false =>
    rw [hu] at h
    cases h
  | true =>
    cases hr : o.reset g with
    | ok o₁ =>
      simp only [hu, hr, if_true, bind, Except.bind] at h
      cases h
    | error e =>
      simp only [hu, hr, if_true, bind, Except.bind] at h
      cases h
      exact not_ofRegistry_reset (by rw [hr]; rfl)

end Overlay

namespace Search

open Overlay (Fits)

variable {config : SearchConfig}

theorem not_ofRegistry_refusal? (hf : o.Fits g) (h : refusal? o g a b = some failure) :
    ¬ failure.OfRegistry := by
  rw [refusal?] at h
  split at h
  · cases h
    exact id
  · split at h
    · rename_i ha
      cases h
      rw [hf.vertexMark_eq_error ha]
      exact id
    · rename_i hb
      cases h
      rw [hf.vertexMark_eq_error hb]
      exact id
    · split at h
      · cases h
        exact id
      · cases h

variable [Cost κ]

theorem not_ofRegistry_start (hf : o.Fits g)
    (h : start o g a b config = .error (failure, o')) : ¬ failure.OfRegistry := by
  obtain ⟨hr, _⟩ | hb := start_eq_error h
  · exact not_ofRegistry_refusal? hf hr
  · exact Overlay.not_ofRegistry_beginRun hb

theorem not_ofRegistry_run {s : Search V E κ} (hf : s.overlay.Fits g)
    (h : failure? (s.run g) = some failure) : ¬ failure.OfRegistry := by
  cases hrun : s.run g with
  | ok r =>
    rw [hrun] at h
    cases h
  | error e =>
    obtain ⟨failure', o⟩ := e
    rw [hrun] at h
    cases h
    obtain ⟨n, rfl, ⟨limit, rfl⟩ | hpath⟩ := run_eq_error hrun
    · exact id
    · have hlast := (s.follows_after (g := g) n).touched.fits hf
      exact hlast.not_ofRegistry_pathTo hpath

end Search

/-- While every live element has its mark, no search complains of what an element carries. -/
theorem Overlay.Sound.not_ofRegistry_search [Cost κ] (ho : o.Sound g) {config : SearchConfig}
    (h : failure? (o.search g a b config) = some failure) : ¬ failure.OfRegistry := by
  rw [Overlay.search] at h
  cases hs : Search.start o g a b config with
  | error e =>
    rw [hs] at h
    cases h
    exact Search.not_ofRegistry_start ho.fits hs
  | ok s =>
    rw [hs] at h
    exact Search.not_ofRegistry_run ((Search.start_sound ho a b config).1 s hs).1.fits h

end Waymark
