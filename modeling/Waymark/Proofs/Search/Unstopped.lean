import Waymark.Proofs.Search.Orderly

namespace Waymark

namespace Search

variable {V E κ : Type} [Cost κ] {g : Graph V E} {cost : EdgeId → κ} {source : VertexId}
  {halts : Search V E κ → Queued κ → Bool} {s s' s₁ s₂ : Search V E κ} {es : List EdgeId}
  {q : Queued κ} {rest : List (Queued κ)}

/-- Where a search that is cut short by `halts` ends up. -/
structure Ends (halts : Search V E κ → Queued κ → Bool) (g : Graph V E) (cost : EdgeId → κ)
    (source : VertexId) (s s' : Search V E κ) : Prop where
  orderly : Orderly g cost source s'
  destination : s'.destination = s.destination
  kept : ∀ v hop, s.overlay.ways g v = some hop → s'.overlay.ways g v = some hop
  exhausted : ∃ rest, s.exhaustUnless halts g = (.finished,
    { s' with frontier := { s'.frontier with queue := rest }, finished := true }) ∧
      (rest = [] ∨ ∃ q, halts s' q = true)

variable [LawfulCost κ]

namespace Ends

theorem earlier (h : Orderly g cost source s) (hg : g.Mirrors es) (hc : ∀ e, 0 ≤ cost e)
    (hq : s.frontier.queue = q :: rest) (hh : halts s q = false)
    (hends : Ends halts g cost source ((s.popped rest).explore g q.edge) s') :
    Ends halts g cost source s s' := by
  have hworks := (s.popped rest).works_explore (g := g) q.edge
  refine ⟨hends.orderly, hends.destination.trans hworks.destination, fun v hop hv => ?_, ?_⟩
  · exact hends.kept v hop (h.kept_explore hg hc hq hv)
  · rw [exhaustUnless_of_expanded (stepUnless_of_waiting h.underway h.unreached hq hh)]
    exact hends.exhausted

omit [LawfulCost κ] in
theorem of_dry (h : Orderly g cost source s) (hq : s.frontier.queue = []) :
    Ends halts g cost source s s := by
  have hfrontier : ({ s.frontier with queue := [] } : Frontier κ) = s.frontier := by rw [← hq]
  refine ⟨h, rfl, fun _ _ hv => hv, [], ?_, Or.inl rfl⟩
  rw [exhaustUnless_of_finished (stepUnless_of_dry h.underway h.unreached hq), hfrontier]

omit [LawfulCost κ] in
theorem of_halted (h : Orderly g cost source s) (hq : s.frontier.queue = q :: rest)
    (hh : halts s q = true) : Ends halts g cost source s s :=
  ⟨h, rfl, fun _ _ hv => hv, rest,
    exhaustUnless_of_finished (stepUnless_of_halted h.underway h.unreached hq hh),
    Or.inr ⟨q, hh⟩⟩

theorem exists_of_orderly (h : Orderly g cost source s) (hg : g.Mirrors es)
    (hc : ∀ e, 0 ≤ cost e) : ∃ s', Ends halts g cost source s s' := by
  refine h.induct (P := fun s => ∃ s', Ends halts g cost source s s') hg hc ?_ ?_
  · intro s h hq
    exact ⟨s, .of_dry h hq⟩
  · intro s q rest h hq ih
    cases hh : halts s q with
    | true => exact ⟨s, .of_halted h hq hh⟩
    | false =>
      obtain ⟨s', hends⟩ := ih
      exact ⟨s', .earlier h hg hc hq hh hends⟩

/-- A search that is cut short only once it has reached its destination ends where it would have
ended anyway, but for hops that it does not come to. -/
theorem compare (h : Orderly g cost source s) (hg : g.Mirrors es) (hc : ∀ e, 0 ≤ cost e)
    (hhalts : ∀ s q, halts s q = true → s.overlay.ways g s.destination ≠ none) :
    ∃ s₁ s₂, Ends halts g cost source s s₁ ∧ Ends (fun _ _ => false) g cost source s s₂ ∧
      (∀ v hop, s₁.overlay.ways g v = some hop → s₂.overlay.ways g v = some hop) ∧
      (s₁ = s₂ ∨ s₁.overlay.ways g s.destination ≠ none) := by
  refine h.induct (P := fun s => ∃ s₁ s₂, Ends halts g cost source s s₁ ∧
    Ends (fun _ _ => false) g cost source s s₂ ∧
    (∀ v hop, s₁.overlay.ways g v = some hop → s₂.overlay.ways g v = some hop) ∧
    (s₁ = s₂ ∨ s₁.overlay.ways g s.destination ≠ none)) hg hc ?_ ?_
  · intro s h hq
    exact ⟨s, s, .of_dry h hq, .of_dry h hq, fun _ _ hv => hv, Or.inl rfl⟩
  · intro s q rest h hq ih
    cases hh : halts s q with
    | true =>
      have hunstopped : ∃ s₂, Ends (fun _ _ => false) g cost source s s₂ :=
        exists_of_orderly h hg hc
      obtain ⟨s₂, hends⟩ := hunstopped
      exact ⟨s, s₂, .of_halted h hq hh, hends, hends.kept, Or.inr (hhalts s q hh)⟩
    | false =>
      obtain ⟨s₁, s₂, h₁, h₂, hkept, hcases⟩ := ih
      have hworks := (s.popped rest).works_explore (g := g) q.edge
      rw [hworks.destination] at hcases
      exact ⟨s₁, s₂, .earlier h hg hc hq hh h₁, .earlier h hg hc hq rfl h₂, hkept, hcases⟩

omit [LawfulCost κ] in
theorem run (h : Ends halts g cost source s s') {path : Path κ}
    (hpath : s'.overlay.pathTo g s.destination = .ok path) :
    s.runUnless halts g = .ok (path, s'.overlay) := by
  obtain ⟨rest, hexhausted, _⟩ := h.exhausted
  rw [← h.destination] at hpath
  rw [runUnless, hexhausted]
  exact conclude_of_finished hpath

end Ends

omit [LawfulCost κ] in
/-- The way to a vertex is told alike as long as no hop of it is taken back. -/
theorem Orderly.pathTo_eq (h₁ : Orderly g cost source s₁) (h₂ : Orderly g cost source s₂)
    (hg : g.Mirrors es) {v : VertexId} (hv : g.vertices.contains v = true)
    (hkept : ∀ v hop, s₁.overlay.ways g v = some hop → s₂.overlay.ways g v = some hop)
    (hcases : s₁ = s₂ ∨ s₁.overlay.ways g v ≠ none) :
    ∃ path, s₁.overlay.pathTo g v = .ok path ∧ s₂.overlay.pathTo g v = .ok path := by
  cases hhop : s₁.overlay.ways g v with
  | none =>
    obtain rfl := hcases.resolve_right fun hreached => hreached hhop
    have hpath := Overlay.pathTo_of_none h₁.surveys.fits hv hhop
    exact ⟨{}, hpath, hpath⟩
  | some hop =>
    obtain ⟨path, hpath, htrace⟩ :=
      Overlay.pathTo_of_tree hg h₁.surveys.fits h₁.tree hv hhop
    obtain ⟨path', hpath', htrace'⟩ :=
      Overlay.pathTo_of_tree hg h₂.surveys.fits h₂.tree hv (hkept v hop hhop)
    have hhops := (htrace.mono hkept).unique htrace'
    obtain rfl : path = path' := by
      cases path
      cases path'
      exact congrArg Path.mk hhops
    exact ⟨path, hpath, hpath'⟩

end Search

/-- Stopping early makes no difference to what a search by the order of keys finds: one that goes on
until its frontier is empty gives the same path. However it is cut short, the keys of the edges taken
from the frontier never decrease, and no vertex is written to twice. -/
theorem Overlay.search_unstopped {V E κ : Type} [Cost κ] [LawfulCost κ] {g : Graph V E}
    {o o₁ : Overlay V E κ} (h : g.Hosts o) {config : SearchConfig}
    (hk : config.frontier = .costOrdered) (hm : config.maxExpansions? = none) {a b : VertexId}
    (ha : g.vertices.contains a = true) (hb : g.vertices.contains b = true) (hne : a ≠ b)
    (ho : o.beginRun g = .ok o₁) :
    ∃ s path o₂ o₂', Search.start o g a b config = .ok s ∧
      o.search g a b config = .ok (path, o₂) ∧
      o.searchUnless (fun _ _ => false) g a b config = .ok (path, o₂') ∧
      (s.exhaustUnless (fun _ _ => false) g).2.frontier.isEmpty = true ∧
      ∀ halts, Frontier.Sorted (s.pops halts g) ∧ (s.writes halts g).Nodup := by
  obtain ⟨hstart, hbegun⟩ := Search.start_of_hosts h config ha hb hne ho
  obtain ⟨es, hg⟩ := hbegun.mirrors
  obtain ⟨hl, hp, hblank, _⟩ := h.sound.2.beginRun_eq_ok ho
  have hc := hp.cost_nonneg (g := g)
  have horderly := Search.orderly_start hg (hl.fits h.sound.2.fits) hp hblank ha b hk hm
  generalize (Search.fresh o₁ g a b config).expand g a = s at *
  have hhalts : ∀ (s : Search V E κ) (q : Queued κ), s.beaten g q = true →
      s.overlay.ways g s.destination ≠ none := by
    intro s q hbeaten hnone
    change s.overlay.hop? g s.destination = none at hnone
    simp [Search.beaten, hnone] at hbeaten
  obtain ⟨s₁, s₂, h₁, h₂, hkept, hcases⟩ := Search.Ends.compare horderly hg hc hhalts
  rw [← hbegun.destination] at hb
  obtain ⟨path, hpath₁, hpath₂⟩ := h₁.orderly.pathTo_eq h₂.orderly hg hb hkept hcases
  refine ⟨s, path, s₁.overlay, s₂.overlay, hstart, ?_, ?_, ?_, fun halts => ?_⟩
  · rw [search, hstart]
    exact h₁.run hpath₁
  · rw [searchUnless, hstart]
    exact h₂.run hpath₂
  · obtain ⟨rest, hexhausted, hrest⟩ := h₂.exhausted
    rw [hexhausted]
    obtain rfl : rest = [] := hrest.resolve_right fun hhalted => by simp at hhalted
    rfl
  · exact ⟨(horderly.sorted_pops hg hc).1, (horderly.nodup_writes hg hc).1⟩

/-- On a detour the search comes to its end with an edge left in its frontier. -/
theorem Overlay.search_unstopped_detour : ∃ (g : Graph Unit Float)
    (o o₂ o₂' : Overlay Unit Float Float) (s : Search Unit Float Float) (path : Path Float),
    g.Hosts o ∧
    Search.start o g ⟨0, 0⟩ ⟨1, 0⟩ { frontier := .costOrdered } = .ok s ∧
    o.search g ⟨0, 0⟩ ⟨1, 0⟩ { frontier := .costOrdered } = .ok (path, o₂) ∧
    o.searchUnless (fun _ _ => false) g ⟨0, 0⟩ ⟨1, 0⟩ { frontier := .costOrdered } =
      .ok (path, o₂') ∧
    (s.exhaustUnless (fun _ _ => false) g).2.frontier.isEmpty = true ∧
    (s.after g 4).finished = true ∧ (s.after g 4).frontier.isEmpty = false := by
  have h : Search.detour.graph.Hosts _ :=
    ⟨Search.detour, ⟨_, rfl⟩, rfl, _, List.mem_cons_self, rfl⟩
  obtain ⟨s, path, o₂, o₂', hs, hsearch, hsearch', hempty, _⟩ := Overlay.search_unstopped
    (a := ⟨0, 0⟩) (b := ⟨1, 0⟩) h
    (show SearchConfig.frontier { frontier := .costOrdered } = .costOrdered from rfl)
    rfl (by decide) (by decide) (by decide) rfl
  obtain ⟨_, o₁, ho, rfl⟩ := Search.start_eq_ok.mp hs
  have ho₁ := Except.ok.inj ho
  subst ho₁
  exact ⟨_, _, o₂, o₂', _, path, h, hs, hsearch, hsearch', hempty, by decide +kernel,
    by decide +kernel⟩

end Waymark
