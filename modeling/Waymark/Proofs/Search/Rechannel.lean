import Waymark.Finder
import Waymark.Proofs.Overlay.Rechannel
import Waymark.Proofs.Search.Alike

namespace Waymark

variable {V E κ : Type} {g g' : Graph V E} {o : Overlay V E κ} {c : Channel}

namespace Search

variable {s s' : Search V E κ}

/-- The same search on another channel. -/
def on (c : Channel) (s : Search V E κ) : Search V E κ := { s with overlay := s.overlay.on c }

theorem alike_on (h : Overlay.Alike g s.overlay g' (s.overlay.on c)) : Alike g s g' (s.on c) :=
  ⟨h, rfl, rfl, rfl, rfl, rfl, rfl⟩

theorem Alike.eq_on (h : Alike g s g' s') (ha : s'.overlay.appraiser = s.overlay.appraiser)
    (hu : s'.overlay.used = s.overlay.used) : s' = s.on s'.overlay.channel := by
  have hoverlay := h.overlay.eq_on ha hu
  obtain ⟨overlay', frontier', source', destination', limit', expansions', finished'⟩ := s'
  obtain ⟨overlay, frontier, source, destination, limit, expansions, finished⟩ := s
  cases h.frontier
  cases h.source
  cases h.destination
  cases h.limit
  cases h.expansions
  cases h.finished
  exact congrArg (fun o => Search.mk o _ _ _ _ _ _) hoverlay

variable [Cost κ]

theorem step_on (h : Overlay.Alike g s.overlay g' (s.overlay.on c)) :
    (s.on c).step g' = Prod.map id (on c) (s.step g) := by
  obtain ⟨hresult, hrest⟩ := (alike_on h).step
  have ht := (s.follows_step (g := g)).touched
  have ht' := ((s.on c).follows_step (g := g')).touched
  have heq := hrest.eq_on (ht'.appraiser.trans ht.appraiser.symm) (ht'.used.trans ht.used.symm)
  rw [ht'.sameLayout.channel] at heq
  exact Prod.ext hresult heq

theorem run_on (h : Overlay.Alike g s.overlay g' (s.overlay.on c)) :
    (s.on c).run g' = attemptOn c (Overlay.on c) (Prod.map id (Overlay.on c)) (s.run g) := by
  obtain ⟨hreport, hrest⟩ := (alike_on h).run
  have ht := s.touched_run (g := g)
  have ht' := (s.on c).touched_run (g := g')
  have heq := hrest.eq_on (ht'.appraiser.trans ht.appraiser.symm) (ht'.used.trans ht.used.symm)
  rw [ht'.sameLayout.channel] at heq
  exact eq_attemptOn hreport heq

/-- A search begins in the same way on every channel. -/
theorem start_on (h : Overlay.Alike g o g' (o.on c)) (hu : o.appraiser.evaluator.Unaware)
    (a b : VertexId) (config : SearchConfig) :
    start (o.on c) g' a b config = attemptOn c (Overlay.on c) (on c) (start o g a b config) := by
  have hrefusal := Overlay.refusal?_of_vertices (congrArg Graph.vertices h.bare) h.fits h.listed
    h.fits' h.listed' a b
  rw [start, start, hrefusal]
  cases refusal? o g a b with
  | some failure => rfl
  | none =>
    change ((o.on c).beginRun g').bind _ = attemptOn c _ _ ((o.beginRun g).bind _)
    rw [Overlay.beginRun_on hu h.bare]
    cases hb : o.beginRun g with
    | error e => rfl
    | ok o₁ =>
      have hbegun := Alike.begun (h.of_sameLayout (Overlay.sameLayout_beginRun hb)) a b config
      have ht := touched_fresh o₁ g a b config 0
      have ht' := touched_fresh (o₁.on c) g' a b config 0
      have heq := hbegun.eq_on (ht'.appraiser.trans ht.appraiser.symm)
        (ht'.used.trans ht.used.symm)
      rw [show ((fresh (o₁.on c) g' a b config).expand g' a).overlay.channel = c from
        ht'.sameLayout.channel] at heq
      exact congrArg Except.ok heq

end Search

variable [Cost κ]

theorem Overlay.search_on (h : Overlay.Alike g o g' (o.on c))
    (hu : o.appraiser.evaluator.Unaware) (a b : VertexId) (config : SearchConfig) :
    (o.on c).search g' a b config =
      attemptOn c (Overlay.on c) (Prod.map id (Overlay.on c)) (o.search g a b config) := by
  rw [Overlay.search, Overlay.search, Search.start_on h hu]
  cases hs : Search.start o g a b config with
  | error e => rfl
  | ok s =>
    obtain ⟨_, o₁, hb, rfl⟩ := Search.start_eq_ok.mp hs
    have hl := (Overlay.sameLayout_beginRun hb).trans
      (Search.touched_fresh o₁ g a b config 0).sameLayout
    exact Search.run_on (h.of_sameLayout hl)

/-- The same finder on another channel. -/
def Finder.on (c : Channel) (f : Finder V E κ) : Finder V E κ :=
  { f with overlay := f.overlay.on c }

theorem Finder.find_on {f : Finder V E κ} (h : Overlay.Alike g f.overlay g' (f.overlay.on c))
    (hu : f.overlay.appraiser.evaluator.Unaware) (a b : VertexId) :
    (f.on c).find g' a b =
      attemptOn c (Finder.on c) (Prod.map id (Finder.on c)) (f.find g a b) := by
  have hsearch := Overlay.search_on h hu a b f.config
  rw [Finder.find, Finder.find, show (f.on c).overlay = f.overlay.on c from rfl,
    show (f.on c).config = f.config from rfl, hsearch]
  cases f.overlay.search g a b f.config <;> rfl

end Waymark
