import Waymark.Proofs.Search.Chart

namespace Waymark

namespace Frontier

variable {κ : Type} [Cost κ]

theorem perm_insertByKey (q : Queued κ) (rs : List (Queued κ)) :
    (insertByKey q rs).Perm (q :: rs) := by
  induction rs with
  | nil => exact List.Perm.refl _
  | cons r rs ih =>
    rw [insertByKey]
    split
    · exact (ih.cons r).trans (List.Perm.swap q r rs)
    · exact List.Perm.refl _

/-- Whatever the order, what waits afterwards is what waited before and the newcomer. -/
theorem perm_push (f : Frontier κ) (e : EdgeId) (key : κ) :
    (f.push e key).queue.Perm (⟨e, key⟩ :: f.queue) := by
  rw [push]
  split
  · exact List.perm_append_singleton _ _
  · exact perm_insertByKey _ _

end Frontier

namespace Chart

variable {V E κ : Type} {g : Graph V E} {c c' c'' : Chart κ} {hand : List EdgeId} {e : EdgeId}

/-- The edges in the frontier, the next one in front. -/
def waiting (c : Chart κ) : List EdgeId := c.frontier.queue.map Queued.edge

/-- The edges discovered and not explored are those that wait and those in hand, each once. -/
structure Disciplined (hand : List EdgeId) (c : Chart κ) : Prop where
  nodup : (hand ++ c.waiting).Nodup
  mem_iff : ∀ e, e ∈ hand ++ c.waiting ↔ c.states e = .discovered

/-- Edges are seen only if they are live, and none is ruled out. -/
structure Plain (g : Graph V E) (c : Chart κ) : Prop where
  live : ∀ e, c.states e ≠ .unexplored → g.edges.contains e = true
  allowed : ∀ e, c.states e ≠ .excluded

/-- Some live edges have been discovered, and no other edge has moved. -/
def Discovers (g : Graph V E) (c c' : Chart κ) : Prop :=
  ∀ e, c'.states e = c.states e ∨
    c.states e = .unexplored ∧ c'.states e = .discovered ∧ g.edges.contains e = true

namespace Discovers

theorem refl (g : Graph V E) (c : Chart κ) : Discovers g c c := fun _ => Or.inl rfl

theorem trans (h : Discovers g c c') (h' : Discovers g c' c'') : Discovers g c c'' := by
  intro e
  obtain hkept | ⟨hu, hd, hlive⟩ := h' e
  · rw [hkept]
    exact h e
  · obtain hkept | ⟨_, hd', _⟩ := h e
    · exact Or.inr ⟨hkept ▸ hu, hd, hlive⟩
    · rw [hu] at hd'
      cases hd'

theorem plain (h : Discovers g c c') (hp : c.Plain g) : c'.Plain g := by
  constructor
  · intro e he
    obtain hkept | ⟨_, _, hlive⟩ := h e
    · exact hp.live e (hkept ▸ he)
    · exact hlive
  · intro e he
    obtain hkept | ⟨_, hd, _⟩ := h e
    · exact hp.allowed e (hkept ▸ he)
    · rw [hd] at he
      cases he

theorem explored_iff (h : Discovers g c c') (e : EdgeId) :
    c'.states e = .explored ↔ c.states e = .explored := by
  obtain hkept | ⟨hu, hd, _⟩ := h e
  · rw [hkept]
  · rw [hu, hd]
    decide

theorem code_le (h : Discovers g c c') (e : EdgeId) : (c.states e).code ≤ (c'.states e).code := by
  obtain hkept | ⟨hu, hd, _⟩ := h e
  · rw [hkept]
    exact UInt8.le_refl _
  · rw [hu, hd]
    decide

end Discovers

theorem disciplined_blank (kind : FrontierKind) : (blank kind : Chart κ).Disciplined [] :=
  ⟨List.nodup_nil, fun e => by simp [waiting, blank]⟩

theorem plain_blank (g : Graph V E) (kind : FrontierKind) : (blank kind : Chart κ).Plain g :=
  ⟨fun _ he => (he rfl).elim, fun _ he => by cases he⟩

/-- Taking the next edge in hand. -/
theorem Disciplined.popped (h : c.Disciplined []) {q : Queued κ} {rest : List (Queued κ)}
    (hq : c.frontier.queue = q :: rest) : (c.popped rest).Disciplined [q.edge] := by
  have hwaiting : c.waiting = [q.edge] ++ (c.popped rest).waiting := by
    rw [waiting, hq]
    rfl
  have hnodup := h.nodup
  have hmem := h.mem_iff
  rw [List.nil_append, hwaiting] at hnodup
  refine ⟨hnodup, fun e => ?_⟩
  rw [← hwaiting, ← List.nil_append c.waiting]
  exact hmem e

theorem states_mark (c : Chart κ) (e : EdgeId) (state : EdgeState) (d : EdgeId) :
    (c.mark e state).states d = if d = e then state else c.states d :=
  Function.update_apply c.states e state d

/-- The edge in hand is put down for good. -/
theorem Disciplined.mark (h : c.Disciplined [e]) : (c.mark e .explored).Disciplined [] := by
  obtain ⟨hout, hnodup⟩ := List.nodup_cons.mp h.nodup
  refine ⟨hnodup, fun d => ?_⟩
  change d ∈ c.waiting ↔ _
  rw [states_mark]
  split
  · rename_i hd
    rw [hd]
    exact ⟨fun hmem => (hout hmem).elim, fun hne => by cases hne⟩
  · rename_i hd
    rw [← h.mem_iff]
    simp [hd]

theorem Plain.mark (h : c.Plain g) (he : g.edges.contains e = true) :
    (c.mark e .explored).Plain g := by
  constructor <;> intro d <;> rw [states_mark] <;> split
  · rename_i hd
    rw [hd]
    exact fun _ => he
  · exact h.live d
  · decide
  · exact h.allowed d

theorem Plain.unexplored_or_explored (h : c.Plain g) (hdone : ∀ e, c.states e ≠ .discovered)
    (e : EdgeId) : c.states e = .unexplored ∨ c.states e = .explored := by
  cases hstate : c.states e with
  | unexplored => exact Or.inl rfl
  | discovered => exact (hdone e hstate).elim
  | excluded => exact (h.allowed e hstate).elim
  | explored => exact Or.inr rfl

section Discovering

variable [Cost κ] {cost : EdgeId → κ} {source : VertexId} {es : List EdgeId}

theorem Disciplined.discover (h : c.Disciplined hand) (base : κ) (e : EdgeId) (price : κ) :
    (c.discover base e price).Disciplined hand := by
  rw [Chart.discover]
  split
  · rename_i hu
    have hnew : e ∉ hand ++ c.waiting := by
      rw [h.mem_iff, hu]
      decide
    have hperm : (hand ++ (c.frontier.push e (base + price)).queue.map Queued.edge).Perm
        (e :: (hand ++ c.waiting)) := by
      have hpush := (c.frontier.perm_push e (base + price)).map Queued.edge
      exact (hpush.append_left hand).trans List.perm_middle
    refine ⟨hperm.nodup_iff.mpr (List.nodup_cons.mpr ⟨hnew, h.nodup⟩), fun d => ?_⟩
    change d ∈ hand ++ (c.frontier.push e (base + price)).queue.map Queued.edge ↔
      Function.update c.states e .discovered d = .discovered
    rw [hperm.mem_iff, List.mem_cons, h.mem_iff]
    by_cases hd : d = e
    · simp [hd]
    · simp [hd]
  · exact h

theorem discovers_discover (c : Chart κ) (base : κ) (he : g.edges.contains e = true) (price : κ) :
    Discovers g c (c.discover base e price) := by
  rw [Chart.discover]
  split
  · rename_i hu
    intro d
    change Function.update c.states e .discovered d = _ ∨ _
    by_cases hd : d = e
    · rw [hd]
      exact Or.inr ⟨hu, Function.update_self .., he⟩
    · exact Or.inl (Function.update_of_ne hd ..)
  · exact .refl g c

theorem Disciplined.discoverAll (h : c.Disciplined hand) (base : κ) (cost : EdgeId → κ)
    (l : List EdgeId) : (c.discoverAll base cost l).Disciplined hand := by
  induction l generalizing c with
  | nil => exact h
  | cons e l ih => exact ih (h.discover base e (cost e))

theorem discovers_discoverAll (c : Chart κ) (base : κ) (cost : EdgeId → κ) {l : List EdgeId}
    (hl : ∀ e ∈ l, g.edges.contains e = true) : Discovers g c (c.discoverAll base cost l) := by
  induction l generalizing c with
  | nil => exact .refl g c
  | cons e l ih =>
    have hfirst := c.discovers_discover base (hl e (.head l)) (cost e)
    exact hfirst.trans (ih _ fun d hd => hl d (.tail e hd))

theorem Disciplined.expand (h : c.Disciplined hand) (g : Graph V E) (cost : EdgeId → κ)
    (source v : VertexId) : (c.expand g cost source v).Disciplined hand := by
  rw [Chart.expand]
  split
  · exact h.discoverAll _ cost _
  · exact h

theorem discovers_expand (hg : g.Mirrors es) (c : Chart κ) (cost : EdgeId → κ)
    (source v : VertexId) : Discovers g c (c.expand g cost source v) := by
  rw [Chart.expand]
  cases hx : g.vertices.get? v with
  | none => exact .refl g c
  | some x =>
    refine c.discovers_discoverAll _ cost fun e he => ?_
    obtain ⟨b, hb⟩ := (hg.mem_outgoing hx).mp he
    exact Graph.contains_of_leads hb

theorem Disciplined.expandEnds (h : c.Disciplined hand) (g : Graph V E) (cost : EdgeId → κ)
    (source : VertexId) (edge : Edge E) : (c.expandEnds g cost source edge).Disciplined hand := by
  unfold Chart.expandEnds
  dsimp only
  split
  · exact (h.expand g cost source edge.head).expand g cost source edge.tail
  · exact h.expand g cost source edge.head

theorem discovers_expandEnds (hg : g.Mirrors es) (c : Chart κ) (cost : EdgeId → κ)
    (source : VertexId) (edge : Edge E) : Discovers g c (c.expandEnds g cost source edge) := by
  have hhead := discovers_expand hg c cost source edge.head
  unfold Chart.expandEnds
  dsimp only
  split
  · exact hhead.trans (discovers_expand hg _ cost source edge.tail)
  · exact hhead

/-- Exploring an edge discovers others and moves the edge itself, in that order. -/
theorem explore_eq_mark (hg : g.Mirrors es) (c : Chart κ) (cost : EdgeId → κ) (source : VertexId)
    (he : g.edges.contains e = true) :
    ∃ c₁, c.explore g cost source e = c₁.mark e .explored ∧ Discovers g c c₁ ∧
      ∀ hand, c.Disciplined hand → c₁.Disciplined hand := by
  obtain ⟨edge, hedge⟩ := Arena.contains_iff.mp he
  have hexplore : c.explore g cost source e = ((c.relaxEnds source edge (cost e)).expandEnds g cost
      source edge).mark e .explored := by
    rw [Chart.explore, hedge]
  refine ⟨_, hexplore, discovers_expandEnds hg (c.relaxEnds source edge (cost e)) cost source edge,
    fun hand h => ?_⟩
  have hrelaxed : (c.relaxEnds source edge (cost e)).Disciplined hand := ⟨h.nodup, h.mem_iff⟩
  exact hrelaxed.expandEnds g cost source edge

end Discovering

end Chart

end Waymark
