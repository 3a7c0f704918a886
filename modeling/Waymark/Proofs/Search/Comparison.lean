import Waymark.Proofs.Search.Reached
import Waymark.Proofs.Search.Tally

namespace Waymark

namespace Ways

variable {V E κ : Type} [Cost κ] {w : Ways κ} {g : Graph V E} {cost : EdgeId → κ}
  {source v : VertexId} {hops : List (Hop κ)}

/-- The edges of a way cost no more together than the way claims. -/
theorem Tree.accumulate_le [LawfulCost κ] (h : w.Tree g cost source) (hc : ∀ e, 0 ≤ cost e)
    (ht : w.Traced source v hops) : accumulate cost (hops.map Hop.edge) ≤ Path.cost ⟨hops⟩ := by
  induction ht with
  | source => exact LawfulCost.zero_le_zero
  | @along v hop hops _ hv hbefore ih =>
    obtain ⟨base, hbase, hle⟩ := h.grounded hv
    rw [hbefore.total?] at hbase
    cases hbase
    have hnonneg := h.total?_nonneg hbefore.total?
    have hstep : accumulate cost (hops.map Hop.edge) + cost hop.edge ≤
        Path.cost ⟨hops⟩ + cost hop.edge :=
      LawfulCost.add_le_add_right (accumulate_nonneg hc _) (hc hop.edge) ih
    rw [List.map_append, List.map_singleton, accumulate_append, Path.cost_append]
    exact LawfulCost.le_trans hstep hle

omit [Cost κ] in
/-- What a search gives is empty just if nothing leads to its destination. -/
theorem isEmpty_iff {path : Path κ} (h : (w v = none ∧ path = {}) ∨
    ∃ hop, w v = some hop ∧ v ≠ source ∧ w.Traced source v path.hops) :
    path.isEmpty = true ↔ w v = none := by
  obtain ⟨hnone, rfl⟩ | ⟨hop, hhop, hne, htrace⟩ := h
  · exact ⟨fun _ => hnone, fun _ => rfl⟩
  · have hlast := (htrace.getLast? hne).trans hhop
    refine ⟨fun hempty => ?_, fun hnone => ?_⟩
    · rw [Path.isEmpty, List.isEmpty_iff] at hempty
      rw [hempty] at hlast
      cases hlast
    · rw [hnone] at hhop
      cases hhop

end Ways

namespace Search

variable {V E κ : Type} [Cost κ] [LawfulCost κ] {g : Graph V E} {cost : EdgeId → κ}
  {source : VertexId} {s : Search V E κ}

omit [LawfulCost κ] in
/-- At its end a search by the order of keys has reached its destination if that can be walked to. -/
theorem Exact.ways_eq_none_iff (h : Exact g cost source s) (hf : s.finished = true)
    (ht : (s.overlay.ways g).Tree g cost source) (hne : s.destination ≠ source) :
    s.overlay.ways g s.destination = none ↔ ∀ es, ¬ g.Walk source s.destination es := by
  constructor
  · intro hnone
    refine h.ended hf ?_
    rw [Ways.total?_of_ne _ hne, hnone]
    rfl
  · intro hnowalk
    cases hhop : s.overlay.ways g s.destination with
    | none => rfl
    | some hop =>
      obtain ⟨hops, htrace⟩ := ht.traced hhop
      exact (hnowalk _ (htrace.walk ht.leads)).elim

variable {o o₁ : Overlay V E κ} {a b : VertexId} {config : SearchConfig}

/-- A search by the order of keys, from its first step on. -/
theorem start_exact (h : g.Hosts o) (hk : config.frontier = .costOrdered)
    (hm : config.maxExpansions? = none) (ha : g.vertices.contains a = true)
    (hb : g.vertices.contains b = true) (hne : a ≠ b) (ho : o.beginRun g = .ok o₁) :
    ∃ s, start o g a b config = .ok s ∧ s.maxExpansions? = none ∧ Begun g a b s ∧
      Exact g (o₁.cost g) a s := by
  obtain ⟨hstart, hbegun⟩ := start_of_hosts h config ha hb hne ho
  obtain ⟨es, hg⟩ := hbegun.mirrors
  obtain ⟨hl, hp, hblank, _⟩ := h.sound.2.beginRun_eq_ok ho
  have hworks := (fresh o₁ g a b config).works_expand (g := g) a
  exact ⟨_, hstart, hworks.limit.trans hm, hbegun,
    exact_start hg (hl.fits h.sound.2.fits) hp hblank ha b hk⟩

omit [LawfulCost κ] in
/-- The same in the order of discovery. -/
theorem start_spreading (h : g.Hosts o) (hk : config.frontier = .fifo)
    (hm : config.maxExpansions? = none) (ha : g.vertices.contains a = true)
    (hb : g.vertices.contains b = true) (hne : a ≠ b) (ho : o.beginRun g = .ok o₁) :
    ∃ s, start o g a b config = .ok s ∧ s.maxExpansions? = none ∧ Begun g a b s ∧
      Spreading g (o₁.cost g) a s := by
  obtain ⟨hstart, hbegun⟩ := start_of_hosts h config ha hb hne ho
  obtain ⟨es, hg⟩ := hbegun.mirrors
  obtain ⟨hl, _, hblank, _⟩ := h.sound.2.beginRun_eq_ok ho
  have hworks := (fresh o₁ g a b config).works_expand (g := g) a
  exact ⟨_, hstart, hworks.limit.trans hm, hbegun,
    .begun hg (hl.fits h.sound.2.fits) hblank ha b hk⟩

end Search

/-- A search by the order of keys gives a path just if one in the order of discovery does, and a path
that costs no more: neither more than the other one claims, nor more than the edges listed by the
other one cost together. These never cost more than is claimed. -/
theorem Overlay.search_never_dearer {V E κ : Type} [Cost κ] [LawfulCost κ] {g : Graph V E}
    {o o₁ o' o₁' : Overlay V E κ} (h : g.Hosts o) (h' : g.Hosts o') (ho : o.beginRun g = .ok o₁)
    (ho' : o'.beginRun g = .ok o₁')
    (hcost : ∀ e, g.edges.contains e = true → o₁'.cost g e = o₁.cost g e) {a b : VertexId}
    (ha : g.vertices.contains a = true) (hb : g.vertices.contains b = true) (hne : a ≠ b) :
    ∃ path path' o₂ o₂', o.search g a b { frontier := .costOrdered } = .ok (path, o₂) ∧
      o'.search g a b { frontier := .fifo } = .ok (path', o₂') ∧
      path.isEmpty = path'.isEmpty ∧
      (path'.isEmpty = false →
        path.cost ≤ path'.cost ∧ path.cost ≤ accumulate (o₁.cost g) path'.edges ∧
          accumulate (o₁.cost g) path'.edges ≤ path'.cost) := by
  obtain ⟨s, hstart, hlimit, hbegun, hexact⟩ :=
    Search.start_exact h (show SearchConfig.frontier { frontier := .costOrdered } = .costOrdered
      from rfl) rfl ha hb hne ho
  obtain ⟨s', hstart', hlimit', hbegun', hspreading⟩ :=
    Search.start_spreading h' (show SearchConfig.frontier { frontier := .fifo } = .fifo from rfl) rfl
      ha hb hne ho'
  obtain ⟨es, hg⟩ := hbegun.mirrors
  obtain ⟨log, hlog⟩ := hspreading.accounted
  have hcosts : o₁'.cost g = o₁.cost g := cost_ext (fun _ => rfl) hcost
  obtain ⟨n, path, _, hended, hsearch, hcases⟩ := hbegun.search_ends hstart hlimit hb
  obtain ⟨m, path', _, hended', hsearch', hcases'⟩ := hbegun'.search_ends hstart' hlimit' hb
  have hc := hbegun.cost_nonneg
  have htree := hbegun.tree n
  have htree' := hbegun'.tree m
  rw [hexact.surveys.cost_eq] at hc htree
  rw [hlog.surveys.cost_eq, hcosts] at htree'
  have hend := hexact.after hg hc n
  have hwalk := hend.ways_eq_none_iff hended htree (by rwa [hbegun.destination_after, ne_comm])
  have hwalk' := (hspreading.after hg m).hop?_iff hended' b
  rw [hbegun.destination_after] at hwalk
  change (s'.after g m).overlay.ways g b ≠ none ↔ _ at hwalk'
  have hempty : path.isEmpty = true ↔ path'.isEmpty = true := by
    rw [Ways.isEmpty_iff hcases, Ways.isEmpty_iff hcases', hwalk, ← not_iff_not, not_forall_not,
      ← ne_eq, hwalk']
    simp [hne.symm]
  refine ⟨path, path', _, _, hsearch, hsearch', Bool.eq_iff_iff.mpr hempty, fun hsome => ?_⟩
  have hsome' : path.isEmpty = false := by rw [Bool.eq_iff_iff.mpr hempty, hsome]
  obtain ⟨_, rfl⟩ | ⟨_, _, _, htrace⟩ := hcases
  · cases hsome'
  obtain ⟨_, rfl⟩ | ⟨_, _, _, htrace'⟩ := hcases'
  · cases hsome
  have hlisted : path.cost ≤ accumulate (o₁.cost g) path'.edges :=
    (hend.least b path.cost htrace.total?).least _ (htrace'.walk htree'.leads)
  have hclaimed : accumulate (o₁.cost g) path'.edges ≤ path'.cost := htree'.accumulate_le hc htrace'
  exact ⟨LawfulCost.le_trans hlisted hclaimed, hlisted, hclaimed⟩

/-- On a detour the path found in the order of discovery claims six and lists edges that cost four,
which is the cost of the path by the order of keys. -/
theorem Overlay.search_never_dearer_detour : ∃ (g : Graph Unit Float)
    (o o₁ o₂ o₂' : Overlay Unit Float Float) (path path' : Path Float), g.Hosts o ∧
    o.beginRun g = .ok o₁ ∧
    o.search g ⟨0, 0⟩ ⟨4, 0⟩ { frontier := .costOrdered } = .ok (path, o₂) ∧
    o.search g ⟨0, 0⟩ ⟨4, 0⟩ { frontier := .fifo } = .ok (path', o₂') ∧
    path'.cost = 6 ∧ accumulate (o₁.cost g) path'.edges = 4 ∧ path.isEmpty = false ∧
    path.cost ≤ accumulate (o₁.cost g) path'.edges := by
  have h : Search.detour.graph.Hosts _ :=
    ⟨Search.detour, ⟨_, rfl⟩, rfl, _, List.mem_cons_self, rfl⟩
  obtain ⟨path, path', o₂, o₂', hsearch, hsearch', hempty, hcosts⟩ :=
    Overlay.search_never_dearer (a := ⟨0, 0⟩) (b := ⟨4, 0⟩) h h rfl rfl (fun _ _ => rfl)
      (by decide) (by decide) (by decide)
  have hpath' : path' = ⟨Search.cheapHops ++ [⟨⟨1, 0⟩, ⟨4, 0⟩, 6⟩]⟩ :=
    Except.ok.inj ((congrArg reported hsearch').symm.trans (by decide +kernel))
  subst hpath'
  exact ⟨_, _, _, o₂, o₂', path, _, h, rfl, hsearch, hsearch', rfl, by decide +kernel, hempty,
    (hcosts rfl).2.1⟩

end Waymark
