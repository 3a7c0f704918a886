import Waymark.Proofs.Cost.Binary64
import Waymark.Proofs.Search.Tree

namespace Waymark

/-- The vertices on the way to `v`, with `v` at the end. -/
def Path.stops {κ : Type} (p : Path κ) (v : VertexId) : List VertexId :=
  p.hops.map Hop.origin ++ [v]

namespace Overlay

open Ways (Traced Tree)

variable {V E κ : Type} {o : Overlay V E κ} {g : Graph V E} {source v : VertexId}
  {hops : List (Hop κ)}

/-- Following hops back gives the whole way, if none of its vertices has been come to before. -/
theorem backtrack_of_traced (h : o.Fits g) (ht : (o.ways g).Traced source v hops)
    (hroot : o.ways g source = none)
    (hlive : ∀ u ∈ hops.map Hop.origin ++ [v], g.vertices.contains u = true)
    (seen : List VertexId) (hseen : ∀ u ∈ hops.map Hop.origin ++ [v], u ∉ seen)
    (found : List (Hop κ)) : o.backtrack g seen v found = .ok (hops ++ found) := by
  induction ht generalizing seen found with
  | source =>
    obtain ⟨mark, hm, hhop⟩ := h.vertexMark (hlive source (by simp))
    have hnone : mark.hop? = none := hhop.symm.trans hroot
    rw [backtrack_eq]
    simp [hm, hnone, bind, Except.bind, pure, Except.pure]
  | @along v hop hops hne hv hrest ih =>
    obtain ⟨mark, hm, hhop⟩ := h.vertexMark (hlive v (by simp))
    have hsome : mark.hop? = some hop := hhop.symm.trans hv
    have hfresh := (Traced.along hne hv hrest).nodup
    have hbefore : ∀ u ∈ hops.map Hop.origin ++ [hop.origin],
        u ∈ (hops ++ [hop]).map Hop.origin ++ [v] := by
      intro u hu
      rw [List.map_append, List.map_singleton]
      exact List.mem_append_left _ hu
    have hnew : ∀ u ∈ hops.map Hop.origin ++ [hop.origin], u ∉ v :: seen := by
      intro u hu hmem
      obtain rfl | hold := List.mem_cons.mp hmem
      · rw [List.map_append, List.map_singleton] at hfresh
        exact (List.nodup_append.mp hfresh).2.2 u hu u (List.mem_singleton_self u) rfl
      · exact hseen u (hbefore u hu) hold
    have hback := ih (fun u hu => hlive u (hbefore u hu)) (v :: seen) hnew (hop :: found)
    rw [backtrack_eq]
    simp only [hm, hsome, hseen v (by simp), if_false, bind, Except.bind]
    rw [hback, List.append_assoc]
    rfl

theorem pathTo_of_none (h : o.Fits g)
    (hv : g.vertices.contains v = true) (hnone : o.ways g v = none) :
    o.pathTo g v = .ok {} := by
  obtain ⟨mark, hm, hhop⟩ := h.vertexMark hv
  have hmark : mark.hop? = none := hhop.symm.trans hnone
  have hback : o.backtrack g [] v [] = .ok [] := by
    rw [backtrack_eq]
    simp [hm, hmark, bind, Except.bind, pure, Except.pure]
  rw [pathTo]
  rw [hback]
  rfl

end Overlay

namespace Ways

variable {V E κ : Type} {w : Ways κ} {g : Graph V E} {source v : VertexId} {hops : List (Hop κ)}

/-- Each edge of a way leads from one of its vertices to the next. -/
theorem Traced.leads (h : w.Traced source v hops)
    (hw : ∀ {v hop}, w v = some hop → g.leads hop.origin v hop.edge = true) :
    ∀ p ∈ hops.zip (hops.map Hop.origin ++ [v]).tail, g.leads p.1.origin p.2 p.1.edge = true := by
  induction h with
  | source => simp
  | @along v hop hops hne hv hrest ih =>
    have htail : ((hops ++ [hop]).map Hop.origin ++ [v]).tail
        = (hops.map Hop.origin ++ [hop.origin]).tail ++ [v] := by
      rw [List.map_append, List.map_singleton, List.tail_append_of_ne_nil (by simp)]
    have hlength : hops.length = (hops.map Hop.origin ++ [hop.origin]).tail.length := by simp
    intro p hp
    rw [htail, List.zip_append hlength] at hp
    obtain hp | hp := List.mem_append.mp hp
    · exact ih p hp
    · have hp : p = (hop, v) := by simpa using hp
      rw [hp]
      exact hw hv

/-- A way is a walk. -/
theorem Traced.walk (h : w.Traced source v hops)
    (hw : ∀ {v hop}, w v = some hop → g.leads hop.origin v hop.edge = true) :
    g.Walk source v (hops.map Hop.edge) := by
  induction h with
  | source => exact .start
  | along hne hv _ ih =>
    rw [List.map_append]
    exact ih.along (hw hv)

theorem Traced.head?_origin (h : w.Traced source v hops) (hne : v ≠ source) :
    hops.head?.map Hop.origin = some source := by
  have hchain := h.chain
  cases h with
  | source => exact (hne rfl).elim
  | @along _ hop hops _ _ _ =>
    cases hops with
    | nil =>
      simp only [List.nil_append, List.map_cons, List.map_nil, List.cons_append] at hchain
      simpa using (List.cons.inj hchain).1
    | cons first rest =>
      simp only [List.cons_append, List.map_cons] at hchain
      simpa using (List.cons.inj hchain).1

theorem Traced.getLast? (h : w.Traced source v hops) (hne : v ≠ source) : hops.getLast? = w v := by
  cases h with
  | source => exact (hne rfl).elim
  | along _ hv _ => simp [hv]

/-- A way comes to live vertices only. -/
theorem Traced.live (h : w.Traced source v hops) {es : List EdgeId} (hg : g.Mirrors es)
    (hw : ∀ {v hop}, w v = some hop → g.leads hop.origin v hop.edge = true)
    (hv : g.vertices.contains v = true) :
    ∀ u ∈ hops.map Hop.origin ++ [v], g.vertices.contains u = true := by
  induction h with
  | source => simpa using hv
  | @along v hop hops hne hlast hrest ih =>
    have horigin := (hg.live_of_leads (hw hlast)).1
    intro u hu
    rw [List.map_append, List.map_singleton] at hu
    obtain hu | hu := List.mem_append.mp hu
    · exact ih horigin u hu
    · have huv : u = v := by simpa using hu
      rw [huv]
      exact hv

end Ways

namespace Overlay

variable {V E κ : Type} [Cost κ] {o : Overlay V E κ} {g : Graph V E} {source v : VertexId}
  {cost : EdgeId → κ} {es : List EdgeId}

/-- The way to a vertex that has been reached can be told. -/
theorem pathTo_of_tree (hg : g.Mirrors es) (h : o.Fits g) (ht : (o.ways g).Tree g cost source)
    (hv : g.vertices.contains v = true) {hop : Hop κ} (hhop : o.ways g v = some hop) :
    ∃ path, o.pathTo g v = .ok path ∧ (o.ways g).Traced source v path.hops := by
  obtain ⟨hops, htrace⟩ := ht.traced hhop
  have hlive := htrace.live hg ht.leads hv
  have hback := backtrack_of_traced h htrace ht.root hlive [] (fun _ _ => List.not_mem_nil) []
  refine ⟨⟨hops⟩, ?_, htrace⟩
  rw [pathTo]
  rw [hback, List.append_nil]
  rfl

end Overlay

namespace Search

variable {V E κ : Type} [Cost κ] {g : Graph V E} {s : Search V E κ} {o o₁ : Overlay V E κ}
  {a b : VertexId}

/-- What may become of a search's overlay: the search is given up after some steps, or it runs to
its end or its limit. -/
def Leaves (s : Search V E κ) (g : Graph V E) (o : Overlay V E κ) : Prop :=
  (∃ n, o = (s.after g n).overlay) ∨ o = givenBack (s.run g)

theorem Leaves.eq_after (h : s.Leaves g o) : ∃ n, o = (s.after g n).overlay := by
  obtain hn | rfl := h
  · exact hn
  · exact s.givenBack_run

/-- A search that has begun, with nothing reached as yet. -/
structure Begun (g : Graph V E) (a b : VertexId) (s : Search V E κ) : Prop where
  mirrors : ∃ es, g.Mirrors es
  source : s.source = a
  destination : s.destination = b
  fits : s.overlay.Fits g
  priced : s.overlay.Priced
  blank : s.overlay.ways g = fun _ => none

theorem begun_of_blank {es : List EdgeId} (hg : g.Mirrors es) (hf : o.Fits g) (hp : o.Priced)
    (hb : o.Blank) (ha : g.vertices.contains a = true) (b : VertexId) (config : SearchConfig) :
    Begun g a b ((fresh o g a b config).expand g a) := by
  have hworks := (fresh o g a b config).works_expand (g := g) a
  have ht := touched_fresh o g a b config 0
  refine ⟨⟨es, hg⟩, hworks.source, hworks.destination, ht.fits hf, ht.priced hp, ?_⟩
  rw [ways_expand]
  exact ways_fresh hf hb ha b config

/-- A search between two live vertices begins, unless costs cannot be taken. -/
theorem start_of_hosts (h : g.Hosts o) (config : SearchConfig)
    (ha : g.vertices.contains a = true) (hb : g.vertices.contains b = true) (hne : a ≠ b)
    (ho : o.beginRun g = .ok o₁) :
    start o g a b config = .ok ((fresh o₁ g a b config).expand g a) ∧
      Begun g a b ((fresh o₁ g a b config).expand g a) := by
  obtain ⟨⟨es, hg⟩, hsound⟩ := h.sound
  obtain ⟨hl, hp, hblank, _⟩ := hsound.beginRun_eq_ok ho
  constructor
  · exact start_eq_ok.mpr ⟨(refusal?_eq_none hsound.fits).mpr ⟨ha, hb, hne⟩, o₁, ho, rfl⟩
  · exact begun_of_blank hg (hl.fits hsound.fits) hp hblank ha b config

namespace Begun

theorem fits_after (h : Begun g a b s) (n : Nat) : (s.after g n).overlay.Fits g :=
  (s.follows_after n).touched.fits h.fits

theorem cost_after (h : Begun g a b s) (n : Nat) :
    (s.after g n).overlay.cost g = s.overlay.cost g :=
  (s.follows_after n).touched.cost h.fits

theorem source_after (h : Begun g a b s) (n : Nat) : (s.after g n).source = a :=
  (s.follows_after n).source.trans h.source

theorem destination_after (h : Begun g a b s) (n : Nat) : (s.after g n).destination = b :=
  (s.follows_after n).destination.trans h.destination

variable [LawfulCost κ]

theorem cost_nonneg (h : Begun g a b s) (e : EdgeId) : 0 ≤ s.overlay.cost g e :=
  h.priced.cost_nonneg e

/-- The ways found are a tree from the start of a search on. -/
theorem tree (h : Begun g a b s) (n : Nat) :
    ((s.after g n).overlay.ways g).Tree g (s.overlay.cost g) a := by
  obtain ⟨es, hg⟩ := h.mirrors
  refine ways_after (P := fun w => w.Tree g (s.overlay.cost g) a) hg h.fits ?_ ?_ n
  · rw [h.blank]
    exact Ways.Tree.blank g _ _
  · intro w w' c d e hw he hr
    rw [h.source] at hr
    exact hw.relaxed h.cost_nonneg he hr

/-- The way to a live vertex can be told at every step. -/
theorem pathTo (h : Begun g a b s) (n : Nat) {v : VertexId}
    (hv : g.vertices.contains v = true) :
    ∃ path, (s.after g n).overlay.pathTo g v = .ok path ∧
      (((s.after g n).overlay.ways g v = none ∧ path = {}) ∨
        ∃ hop, (s.after g n).overlay.ways g v = some hop ∧ v ≠ a ∧
          ((s.after g n).overlay.ways g).Traced a v path.hops) := by
  obtain ⟨es, hg⟩ := h.mirrors
  cases hhop : (s.after g n).overlay.ways g v with
  | none =>
    have hpath := Overlay.pathTo_of_none (h.fits_after n) hv hhop
    exact ⟨{}, hpath, Or.inl ⟨rfl, rfl⟩⟩
  | some hop =>
    obtain ⟨path, hpath, htrace⟩ := Overlay.pathTo_of_tree hg (h.fits_after n) (h.tree n) hv hhop
    exact ⟨path, hpath, Or.inr ⟨hop, rfl, (h.tree n).ne_source hhop, htrace⟩⟩

end Begun

variable [LawfulCost κ]

/-- Whenever a search is left, the way to every live vertex can be told. It is empty for a vertex
that was not reached, as the source always is; to any other it leads from the source edge by edge
and comes to no vertex twice. -/
theorem paths_form_tree (h : g.Hosts o) (config : SearchConfig) (ha : g.vertices.contains a = true)
    (hb : g.vertices.contains b = true) (hne : a ≠ b) (ho : o.beginRun g = .ok o₁) :
    ∃ s, start o g a b config = .ok s ∧ ∀ o', s.Leaves g o' →
      o'.hop? g a = none ∧ ∀ v, g.vertices.contains v = true →
        ∃ path, o'.pathTo g v = .ok path ∧ (o'.hop? g v = none → path = {}) ∧
          ∀ hop, o'.hop? g v = some hop →
            path.source? = some a ∧ path.hops.getLast? = some hop ∧
            (∀ p ∈ path.hops.zip (path.stops v).tail,
              g.leads p.1.origin p.2 p.1.edge = true) ∧ (path.stops v).Nodup := by
  obtain ⟨hstart, hbegun⟩ := start_of_hosts h config ha hb hne ho
  refine ⟨_, hstart, fun o' hleaves => ?_⟩
  obtain ⟨n, rfl⟩ := hleaves.eq_after
  have htree := hbegun.tree n
  refine ⟨htree.root, fun v hv => ?_⟩
  obtain ⟨path, hpath, ⟨hnone, hempty⟩ | ⟨hop, hhop, hva, htrace⟩⟩ := hbegun.pathTo n hv
  · refine ⟨path, hpath, fun _ => hempty, fun hop hsome => ?_⟩
    have hcontra := hnone.symm.trans hsome
    cases hcontra
  · refine ⟨path, hpath, fun hnone => ?_, fun hop' hsome => ?_⟩
    · have hcontra := hnone.symm.trans hhop
      cases hcontra
    · have hlast := (htrace.getLast? hva).trans hsome
      exact ⟨htrace.head?_origin hva, hlast, htrace.leads htree.leads, htrace.nodup⟩

/-- Two ways lead to one vertex and on from there; the dearer one has fewer edges. -/
def detour : Workspace Unit Float Float :=
  [.addVertices [(), (), (), (), ()], .link ⟨0, 0⟩ ⟨1, 0⟩ .directed 5,
    .link ⟨0, 0⟩ ⟨2, 0⟩ .directed 1, .link ⟨2, 0⟩ ⟨3, 0⟩ .directed 1,
    .link ⟨3, 0⟩ ⟨1, 0⟩ .directed 1, .link ⟨1, 0⟩ ⟨4, 0⟩ .directed 1,
    .deed 0 (.mount .payload)].foldl Workspace.obey {}

/-- The last vertex is reached over the dearer way, and its own hop is not taken back when the
cheaper one turns up. -/
theorem paths_form_tree_detour : ∃ (g : Graph Unit Float) (o : Overlay Unit Float Float)
    (s : Search Unit Float Float) (hop : Hop Float) (path : Path Float), g.Hosts o ∧
    start o g ⟨0, 0⟩ ⟨4, 0⟩ {} = .ok s ∧ (s.after g 5).overlay.hop? g ⟨4, 0⟩ = some hop ∧
    (s.after g 5).overlay.pathTo g ⟨4, 0⟩ = .ok path ∧ path.source? = some ⟨0, 0⟩ ∧
    path.hops.getLast? = some hop ∧ (path.stops ⟨4, 0⟩).Nodup := by
  have h : detour.graph.Hosts _ := ⟨detour, ⟨_, rfl⟩, rfl, _, List.mem_cons_self, rfl⟩
  obtain ⟨s, hs, hleaves⟩ := paths_form_tree (a := ⟨0, 0⟩) (b := ⟨4, 0⟩) h {}
    (by decide) (by decide) (by decide) rfl
  obtain ⟨_, hpaths⟩ := hleaves _ (Or.inl ⟨5, rfl⟩)
  obtain ⟨path, hpath, _, hhop⟩ := hpaths ⟨4, 0⟩ (by decide)
  obtain ⟨_, o₁, ho, rfl⟩ := start_eq_ok.mp hs
  have ho₁ := Except.ok.inj ho
  subst ho₁
  obtain ⟨hsource, hlast, _, hnodup⟩ := hhop ⟨⟨1, 0⟩, ⟨4, 0⟩, 6⟩ (by decide +kernel)
  exact ⟨_, _, _, _, path, h, hs, by decide +kernel, hpath, hsource, hlast, hnodup⟩

end Search

end Waymark
