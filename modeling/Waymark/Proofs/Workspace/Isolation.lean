import Waymark.Proofs.Workspace.Twins

namespace Waymark.Workspace

variable {V E κ : Type} [Cost κ] {w w' : Workspace V E κ} {n : Nat} {c : Channel}

namespace Twins

abbrev SameResult {α : Type} (n : Nat) (a : α) (v : Workspace V E κ) (a' : α)
    (v' : Workspace V E κ) : Prop :=
  a' = a ∧ Twins n v v'

/-- The same answer apart from channels. -/
abbrev SameAnswer (n : Nat) (answer : Answer κ) (v : Workspace V E κ) (answer' : Answer κ)
    (v' : Workspace V E κ) : Prop :=
  answer'.on ⟨0⟩ = answer.on ⟨0⟩ ∧ Twins n v v'

section Place

variable (h : Twins n w w') (hw : w.Reachable) (hw' : w'.Reachable)

include h hw hw'

theorem alike {t : Tenant V E κ} (ht : w.tenants.lookup n = some t)
    (ht' : w'.tenants.lookup n = some (t.on c)) :
    Overlay.Alike w.graph t.toOverlay w'.graph (t.toOverlay.on c) := by
  obtain ⟨rounds, hlived⟩ := hw.alive _ (Sound.mem_of_lookup ht)
  have hfits' := (hw'.sound.tenant ht').overlay.fits
  rw [Tenant.toOverlay_on] at hfits'
  exact ⟨h.graph, (hw.sound.tenant ht).overlay.fits, hfits', hlived.aged.listed, rfl, rfl⟩

/-- Questions are answered alike. -/
theorem inStep_query (q : Query) :
    InStep (q.perform n) (q.perform n) w w' (SameAnswer n) (SameTrouble n) := by
  cases q with
  | channel => exact InStep.bind (h.inStep_idle fun t c ht ht' => inStep_pure ⟨rfl, h⟩)
  | marks => exact InStep.bind (h.inStep_idle fun t c ht ht' => inStep_pure ⟨rfl, h⟩)
  | vertexMark v =>
    refine InStep.bind (h.inStep_idle fun t c ht ht' => InStep.bind (inStep_get (InStep.bind ?_)))
    have hmark := (h.alike hw hw' ht ht').vertexMark v
    exact h.inStep_attempt (by rw [hmark]) fun mark _ => inStep_pure ⟨rfl, h⟩
  | edgeMark e =>
    refine InStep.bind (h.inStep_idle fun t c ht ht' => InStep.bind (inStep_get (InStep.bind ?_)))
    have hmark := (h.alike hw hw' ht ht').edgeMark e
    exact h.inStep_attempt (by rw [hmark]) fun mark _ => inStep_pure ⟨rfl, h⟩
  | pathTo v =>
    refine InStep.bind (h.inStep_idle fun t c ht ht' => InStep.bind (inStep_get (InStep.bind ?_)))
    have hpath := (h.alike hw hw' ht ht').pathTo v
    exact h.inStep_attempt (mapError_on hpath) fun path _ => inStep_pure ⟨rfl, h⟩
  | calls =>
    refine InStep.bind (InStep.bind (h.inStep_tenant fun t c ht ht' => inStep_pure ?_))
    rw [Tenant.toOverlay_on]
    exact inStep_pure ⟨rfl, h⟩
  | config => exact InStep.bind (h.inStep_finder fun f c hf hf' => inStep_pure ⟨rfl, h⟩)
  | progress =>
    refine InStep.bind (h.inStep_running fun s c hs hs' => InStep.bind (inStep_get (InStep.bind ?_)))
    have hpath := (Search.alike_on (h.alike hw hw' hs hs')).path
    exact h.inStep_attempt (mapError_on hpath) fun path _ => inStep_pure ⟨rfl, h⟩

omit hw hw' in
/-- What an attempt on the tenant leaves behind goes to its place in both. -/
theorem inStep_settle {α β : Type} {t : Tenant V E κ} (ht : w.tenants.lookup n = some t)
    {wrap : β → Tenant V E κ} (left : β → β) (hwrap : ∀ b, wrap (left b) = (wrap b).on c)
    {r r' : Except (Failure κ × β) (α × β)} (hr : r' = attemptOn c left (Prod.map id left) r)
    (hmoves : t.Moves w.graph (failure? r) (wrap (givenBack r))) :
    InStep (settle n wrap r) (settle n wrap r') w w' (SameResult n) (SameTrouble n) := by
  have hu : (wrap (givenBack r)).toOverlay.appraiser.evaluator.Unaware := by
    rw [hmoves.evaluator]
    exact h.unaware t ht
  have hplaced := h.placed hu c
  rw [← hwrap] at hplaced
  subst hr
  cases r with
  | ok p => exact InStep.bind (inStep_put (inStep_pure ⟨rfl, hplaced⟩))
  | error e =>
    obtain ⟨failure, b⟩ := e
    refine InStep.bind (inStep_put (inStep_throw ⟨?_, hplaced⟩))
    exact congrArg Trouble.failed (failure.on_on c ⟨0⟩)

omit [Cost κ] hw hw' in
theorem inStep_edge {e : EdgeId} {Q : Edge E → Workspace V E κ → Edge E → Workspace V E κ → Prop}
    (hQ : ∀ edge edge', w.graph.edge e = .ok edge → edge'.bare = edge.bare → Q edge w edge' w') :
    InStep (found (w.graph.edge e)) (found (w'.graph.edge e)) w w' Q (SameTrouble n) := by
  cases he : w.graph.edges.get? e with
  | none =>
    rw [Graph.edge, Graph.edge, he, Graph.edge_none_of_bare h.graph he]
    exact inStep_throw (h.same_failure rfl)
  | some edge =>
    obtain ⟨edge', he', hbare⟩ := Graph.edge_of_bare h.graph he
    have hedge := Graph.edge_eq_ok.mpr he
    rw [Graph.edge_eq_ok.mpr he', hedge]
    exact inStep_pure (hQ edge edge' hedge hbare)

/-- Mounting takes the same course on whatever channel is free. -/
theorem inStep_mountAs {evaluator : Evaluator V E κ} (hu : evaluator.Unaware)
    (wrap : Overlay V E κ → Tenant V E κ) (hwrap : ∀ o, (wrap o).toOverlay = o)
    (hon : ∀ c o, wrap (o.on c) = (wrap o).on c) :
    InStep (mountAs n evaluator wrap) (mountAs n evaluator wrap) w w'
      (fun _ v _ v' => Twins n v v') (SameTrouble n) := by
  obtain ⟨es, hm⟩ := hw.sound.mirrors
  obtain ⟨c, hc⟩ := h.lookup
  have hmounts := Graph.mount_on h.graph (hw.registered.vacant hw.sound.not_mem_channels)
    (hw'.registered.vacant hw'.sound.not_mem_channels) hu
  rw [mountAs]
  refine InStep.bind (InStep.bind (inStep_get ?_))
  cases hl : w.tenants.lookup n with
  | some t =>
    rw [hl] at hc
    rw [hc]
    exact inStep_throw (h.same_refusal _)
  | none =>
    rw [hl] at hc
    rw [hc]
    refine inStep_pure (InStep.bind (inStep_get ?_))
    cases hmount : w.graph.mount evaluator with
    | mk mounted g₁ =>
      cases hmount' : w'.graph.mount evaluator with
      | mk mounted' g₁' =>
        rw [hmount, hmount'] at hmounts
        change mounted' = _ at hmounts
        have hgraph : g₁'.bare = g₁.bare :=
          (Graph.redecorated_mount hmount').bare_eq.trans
            (h.graph.trans (Graph.redecorated_mount hmount).bare_eq.symm)
        have htwins : Twins n { w with graph := g₁ } { w' with graph := g₁' } :=
          ⟨hgraph, h.lookup, h.unaware⟩
        subst hmounts
        refine InStep.bind (inStep_modify ?_)
        cases mounted with
        | error e => exact inStep_throw (htwins.same_failure (e.1.on_on _ ⟨0⟩))
        | ok o =>
          refine InStep.bind (inStep_put (inStep_pure ?_))
          rw [hon]
          refine htwins.placed ?_ _
          rw [hwrap, (Graph.mount_entered hm hmount).2.2.1]
          exact hu

omit [Cost κ] hw hw' in
theorem inStep_unmount : InStep (unmount n) (unmount n) w w' (SameResult n) (SameTrouble n) := by
  refine InStep.bind (h.inStep_tenant fun t c ht ht' => inStep_modify ⟨rfl, ?_, ?_, ?_⟩)
  · exact ((t.on c).toOverlay.redecorated_unmount .refl).bare_eq.trans
      (h.graph.trans (t.toOverlay.redecorated_unmount .refl).bare_eq.symm)
  · exact ⟨c, by rw [lookup_filter_ne, lookup_filter_ne, if_pos rfl, if_pos rfl]; rfl⟩
  · intro t' ht'
    rw [lookup_filter_ne, if_pos rfl] at ht'
    cases ht'

omit [Cost κ] hw hw' in
theorem inStep_ask (e : EdgeId) :
    InStep (ask n e) (ask n e) w w' (SameResult n) (SameTrouble n) := by
  refine InStep.bind (h.inStep_idle fun t c ht ht' => InStep.bind (inStep_get
    (InStep.bind (h.inStep_edge fun edge edge' he hbare => ?_))))
  have hu : t.toOverlay.appraiser.evaluator.Unaware := h.unaware t ht
  have hask : (t.toOverlay.on c).appraiser.ask w'.graph edge' =
      t.toOverlay.appraiser.ask w.graph edge := Appraiser.ask_of_bare hu h.graph hbare
  rw [hask]
  cases hasked : t.toOverlay.appraiser.ask w.graph edge with
  | mk answer appraiser =>
    have hu' : appraiser.evaluator.Unaware := by
      cases hasked
      exact hu
    refine InStep.bind (h.inStep_tenant fun t₁ c₁ ht₁ _ => ?_)
    obtain rfl : t = t₁ := Option.some.inj (ht.symm.trans ht₁)
    cases t with
    | finder f =>
      have hplaced := h.placed (t := .finder { f with overlay := { f.overlay with appraiser } })
        hu' c
      exact InStep.bind (inStep_put (inStep_pure ⟨rfl, hplaced⟩))
    | overlay o =>
      have hplaced := h.placed (t := .overlay { o with appraiser }) hu' c
      exact InStep.bind (inStep_put (inStep_pure ⟨rfl, hplaced⟩))
    | search s =>
      have hplaced := h.placed (t := .overlay { s.overlay with appraiser }) hu' c
      exact InStep.bind (inStep_put (inStep_pure ⟨rfl, hplaced⟩))

omit hw hw' in
theorem inStep_reset : InStep (reset n) (reset n) w w' (SameResult n) (SameTrouble n) := by
  refine InStep.bind (h.inStep_plain fun o c ho ho' => InStep.bind (inStep_get ?_))
  have hreset := Overlay.reset_on (o := o) (c := c) (h.unaware _ ho) h.graph
  have hmoves := Tenant.Moves.reset (g := w.graph) o
  refine h.inStep_settle ho (Overlay.on c) (fun _ => rfl) ?_ ?_
  · rw [hreset]
    cases o.reset w.graph <;> rfl
  · cases hr : o.reset w.graph <;> rw [hr] at hmoves <;> exact hmoves

theorem inStep_search (a b : VertexId) (config : SearchConfig) :
    InStep (search n a b config) (search n a b config) w w' (SameResult n) (SameTrouble n) := by
  refine InStep.bind (h.inStep_plain fun o c ho ho' => InStep.bind (inStep_get ?_))
  have hsearch := Overlay.search_on (h.alike hw hw' ho ho') (h.unaware _ ho) a b config
  exact h.inStep_settle ho (Overlay.on c) (fun _ => rfl) hsearch (.searched o a b config)

theorem inStep_find (a b : VertexId) :
    InStep (find n a b) (find n a b) w w' (SameResult n) (SameTrouble n) := by
  refine InStep.bind (h.inStep_finder fun f c hf hf' => InStep.bind (inStep_get ?_))
  have hfind := Finder.find_on (h.alike hw hw' hf hf') (h.unaware _ hf) a b
  exact h.inStep_settle hf (Finder.on c) (fun _ => rfl) hfind (.found f a b)

theorem inStep_begin (a b : VertexId) (config : SearchConfig) :
    InStep (begin n a b config) (begin n a b config) w w' (SameResult n) (SameTrouble n) := by
  refine InStep.bind (h.inStep_plain fun o c ho ho' => InStep.bind (inStep_get ?_))
  have hstart : Search.start (o.on c) w'.graph a b config =
      attemptOn c (Overlay.on c) (Search.on c) (Search.start o w.graph a b config) :=
    Search.start_on (h.alike hw hw' ho ho') (h.unaware _ ho) a b config
  rw [hstart]
  cases hs : Search.start o w.graph a b config with
  | ok s =>
    have hu : (Tenant.search s).toOverlay.appraiser.evaluator.Unaware := by
      rw [Tenant.Moves.evaluator (.begun hs)]
      exact h.unaware _ ho
    exact inStep_put ⟨rfl, h.placed hu c⟩
  | error e =>
    obtain ⟨failure, o₁⟩ := e
    have hu : (Tenant.overlay o₁).toOverlay.appraiser.evaluator.Unaware := by
      rw [Tenant.Moves.evaluator (.notBegun hs)]
      exact h.unaware _ ho
    refine InStep.bind (inStep_put (inStep_throw ?_))
    exact ⟨congrArg Trouble.failed (failure.on_on c ⟨0⟩), h.placed hu c⟩

theorem inStep_step : InStep (step n) (step n) w w' (SameResult n) (SameTrouble n) := by
  refine InStep.bind (h.inStep_running fun s c hs hs' => InStep.bind (inStep_get ?_))
  have hstep : (s.on c).step w'.graph = Prod.map id (Search.on c) (s.step w.graph) :=
    Search.step_on (h.alike hw hw' hs hs')
  have hevaluator := Tenant.Moves.evaluator (Tenant.Moves.stepped (g := w.graph) s)
  rw [hstep]
  cases hresult : s.step w.graph with
  | mk result s₁ =>
    rw [hresult] at hevaluator
    have hplaced := h.placed (t := .search s₁) (by rw [hevaluator]; exact h.unaware _ hs) c
    refine InStep.bind (inStep_put ?_)
    cases result with
    | expanded e => exact inStep_pure ⟨rfl, hplaced⟩
    | finished => exact inStep_pure ⟨rfl, hplaced⟩
    | limitReached limit => exact inStep_throw ⟨rfl, hplaced⟩

theorem inStep_run : InStep (run n) (run n) w w' (SameResult n) (SameTrouble n) := by
  refine InStep.bind (h.inStep_running fun s c hs hs' => InStep.bind (inStep_get ?_))
  have hrun := Search.run_on (h.alike hw hw' hs hs')
  exact h.inStep_settle hs (Overlay.on c) (fun _ => rfl) hrun (.ran s)

omit [Cost κ] hw hw' in
theorem inStep_cancel : InStep (cancel n) (cancel n) w w' (SameResult n) (SameTrouble n) := by
  refine InStep.bind (h.inStep_running fun s c hs hs' => ?_)
  exact inStep_put ⟨rfl, h.placed (t := .overlay s.overlay) (h.unaware _ hs) c⟩

/-- One deed at the place comes to the same in both workspaces. -/
theorem inStep_perform (d : Deed V E κ) (hd : ∀ evaluator ∈ d.evaluator?, evaluator.Unaware) :
    InStep (d.perform n) (d.perform n) w w' (SameAnswer n) (SameTrouble n) := by
  have hdone {α : Type} {act : Act V E κ α} {f : α → Answer κ}
      (hact : InStep act act w w' (SameResult n) (SameTrouble n)) :
      InStep (act >>= fun a => pure (f a)) (act >>= fun a => pure (f a)) w w' (SameAnswer n)
        (SameTrouble n) :=
    InStep.bind (hact.imp fun a v a' v' hsame => inStep_pure ⟨by rw [hsame.1], hsame.2⟩)
  cases d with
  | mount evaluator =>
    have hmount := h.inStep_mountAs hw hw' (hd evaluator rfl) .overlay (fun _ => rfl)
      fun _ _ => rfl
    exact InStep.bind (hmount.imp fun _ v _ v' htwins => inStep_pure ⟨rfl, htwins⟩)
  | mountFinder evaluator config =>
    have hmount := h.inStep_mountAs hw hw' (hd evaluator rfl)
      (fun overlay => .finder (Finder.withConfig { overlay } config)) (fun _ => rfl)
      fun _ _ => rfl
    exact InStep.bind (hmount.imp fun _ v _ v' htwins => inStep_pure ⟨rfl, htwins⟩)
  | unmount => exact hdone h.inStep_unmount
  | ask e => exact hdone (h.inStep_ask e)
  | reset => exact hdone h.inStep_reset
  | search a b config => exact hdone (h.inStep_search hw hw' a b config)
  | find a b => exact hdone (h.inStep_find hw hw' a b)
  | begin a b config => exact hdone (h.inStep_begin hw hw' a b config)
  | step => exact hdone (h.inStep_step hw hw')
  | run => exact hdone (h.inStep_run hw hw')
  | cancel => exact hdone h.inStep_cancel
  | look q => exact h.inStep_query hw hw' q

theorem heed (d : Deed V E κ) (hd : ∀ evaluator ∈ d.evaluator?, evaluator.Unaware) :
    nameless (w'.heed n d).1 = nameless (w.heed n d).1 ∧
      Twins n (w.heed n d).2 (w'.heed n d).2 := by
  have hsame := h.inStep_perform hw hw' d hd
  rw [InStep] at hsame
  rw [Workspace.heed, Workspace.heed]
  cases hp : d.perform n w with
  | ok answer v =>
    cases hp' : d.perform n w' with
    | ok answer' v' =>
      rw [hp, hp'] at hsame
      exact ⟨congrArg Except.ok hsame.1, hsame.2⟩
    | error trouble' v' =>
      rw [hp, hp'] at hsame
      exact hsame.elim
  | error trouble v =>
    cases hp' : d.perform n w' with
    | ok answer' v' =>
      rw [hp, hp'] at hsame
      exact hsame.elim
    | error trouble' v' =>
      rw [hp, hp'] at hsame
      exact ⟨congrArg Except.error hsame.1, hsame.2⟩

end Place

omit [Cost κ] in
theorem refl (hu : ∀ t, w.tenants.lookup n = some t → t.toOverlay.appraiser.evaluator.Unaware) :
    Twins n w w := by
  refine ⟨rfl, ?_, hu⟩
  cases hl : w.tenants.lookup n with
  | none => exact ⟨⟨0⟩, rfl⟩
  | some t => exact ⟨t.toOverlay.channel, by cases t <;> rfl⟩

omit [Cost κ] in
theorem of_spares {v v' : Workspace V E κ} (h : Twins n w w') (hs : Spares n w v)
    (hs' : Spares n w' v') : Twins n v v' where
  graph := hs'.graph.trans (h.graph.trans hs.graph.symm)
  lookup := by rw [hs.lookup, hs'.lookup]; exact h.lookup
  unaware := by rw [hs.lookup]; exact h.unaware

/-- What is left out at other places goes unnoticed. Twins stay twins: a deed at the place comes to
the same in both workspaces, and one elsewhere spares the place where it is done. -/
theorem transcript (h : Twins n w w') (hw : w.Reachable) (hw' : w'.Reachable)
    {keep : Nat → Bool} (hkeep : keep n = true) {ds : List (Nat × Deed V E κ)}
    (hds : ∀ p ∈ ds, p.1 = n → ∀ evaluator ∈ p.2.evaluator?, evaluator.Unaware) :
    (w'.transcript n (ds.filter fun p => keep p.1)).map nameless =
        (w.transcript n ds).map nameless ∧
      Twins n (w.heedAll ds) (w'.heedAll (ds.filter fun p => keep p.1)) := by
  induction ds generalizing w w' with
  | nil => exact ⟨rfl, h⟩
  | cons p ds ih =>
    obtain ⟨m, d⟩ := p
    have hrest := fun p hp => hds p (List.mem_cons_of_mem _ hp)
    by_cases hm : m = n
    · subst hm
      have hd := h.heed hw hw' d (hds (m, d) List.mem_cons_self rfl)
      have htail := ih hd.2 (hw.heed m d) (hw'.heed m d) hrest
      simp only [List.filter_cons, if_pos hkeep, Workspace.transcript, heedAll, List.foldl_cons,
        if_true, List.map_cons]
      exact ⟨congrArg₂ List.cons hd.1 htail.1, htail.2⟩
    · have hs := spares_heed hm w d
      by_cases hk : keep m = true
      · have htail := ih (h.of_spares hs (spares_heed hm w' d)) (hw.heed m d) (hw'.heed m d) hrest
        simp only [List.filter_cons, if_pos hk, Workspace.transcript, heedAll, List.foldl_cons,
          if_neg hm]
        exact htail
      · have htail := ih (h.of_spares hs (.refl n w')) (hw.heed m d) hw' hrest
        simp only [List.filter_cons, if_neg hk, Workspace.transcript, heedAll, List.foldl_cons,
          if_neg hm]
        exact htail

end Twins

/-- Overlays on one graph do not get in each other's way. Whatever is done at other places in
between, and whichever of those places are left out altogether, the user at one place is told the
same, and the overlay there is the same, but for the channel it is on. -/
theorem Reachable.isolated (h : w.Reachable) (n : Nat)
    (hu : ∀ t, w.tenants.lookup n = some t → t.toOverlay.appraiser.evaluator.Unaware)
    {ds : List (Nat × Deed V E κ)}
    (hds : ∀ p ∈ ds, p.1 = n → ∀ evaluator ∈ p.2.evaluator?, evaluator.Unaware)
    (keep : Nat → Bool) (hkeep : keep n = true) :
    (w.transcript n (ds.filter fun p => keep p.1)).map nameless =
        (w.transcript n ds).map nameless ∧
      ∃ c, (w.heedAll (ds.filter fun p => keep p.1)).tenants.lookup n =
        ((w.heedAll ds).tenants.lookup n).map (Tenant.on c) := by
  have htwins := (Twins.refl hu).transcript h h hkeep hds
  exact ⟨htwins.1, htwins.2.lookup⟩

/-- A neighbour searches, leaves and comes back while a search is under way. Without it the overlay
gets another channel and finds the same way. -/
theorem Reachable.isolated_neighbour :
    ∃ (w : Workspace Unit Unit Float) (ds : List (Nat × Deed Unit Unit Float)), w.Reachable ∧
      (w.heedAll ds).channels = [⟨1⟩, ⟨0⟩] ∧
      (w.heedAll (ds.filter fun p => p.1 == 1)).channels = [⟨0⟩] ∧
      Except.ok (Answer.path ⟨[⟨⟨0, 0⟩, ⟨0, 0⟩, 1⟩, ⟨⟨1, 0⟩, ⟨1, 0⟩, 2⟩]⟩) ∈ w.transcript 1 ds ∧
      (w.transcript 1 (ds.filter fun p => p.1 == 1)).map nameless =
        (w.transcript 1 ds).map nameless := by
  let rs : List (Request Unit Unit Float) := [
    .addVertices [(), (), ()], .link ⟨0, 0⟩ ⟨1, 0⟩ .directed (),
    .link ⟨1, 0⟩ ⟨2, 0⟩ .directed ()]
  let ds : List (Nat × Deed Unit Unit Float) := [
    (0, .mount (.constant 7)), (1, .mount (.constant 1)), (1, .begin ⟨0, 0⟩ ⟨2, 0⟩ {}),
    (0, .search ⟨0, 0⟩ ⟨2, 0⟩ {}), (0, .unmount), (1, .step), (1, .look .progress),
    (0, .mountFinder (.constant 7) {}), (0, .find ⟨0, 0⟩ ⟨1, 0⟩), (1, .run), (1, .look .marks)]
  have hreach : (rs.foldl obey {}).Reachable := ⟨rs, rfl⟩
  have hempty : (rs.foldl obey {}).tenants = [] := by decide +kernel
  have hconstant : ∀ p ∈ ds, p.1 = 1 → ∀ evaluator ∈ p.2.evaluator?, evaluator = .constant 1 := by
    simp [ds, Deed.evaluator?]
  have hisolated := hreach.isolated 1 (fun t ht => by rw [hempty] at ht; cases ht)
    (fun p hp hn evaluator he => by
      rw [hconstant p hp hn evaluator he]
      exact Evaluator.unaware_constant 1)
    (· == 1) rfl
  exact ⟨_, ds, hreach, by decide +kernel, by decide +kernel, by decide +kernel, hisolated.1⟩

end Waymark.Workspace
