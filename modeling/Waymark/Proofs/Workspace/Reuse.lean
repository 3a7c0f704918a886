import Waymark.Proofs.Search.Reuse
import Waymark.Proofs.Workspace.Life
import Waymark.Proofs.Workspace.Registry

namespace Waymark

variable {V E κ : Type} [Cost κ] {g : Graph V E} {o : Overlay V E κ}

theorem Finder.reported_find (f : Finder V E κ) (g : Graph V E) (a b : VertexId) :
    reported (f.find g a b) = reported (f.overlay.search g a b f.config) := by
  rw [Finder.find]
  cases f.overlay.search g a b f.config <;> rfl

/-- A graph that requests bring about has a vacant channel for one more overlay. -/
theorem Graph.Hosts.vacant (h : g.Hosts o) : g.Vacant g.acquireChannel.1 := by
  obtain ⟨w, hw, rfl, _⟩ := h
  exact hw.registered.vacant hw.sound.not_mem_channels

theorem Evaluator.quotes_constant {cost : κ} (h : Cost.admissible cost = true) (g : Graph V E) :
    (Evaluator.constant cost).Quotes g fun _ => cost := ⟨fun _ _ => rfl, fun _ => h⟩

/-! Two requests that bring overlays about -/

namespace Workspace

variable {w : Workspace V E κ} {n : Nat}

theorem obey_of_ends {r : Request V E κ} {w' : Workspace V E κ}
    (h : Ends r.perform w (fun _ v => v = w') fun _ v => v = w') : w.obey r = w' := by
  rw [Ends] at h
  rw [obey]
  cases hr : r.perform w <;> rw [hr] at h <;> exact h

theorem obey_mount {evaluator : Evaluator V E κ} {g' : Graph V E}
    (hn : w.tenants.lookup n = none) (h : w.graph.mount evaluator = (.ok o, g')) :
    w.obey (.deed n (.mount evaluator)) = ({ w with graph := g' }.placed n (.overlay o)) := by
  refine obey_of_ends (Ends.bind (Ends.bind (Ends.bind (Ends.bind (ends_get ?_)))))
  rw [hn]
  refine ends_pure (Ends.bind (ends_get ?_))
  rw [h]
  exact Ends.bind (ends_modify (Ends.bind (ends_put (ends_pure (ends_pure (ends_pure rfl))))))

theorem obey_search (hn : w.tenants.lookup n = some (.overlay o)) (a b : VertexId)
    (config : SearchConfig) : w.obey (.deed n (.search a b config)) =
      w.placed n (.overlay (givenBack (o.search w.graph a b config))) := by
  refine obey_of_ends (Ends.bind (Ends.bind (Ends.bind (Ends.bind (Ends.bind (ends_get ?_))))))
  rw [hn]
  refine ends_pure (ends_pure (Ends.bind (ends_get ?_)))
  cases o.search w.graph a b config with
  | ok result => exact Ends.bind (ends_put (ends_pure (ends_pure (ends_pure rfl))))
  | error e => exact Ends.bind (ends_put (ends_throw rfl))

end Workspace

/-- While the same prices are quoted, an overlay with any history searches like a new one. Both
report the same, except that over a graph without vertices each names its own channel, and a search
that is let through leaves the same marks. -/
theorem Graph.Hosts.search_reused (h : g.Hosts o) {price : EdgeId → κ}
    (hq : o.appraiser.evaluator.Quotes g price) {evaluator : Evaluator V E κ}
    (he : evaluator.Quotes g price) :
    (∃ o' g', g.mount evaluator = (.ok o', g')) ∧
      ∀ {g₁ g' : Graph V E} {o' : Overlay V E κ}, g₁.bare = g.bare →
        g₁.mount evaluator = (.ok o', g') → ∀ (a b : VertexId) (config : SearchConfig),
        let used := o.search g a b config
        let new := o'.search g' a b config
        reported new = (reported used).mapError (.on o'.channel) ∧
          (o'.channel = o.channel → reported new = reported used) ∧
          (g.vertices.contains a = true ∧ g.vertices.contains b = true ∧ a ≠ b →
            (givenBack new).vertices = (givenBack used).vertices ∧
              (givenBack new).edges = (givenBack used).edges ∧
              (∀ v, (givenBack new).vertexMark g' v = (givenBack used).vertexMark g v) ∧
              ∀ e, (givenBack new).edgeMark g' e = (givenBack used).edgeMark g e) ∧
          let f : Finder V E κ := { overlay := o, config }
          let f' : Finder V E κ := { overlay := o', config }
          reported (f.find g a b) = reported used ∧ reported (f'.find g' a b) = reported new ∧
            (givenBack (f.find g a b)).overlay = givenBack used ∧
            (givenBack (f'.find g' a b)).overlay = givenBack new := by
  obtain ⟨rounds, hlived⟩ := h.lived
  obtain ⟨⟨es, hm⟩, hsound⟩ := h.sound
  refine ⟨Graph.mount_of_quotes hm h.vacant he, fun {g₁ g' o'} hb hmount a b config => ?_⟩
  have hm₁ := Graph.mirrors_of_bare hb hm
  obtain ⟨hb', _, hevaluator, _⟩ := Graph.mount_entered hm₁ hmount
  have hquotes' : o'.appraiser.evaluator.Quotes g price := by rw [hevaluator]; exact he
  obtain ⟨hreport, hmarks⟩ := hlived.search_alike (.mounted hm₁ hmount) (hb'.trans hb) hq hquotes'
    a b config
  refine ⟨hreport, fun hc => ?_, fun hlet => ?_, Finder.reported_find _ g a b,
    Finder.reported_find _ g' a b, (Finder.overlay_find _ g a b).1,
    (Finder.overlay_find _ g' a b).1⟩
  · have hown := (hlived.search_alike hlived rfl hq hq a b config).1
    rw [hreport, hc]
    exact hown.symm
  · have halike := hmarks ((Search.refusal?_eq_none hsound.fits).mpr hlet)
    exact ⟨halike.vertices, halike.edges, halike.vertexMark, halike.edgeMark⟩

/-- An overlay is given back by a search that came to its limit with an edge still waiting. -/
theorem Graph.Hosts.search_reused_aborted :
    ∃ (g g' : Graph Unit Unit) (o o' : Overlay Unit Unit Float), g.Hosts o ∧
      o.edges.map EdgeMark.state = #[.explored, .discovered] ∧
      g.mount (.constant 1) = (.ok o', g') ∧ ∀ config,
        reported (o'.search g' ⟨0, 0⟩ ⟨2, 0⟩ config) =
          (reported (o.search g ⟨0, 0⟩ ⟨2, 0⟩ config)).mapError (.on o'.channel) := by
  let limited : SearchConfig := { maxExpansions? := some 1 }
  obtain ⟨w, hw, hfree, hleft⟩ : ∃ w : Workspace Unit Unit Float, w.Reachable ∧
      w.tenants.lookup 0 = none ∧
      let mounted := w.graph.mount (.constant (1 : Float))
      ∀ o ∈ mounted.1.toOption,
        (givenBack (o.search mounted.2 ⟨0, 0⟩ ⟨2, 0⟩ limited)).edges.map EdgeMark.state =
          #[.explored, .discovered] := by
    let rs : List (Request Unit Unit Float) := [
      .addVertices [(), (), ()], .link ⟨0, 0⟩ ⟨1, 0⟩ .directed (),
      .link ⟨1, 0⟩ ⟨2, 0⟩ .directed ()]
    exact ⟨rs.foldl Workspace.obey {}, ⟨rs, rfl⟩, by decide +kernel, by decide +kernel⟩
  obtain ⟨es, hm⟩ := hw.sound.mirrors
  have hquotes := Evaluator.quotes_constant (show Cost.admissible (1 : Float) = true by
    decide +kernel) w.graph
  obtain ⟨o, g, hmount⟩ := Graph.mount_of_quotes hm
    (hw.registered.vacant hw.sound.not_mem_channels) hquotes
  obtain ⟨hbare, _, hevaluator, _⟩ := Graph.mount_entered hm hmount
  have hmounted := hw.next (.deed 0 (.mount (.constant 1)))
  rw [Workspace.obey_mount hfree hmount] at hmounted
  have hsearched := hmounted.next (.deed 0 (.search ⟨0, 0⟩ ⟨2, 0⟩ limited))
  rw [Workspace.obey_search rfl] at hsearched
  have hhosts : g.Hosts (givenBack (o.search g ⟨0, 0⟩ ⟨2, 0⟩ limited)) :=
    ⟨_, hsearched, rfl, _, List.mem_cons_self, rfl⟩
  have hreused := hhosts.search_reused
    (by rw [Overlay.evaluator_search, hevaluator]; exact hquotes.of_bare hbare)
    (hquotes.of_bare hbare)
  obtain ⟨o', g', hnew⟩ := hreused.1
  rw [hmount] at hleft
  exact ⟨g, g', _, o', hhosts, hleft o rfl, hnew, fun config => (hreused.2 rfl hnew _ _ config).1⟩

end Waymark
