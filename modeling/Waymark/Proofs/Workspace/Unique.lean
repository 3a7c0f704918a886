import Waymark.Proofs.Graph.Unique
import Waymark.Proofs.Workspace.Issue

namespace Waymark.Workspace

open Waymark.Graph (Succeeds Redecorated)

variable {V E κ : Type} [Cost κ] {w w' : Workspace V E κ} {es : List EdgeId}

/-- What requests make of an empty workspace, and the edges then live in order of creation. -/
def chronology (rs : List (Request V E κ)) : Workspace V E κ × List EdgeId :=
  rs.foldl (fun p r => (p.1.obey r, (p.1.obey r).graph.seniority p.2)) ({}, [])

theorem chronology_append (rs : List (Request V E κ)) (r : Request V E κ) :
    chronology (rs ++ [r]) = ((chronology rs).1.obey r,
      ((chronology rs).1.obey r).graph.seniority (chronology rs).2) := by
  rw [chronology, List.foldl_append]
  rfl

theorem succeeds_of_redecorated {g g' : Graph V E} (h : g.Redecorated g') (hm : g.Mirrors es) :
    ∃ es', Succeeds g g' es es' ∧ g'.Mirrors es' :=
  ⟨es, .same h.declaration?, h.mirrors hm⟩

theorem Turn.succeeds {trouble? : Option (Trouble κ)} (ht : w.Turn trouble? w')
    (hm : w.graph.Mirrors es) :
    ∃ es', Succeeds w.graph w'.graph es es' ∧ w'.graph.Mirrors es' := by
  cases ht with
  | refused refusal => exact succeeds_of_redecorated .refl hm
  | missing m => exact succeeds_of_redecorated .refl hm
  | answered => exact succeeds_of_redecorated .refl hm
  | unanswered hn hfailure => exact succeeds_of_redecorated .refl hm
  | edited hempty hg vertices edges => exact hg.succeeds hm
  | mounted hn hmount ht hidle =>
    exact succeeds_of_redecorated (Graph.redecorated_mount hmount) hm
  | notMounted hmount => exact succeeds_of_redecorated (Graph.redecorated_mount hmount) hm
  | @unmounted n t hn =>
    exact succeeds_of_redecorated (t.toOverlay.redecorated_unmount .refl) hm
  | moved hn hmoves => exact succeeds_of_redecorated .refl hm

/-- All through a history the lists mirror the edges in order of creation, and no edge is declared
where an older one leads. -/
theorem chronology_unrepeated (rs : List (Request V E κ)) :
    (chronology rs).1.graph.Mirrors (chronology rs).2 ∧
      (chronology rs).1.graph.Unrepeated (chronology rs).2 := by
  induction rs using List.reverseRecOn with
  | nil => exact ⟨.empty, .empty⟩
  | append_singleton rs r ih =>
    obtain ⟨hm, hu⟩ := ih
    obtain ⟨trouble?, ht⟩ := (chronology rs).1.turn_obey r
    obtain ⟨es', hs, hm'⟩ := ht.succeeds hm
    rw [chronology_append, hs.eq_seniority hm.nodup hm'.nodup hm'.mem_iff]
    exact ⟨hm', hu.succeeds hs⟩

/-- No two live edges are declared alike, and one edge at most leads from `a` to `b`, unless they
are doubled: then there are two, the directed one is found, and the other one on the way back. -/
theorem edges_unique {rs : List (Request V E κ)} (h : chronology rs = (w, es)) :
    (es.Nodup ∧ ∀ e, e ∈ es ↔ ∃ edge, w.graph.edge e = .ok edge) ∧
      (∀ d e x y, w.graph.edge d = .ok x → w.graph.edge e = .ok y → x.tail = y.tail →
        x.head = y.head → d = e) ∧
      ∀ a b, (es.filter (w.graph.leads a b)).length ≤ 2 ∧
        ((es.filter (w.graph.leads a b)).length = 2 ↔ ∃ d e, w.graph.Doubled es a b d e) ∧
        ∀ d e, w.graph.Doubled es a b d e →
          es.filter (w.graph.leads a b) = [d, e] ∧ w.graph.findEdge? a b = some d ∧
            (∀ kind data, w.graph.link a b kind data = .ok (d, w.graph)) ∧
            w.graph.findEdge? b a = some e ∧ e ≠ d := by
  obtain ⟨hm, hu⟩ := chronology_unrepeated rs
  rw [h] at hm hu
  refine ⟨⟨hm.nodup, fun e => ?_⟩, fun d e x y hd he ht hh => ?_, fun a b => ?_⟩
  · simp only [hm.mem_iff, Arena.contains_iff, Graph.edge_eq_ok]
  · exact hu.eq_of_ends hm (Graph.edge_eq_ok.mp hd) (Graph.edge_eq_ok.mp he) ht hh
  · obtain ⟨hle, htwo⟩ := hu.length_filter_leads a b
    refine ⟨hle, htwo, fun d e hde => ?_⟩
    obtain ⟨hforth, hback, hne⟩ := hu.findEdge?_doubled hm hde
    exact ⟨hu.filter_leads hde, hforth, hm.link_eq_found hforth, hback, hne⟩

/-- A bidirectional edge declared against a directed one. -/
theorem edges_unique_doubled :
    ∃ (rs : List (Request Unit Unit Float)) (w : Workspace Unit Unit Float) (d e : EdgeId),
      chronology rs = (w, [d, e]) ∧ w.graph.Doubled [d, e] ⟨0, 0⟩ ⟨1, 0⟩ d e ∧
        w.graph.findEdge? ⟨0, 0⟩ ⟨1, 0⟩ = some d ∧ w.graph.findEdge? ⟨1, 0⟩ ⟨0, 0⟩ = some e := by
  let rs : List (Request Unit Unit Float) := [.addVertices [(), ()],
    .link ⟨0, 0⟩ ⟨1, 0⟩ .directed (), .link ⟨1, 0⟩ ⟨0, 0⟩ .bidirectional ()]
  have h : chronology rs = ((chronology rs).1, [⟨0, 0⟩, ⟨1, 0⟩]) :=
    Prod.ext rfl (by decide +kernel)
  have hd : (chronology rs).1.graph.Doubled [⟨0, 0⟩, ⟨1, 0⟩] ⟨0, 0⟩ ⟨1, 0⟩ ⟨0, 0⟩ ⟨1, 0⟩ :=
    ⟨by decide, by decide +kernel, by decide +kernel, List.Sublist.refl _⟩
  obtain ⟨_, hforth, _, hback, _⟩ := ((edges_unique h).2.2 _ _).2.2 _ _ hd
  exact ⟨rs, _, _, _, h, hd, hforth, hback⟩

end Waymark.Workspace
