import Waymark.Proofs.Search.Rechannel
import Waymark.Proofs.Workspace.Issue

namespace Waymark

variable {V E κ : Type}

/-! Answers apart from channels -/

/-- The same answer of an overlay on another channel. -/
def Answer.on (c : Channel) : Answer κ → Answer κ
  | channel _ => channel c
  | answer => answer

def Trouble.on (c : Channel) : Trouble κ → Trouble κ
  | refused refusal => refused refusal
  | failed failure => failed (failure.on c)

/-- What a deed comes to, without the channel it came to it on. -/
def nameless : Except (Trouble κ) (Answer κ) → Except (Trouble κ) (Answer κ)
  | .ok answer => .ok (answer.on ⟨0⟩)
  | .error trouble => .error (trouble.on ⟨0⟩)

theorem Failure.on_on (failure : Failure κ) (c d : Channel) :
    (failure.on c).on d = failure.on d := by
  cases failure <;> rfl

namespace Workspace

variable [Cost κ] {w : Workspace V E κ}

/-- What a deed at a place comes to, and what it makes of the workspace. -/
def heed (w : Workspace V E κ) (n : Nat) (d : Deed V E κ) :
    Except (Trouble κ) (Answer κ) × Workspace V E κ :=
  match d.perform n w with
  | .ok answer w' => (.ok answer, w')
  | .error trouble w' => (.error trouble, w')

def heedAll (w : Workspace V E κ) (ds : List (Nat × Deed V E κ)) : Workspace V E κ :=
  ds.foldl (fun w p => (w.heed p.1 p.2).2) w

/-- What the user at one place is told, while deeds are done at all places in turn. -/
def transcript (w : Workspace V E κ) (n : Nat) :
    List (Nat × Deed V E κ) → List (Except (Trouble κ) (Answer κ))
  | [] => []
  | (m, d) :: ds =>
    let (outcome, w') := w.heed m d
    if m = n then outcome :: w'.transcript n ds else w'.transcript n ds

/-! What deeds lead to -/

theorem Ends.heed {n : Nat} {d : Deed V E κ} {P : Workspace V E κ → Prop}
    (h : Ends (d.perform n) w (fun _ w' => P w') fun _ w' => P w') : P (w.heed n d).2 := by
  rw [Ends] at h
  rw [Workspace.heed]
  cases hd : d.perform n w <;> rw [hd] at h <;> exact h

theorem heed_snd (w : Workspace V E κ) (n : Nat) (d : Deed V E κ) :
    (w.heed n d).2 = w.obey (.deed n d) := by
  rw [heed, obey, Request.perform]
  simp only [bind, EStateM.bind]
  cases d.perform n w <;> rfl

theorem Reachable.heed (h : w.Reachable) (n : Nat) (d : Deed V E κ) :
    (w.heed n d).2.Reachable := by
  rw [heed_snd]
  exact h.next (.deed n d)

/-! What deeds leave alone -/

theorem lookup_cons_eq_ite {α : Type} (p : Nat × α) (l : List (Nat × α)) (n : Nat) :
    (p :: l).lookup n = if n = p.1 then some p.2 else l.lookup n := by
  rw [List.lookup_cons]
  by_cases hn : n = p.1
  · simp [hn]
  · simp [hn, beq_false_of_ne hn]

theorem lookup_filter_ne {α : Type} (l : List (Nat × α)) (m n : Nat) :
    (l.filter (·.1 ≠ m)).lookup n = if n = m then none else l.lookup n := by
  induction l with
  | nil => simp
  | cons p l ih =>
    rw [lookup_cons_eq_ite]
    by_cases hp : p.1 = m
    · rw [List.filter_cons_of_neg (by simpa using hp), ih, hp]
      split <;> rfl
    · rw [List.filter_cons_of_pos (by simpa using hp), lookup_cons_eq_ite, ih]
      by_cases hn : n = p.1
      · rw [if_pos hn, if_pos hn, if_neg (hn ▸ hp)]
      · rw [if_neg hn, if_neg hn]

omit [Cost κ] in
theorem lookup_placed (w : Workspace V E κ) (m n : Nat) (t : Tenant V E κ) :
    (w.placed m t).tenants.lookup n = if n = m then some t else w.tenants.lookup n := by
  rw [placed, lookup_cons_eq_ite, lookup_filter_ne]
  split <;> rfl

omit [Cost κ] in
/-- All that the user of a place can notice is as it was. -/
structure Spares (n : Nat) (w w' : Workspace V E κ) : Prop where
  graph : w'.graph.bare = w.graph.bare
  lookup : w'.tenants.lookup n = w.tenants.lookup n

section Spares

variable {m n : Nat} (hm : m ≠ n)

omit [Cost κ] in
theorem Spares.refl (n : Nat) (w : Workspace V E κ) : Spares n w w := ⟨rfl, rfl⟩

include hm

omit [Cost κ] in
theorem Spares.placed {g' : Graph V E} (hb : g'.bare = w.graph.bare) (t : Tenant V E κ) :
    Spares n w ({ w with graph := g' }.placed m t) :=
  ⟨hb, by rw [lookup_placed, if_neg hm.symm]⟩

omit [Cost κ] in
theorem spares_settle {α β : Type} (w : Workspace V E κ) (wrap : β → Tenant V E κ)
    (r : Except (Failure κ × β) (α × β)) :
    Ends (settle m wrap r) w (fun _ w' => Spares n w w') fun _ w' => Spares n w w' := by
  cases r with
  | ok p => exact Ends.bind (ends_put (ends_pure (.placed hm rfl _)))
  | error e => exact Ends.bind (ends_put (ends_throw (.placed hm rfl _)))

theorem spares_mountAs (w : Workspace V E κ) (evaluator : Evaluator V E κ)
    (wrap : Overlay V E κ → Tenant V E κ) :
    Ends (mountAs m evaluator wrap) w (fun _ w' => Spares n w w') fun _ w' => Spares n w w' := by
  rw [mountAs]
  refine Ends.bind (Ends.bind (ends_get ?_))
  cases hn : w.tenants.lookup m with
  | some t => exact ends_throw (.refl n w)
  | none =>
    refine ends_pure (Ends.bind (ends_get ?_))
    cases hmount : w.graph.mount evaluator with
    | mk mounted g' =>
      have hb := (Graph.redecorated_mount hmount).bare_eq
      refine Ends.bind (ends_modify ?_)
      cases mounted with
      | error e => exact ends_throw ⟨hb, rfl⟩
      | ok o => exact Ends.bind (ends_put (ends_pure (.placed hm hb _)))

/-- A deed at another place spares this one. -/
theorem spares_perform (w : Workspace V E κ) (d : Deed V E κ) :
    Ends (d.perform m) w (fun _ w' => Spares n w w') fun _ w' => Spares n w w' := by
  have hR : ∀ refusal : Refusal, (fun (_ : Trouble κ) w' => Spares n w w') (.refused refusal) w :=
    fun _ => .refl n w
  cases d with
  | mount evaluator => exact Ends.map (spares_mountAs hm w evaluator _)
  | mountFinder evaluator config => exact Ends.map (spares_mountAs hm w evaluator _)
  | unmount =>
    refine Ends.map (Ends.bind (ends_tenant hR fun t ht => ends_modify ?_))
    exact ⟨(t.toOverlay.redecorated_unmount .refl).bare_eq,
      by rw [lookup_filter_ne, if_neg hm.symm]⟩
  | ask e =>
    refine Ends.map (Ends.bind (ends_idle hR fun t ht _ => Ends.bind (ends_get (Ends.bind ?_))))
    refine ends_found (fun _ => .refl n w) fun edge he => Ends.bind (ends_tenant hR fun t' _ => ?_)
    cases t' <;> exact Ends.bind (ends_put (ends_pure (.placed hm rfl _)))
  | reset =>
    exact Ends.map (Ends.bind (ends_plain hR fun o ho => Ends.bind (ends_get (spares_settle hm w _ _))))
  | search a b config =>
    exact Ends.map (Ends.bind (ends_plain hR fun o ho => Ends.bind (ends_get (spares_settle hm w _ _))))
  | find a b =>
    exact Ends.map (Ends.bind (ends_finder hR fun f hf => Ends.bind (ends_get (spares_settle hm w _ _))))
  | begin a b config =>
    refine Ends.map (Ends.bind (ends_plain hR fun o ho => Ends.bind (ends_get ?_)))
    cases Search.start o w.graph a b config with
    | ok s => exact ends_put (.placed hm rfl _)
    | error e => exact Ends.bind (ends_put (ends_throw (.placed hm rfl _)))
  | step =>
    refine Ends.map (Ends.bind (ends_running hR fun s hs => Ends.bind (ends_get ?_)))
    cases s.step w.graph with
    | mk result s' =>
      refine Ends.bind (ends_put ?_)
      cases result with
      | limitReached limit => exact ends_throw (.placed hm rfl _)
      | expanded e => exact ends_pure (.placed hm rfl _)
      | finished => exact ends_pure (.placed hm rfl _)
  | run =>
    exact Ends.map (Ends.bind (ends_running hR fun s hs => Ends.bind (ends_get (spares_settle hm w _ _))))
  | cancel => exact Ends.map (Ends.bind (ends_running hR fun s hs => ends_put (.placed hm rfl _)))
  | look q => exact ends_query m q (fun _ => .refl n w) hR fun _ _ _ _ => .refl n w

end Spares

theorem spares_heed {m n : Nat} (hm : m ≠ n) (w : Workspace V E κ) (d : Deed V E κ) :
    Spares n w (w.heed m d).2 := Ends.heed (spares_perform hm w d)

end Workspace

end Waymark
