import Waymark.Proofs.Graph.Count
import Waymark.Proofs.Search.Inquiry
import Waymark.Proofs.Workspace.Deed
import Waymark.Proofs.Workspace.Reuse

namespace Waymark

variable {V E κ : Type}

/-- How many of the searches let through were not the first one since the last reset, or at all. The
latest comes first. -/
def repeats : List Episode → Nat
  | [] => 0
  | .reset :: es => repeats es
  | .accepted :: es =>
    repeats es + if .accepted ∈ es.takeWhile (· ≠ .reset) then 1 else 0

/-- How often an evaluator has gone over all edges. -/
def passes (es : List Episode) : Nat := 1 + es.count .reset + repeats es

theorem flatten_replicate_succ {α : Type} (n : Nat) (l : List α) :
    (List.replicate (n + 1) l).flatten = (List.replicate n l).flatten ++ l := by
  rw [List.replicate_succ', List.flatten_concat]

/-- The note of a search since the costs were taken says just that. -/
theorem foldr_on (a : Appraiser V E κ) (ids : List EdgeId) (es : List Episode) :
    es.foldr (Episode.on ids) (a.through ids, false) =
      (a.through (List.replicate (passes es) ids).flatten,
        decide (.accepted ∈ es.takeWhile (· ≠ .reset))) := by
  induction es with
  | nil => simp [passes, repeats]
  | cons e es ih =>
    rw [List.foldr_cons, ih]
    cases e with
    | reset =>
      have hpasses : passes (.reset :: es) = passes es + 1 := by
        simp only [passes, repeats, List.count_cons_self]
        omega
      rw [hpasses, flatten_replicate_succ, Episode.on, Appraiser.through_through]
      rfl
    | accepted =>
      have hcount : (.accepted :: es).count Episode.reset = es.count .reset :=
        List.count_cons_of_ne (show Episode.accepted ≠ .reset by decide)
      by_cases hagain : .accepted ∈ es.takeWhile (· ≠ .reset)
      · have hpasses : passes (.accepted :: es) = passes es + 1 := by
          simp only [passes, repeats, hagain, if_true, hcount]
          omega
        rw [hpasses, flatten_replicate_succ, Episode.on, decide_eq_true hagain, if_pos rfl,
          Appraiser.through_through]
        simp
      · have hpasses : passes (.accepted :: es) = passes es := by
          simp only [passes, repeats, hagain, if_false, hcount, Nat.add_zero]
        rw [hpasses, Episode.on, decide_eq_false hagain]
        simp

/-- What a deed counts as, unless it is refused. -/
def Deed.episode? (g : Graph V E) : Deed V E κ → Option Episode
  | reset => some .reset
  | search a b _ => if g.Admits a b then some .accepted else none
  | find a b => if g.Admits a b then some .accepted else none
  | begin a b _ => if g.Admits a b then some .accepted else none
  | _ => none

def Deed.counted? (g : Graph V E) (d : Deed V E κ) :
    Except (Trouble κ) (Answer κ) → Option Episode
  | .error (.refused _) => none
  | _ => d.episode? g

/-- Whether a deed leaves the overlay at its place and puts no question for its own sake. -/
def Deed.keeps : Deed V E κ → Bool
  | unmount => false
  | ask _ => false
  | _ => true

namespace Workspace

variable [Cost κ] {w : Workspace V E κ} {n : Nat}

/-- What has counted at a place while deeds were done at all places in turn, the latest first. -/
def episodes (w : Workspace V E κ) (n : Nat) : List (Nat × Deed V E κ) → List Episode
  | [] => []
  | (m, d) :: ds =>
    let (outcome, w') := w.heed m d
    w'.episodes n ds ++ if m = n then (d.counted? w.graph outcome).toList else []

omit [Cost κ] in
def account? (w : Workspace V E κ) (n : Nat) : Option (Appraiser V E κ × Bool) :=
  (w.tenants.lookup n).map fun t => t.toOverlay.account

omit [Cost κ] in
/-- The account at a place has gone on by an episode, or not at all. -/
structure Reckons (w : Workspace V E κ) (n : Nat) (account : Appraiser V E κ × Bool)
    (episode? : Option Episode) (w' : Workspace V E κ) : Prop where
  graph : w'.graph = w.graph
  account : w'.account? n =
    some (episode?.elim account fun e => e.on w.graph.edges.ids account)

section Reckons

variable {account : Appraiser V E κ × Bool} {episode? : Option Episode}

omit [Cost κ] in
theorem Reckons.placed {t : Tenant V E κ}
    (h : t.toOverlay.account =
      episode?.elim account fun e => e.on w.graph.edges.ids account) :
    Reckons w n account episode? (w.placed n t) where
  graph := rfl
  account := by rw [account?, lookup_placed, if_pos rfl, Option.map_some, h]

/-- Its evaluator is the one that was there before. -/
theorem Reckons.reliable {w' : Workspace V E κ} (h : Reckons w n account episode? w')
    (ha : account.1.evaluator.Reliable w.graph) :
    (episode?.elim account fun e => e.on w.graph.edges.ids account).1.evaluator.Reliable
      w'.graph := by
  rw [h.graph]
  cases episode? with
  | none => exact ha
  | some e =>
    rw [Option.elim_some, e.evaluator_on]
    exact ha

omit [Cost κ] in
/-- The same of an act that ends in trouble. What is refused does not count. -/
def Amiss (w : Workspace V E κ) (n : Nat) (account : Appraiser V E κ × Bool)
    (episode? : Option Episode) : Trouble κ → Workspace V E κ → Prop
  | .refused _ => Reckons w n account none
  | .failed _ => Reckons w n account episode?

omit [Cost κ] in
theorem amiss_refused (hn : w.account? n = some account) (refusal : Refusal) :
    Amiss w n account episode? (.refused refusal) w := ⟨rfl, hn⟩

omit [Cost κ] in
theorem account_of_lookup (hn : w.account? n = some account) {t : Tenant V E κ}
    (ht : w.tenants.lookup n = some t) : account = t.toOverlay.account := by
  rw [account?, ht] at hn
  exact (Option.some.inj hn).symm

omit [Cost κ] in
theorem reckons_settle {α β : Type} {wrap : β → Tenant V E κ}
    {r : Except (Failure κ × β) (α × β)}
    (h : (wrap (givenBack r)).toOverlay.account =
      episode?.elim account fun e => e.on w.graph.edges.ids account) :
    Ends (settle n wrap r) w (fun _ => Reckons w n account episode?)
      (Amiss w n account episode?) := by
  cases r with
  | ok p => exact Ends.bind (ends_put (ends_pure (.placed h)))
  | error e => exact Ends.bind (ends_put (ends_throw (Reckons.placed h)))

/-- What holds of every overlay that was brought about by requests. -/
theorem Reachable.entered (h : w.Reachable) {t : Tenant V E κ}
    (hn : w.tenants.lookup n = some t) : (∃ es, w.graph.Mirrors es) ∧
      t.toOverlay.Fits w.graph ∧ t.toOverlay.Listed w.graph := by
  obtain ⟨rounds, hlived⟩ := h.alive _ (Sound.mem_of_lookup hn)
  exact ⟨hlived.aged.mirrors, hlived.aged.sound.fits, hlived.aged.listed⟩

/-! One deed at the place -/

section Deeds

variable (h : w.Reachable) (hn : w.account? n = some account)
  (ha : account.1.evaluator.Reliable w.graph)

include hn

/-- No overlay is mounted where there is one. -/
theorem reckons_mountAs (evaluator : Evaluator V E κ) (wrap : Overlay V E κ → Tenant V E κ) :
    Ends (mountAs n evaluator wrap) w (fun _ => Reckons w n account none)
      (Amiss w n account none) := by
  obtain ⟨t, ht, _⟩ := Option.map_eq_some_iff.mp hn
  refine Ends.bind (Ends.bind (ends_get ?_))
  rw [ht]
  exact ends_throw (amiss_refused hn _)

theorem reckons_step : Ends (step n) w (fun _ => Reckons w n account none)
    (Amiss w n account none) := by
  refine Ends.bind (ends_running (amiss_refused hn) fun s hs => Ends.bind (ends_get ?_))
  obtain rfl := account_of_lookup hn hs
  have hstep := (s.follows_step (g := w.graph)).touched.account
  cases hs' : s.step w.graph with
  | mk result s' =>
    rw [hs'] at hstep
    refine Ends.bind (ends_put ?_)
    cases result with
    | limitReached limit => exact ends_throw (Reckons.placed hstep)
    | expanded e => exact ends_pure (.placed hstep)
    | finished => exact ends_pure (.placed hstep)

theorem reckons_run : Ends (run n) w (fun _ => Reckons w n account none)
    (Amiss w n account none) := by
  refine Ends.bind (ends_running (amiss_refused hn) fun s hs => Ends.bind (ends_get
    (reckons_settle ?_)))
  obtain rfl := account_of_lookup hn hs
  exact s.touched_run.account

omit [Cost κ] in
theorem reckons_cancel : Ends (cancel n) w (fun _ => Reckons w n account none)
    (Amiss w n account none) := by
  refine Ends.bind (ends_running (amiss_refused hn) fun s hs => ends_put (.placed ?_))
  exact (account_of_lookup hn hs).symm

include h ha

theorem reckons_reset : Ends (reset n) w (fun _ => Reckons w n account (some .reset))
    (Amiss w n account (some .reset)) := by
  refine Ends.bind (ends_plain (amiss_refused hn) fun o ho => Ends.bind (ends_get
    (reckons_settle ?_)))
  obtain rfl := account_of_lookup hn ho
  obtain ⟨⟨es, hm⟩, _, hl⟩ := h.entered ho
  obtain ⟨o', hr⟩ := Overlay.reset_of_reliable hl ha
  change o.reset w.graph = _ at hr
  rw [hr]
  exact Overlay.account_reset hm hl hr

/-- What a search leaves of the overlay it was asked of. -/
theorem account_searched {t : Tenant V E κ} (ht : w.tenants.lookup n = some t) (a b : VertexId)
    (config : SearchConfig) : (givenBack (t.toOverlay.search w.graph a b config)).account =
      (if w.graph.Admits a b then some Episode.accepted else none).elim account fun e =>
        e.on w.graph.edges.ids account := by
  obtain rfl := account_of_lookup hn ht
  obtain ⟨⟨es, hm⟩, hf, hl⟩ := h.entered ht
  rw [Overlay.account_search hm hf hl ha]
  split <;> rfl

theorem reckons_search (a b : VertexId) (config : SearchConfig) :
    let episode? := if w.graph.Admits a b then some .accepted else none
    Ends (search n a b config) w (fun _ => Reckons w n account episode?)
      (Amiss w n account episode?) :=
  Ends.bind (ends_plain (amiss_refused hn) fun _ ho => Ends.bind (ends_get
    (reckons_settle (account_searched h hn ha ho a b config))))

theorem reckons_find (a b : VertexId) :
    let episode? := if w.graph.Admits a b then some .accepted else none
    Ends (find n a b) w (fun _ => Reckons w n account episode?) (Amiss w n account episode?) := by
  refine Ends.bind (ends_finder (amiss_refused hn) fun f hf => Ends.bind (ends_get
    (reckons_settle ?_)))
  have hback := congrArg Overlay.account (f.overlay_find w.graph a b).1
  exact hback.trans (account_searched h hn ha hf a b f.config)

theorem reckons_begin (a b : VertexId) (config : SearchConfig) :
    let episode? := if w.graph.Admits a b then some .accepted else none
    Ends (begin n a b config) w (fun _ => Reckons w n account episode?)
      (Amiss w n account episode?) := by
  refine Ends.bind (ends_plain (amiss_refused hn) fun o ho => Ends.bind (ends_get ?_))
  obtain rfl := account_of_lookup hn ho
  obtain ⟨⟨es, hm⟩, hf, hl⟩ := h.entered ho
  by_cases hab : w.graph.Admits a b
  · obtain ⟨s, hs⟩ := Search.start_of_admits hf hl ha hab config
    change Search.start o w.graph a b config = _ at hs
    rw [hs, if_pos hab]
    exact ends_put (.placed (Search.account_start hm hl hs))
  · obtain ⟨failure, hs⟩ := Search.start_of_not_admits hf hab config
    change Search.start o w.graph a b config = _ at hs
    rw [hs, if_neg hab]
    exact Ends.bind (ends_put (ends_throw (Reckons.placed rfl)))

theorem reckons_perform {d : Deed V E κ} (hd : d.keeps = true) :
    Ends (d.perform n) w (fun _ => Reckons w n account (d.episode? w.graph))
      (Amiss w n account (d.episode? w.graph)) := by
  cases d with
  | mount evaluator => exact Ends.map (reckons_mountAs hn evaluator _)
  | mountFinder evaluator config => exact Ends.map (reckons_mountAs hn evaluator _)
  | unmount => cases hd
  | ask e => cases hd
  | reset => exact Ends.map (reckons_reset h hn ha)
  | search a b config => exact Ends.map (reckons_search h hn ha a b config)
  | find a b => exact Ends.map (reckons_find h hn ha a b)
  | begin a b config => exact Ends.map (reckons_begin h hn ha a b config)
  | step => exact Ends.map (reckons_step hn)
  | run => exact Ends.map (reckons_run hn)
  | cancel => exact Ends.map (reckons_cancel hn)
  | look q =>
    have hsame : Reckons w n account none w := ⟨rfl, hn⟩
    exact ends_query n q (fun _ => hsame) (amiss_refused hn) fun _ _ _ _ => hsame

end Deeds

end Reckons

theorem reckons_heed {account : Appraiser V E κ × Bool} (h : w.Reachable)
    (hn : w.account? n = some account) (ha : account.1.evaluator.Reliable w.graph)
    {d : Deed V E κ} (hd : d.keeps = true) :
    Reckons w n account (d.counted? w.graph (w.heed n d).1) (w.heed n d).2 := by
  have hends := reckons_perform h hn ha hd
  rw [Ends] at hends
  rw [heed]
  cases hp : d.perform n w with
  | ok answer w' =>
    rw [hp] at hends
    exact hends
  | error trouble w' =>
    rw [hp] at hends
    cases trouble <;> exact hends

theorem Reachable.heedAll (h : w.Reachable) (ds : List (Nat × Deed V E κ)) :
    (w.heedAll ds).Reachable := by
  induction ds generalizing w with
  | nil => exact h
  | cons p ds ih => exact ih (h.heed p.1 p.2)

/-- Deeds in turn, at this place and elsewhere. -/
theorem account_heedAll {account : Appraiser V E κ × Bool} (h : w.Reachable)
    (hn : w.account? n = some account) (ha : account.1.evaluator.Reliable w.graph)
    {ds : List (Nat × Deed V E κ)} (hds : ∀ p ∈ ds, p.1 = n → p.2.keeps = true) :
    (w.heedAll ds).graph.bare = w.graph.bare ∧ (w.heedAll ds).account? n =
      some ((w.episodes n ds).foldr (Episode.on w.graph.edges.ids) account) := by
  induction ds generalizing w account with
  | nil => exact ⟨rfl, hn⟩
  | cons p ds ih =>
    obtain ⟨m, d⟩ := p
    have hrest := fun p hp => hds p (List.mem_cons_of_mem _ hp)
    by_cases hm : m = n
    · subst hm
      have hstep := reckons_heed h hn ha (show d.keeps = true from hds _ List.mem_cons_self rfl)
      obtain ⟨hbare, haccount⟩ := ih (h.heed m d) hstep.account (hstep.reliable ha) hrest
      rw [hstep.graph] at hbare haccount
      refine ⟨hbare, ?_⟩
      simp only [episodes, if_true, List.foldr_append]
      refine haccount.trans ?_
      cases d.counted? w.graph (w.heed m d).1 <;> rfl
    · have hs := spares_heed hm w d
      have hn' : (w.heed m d).2.account? n = some account := by rw [account?, hs.lookup]; exact hn
      obtain ⟨hbare, haccount⟩ := ih (h.heed m d) hn' (ha.of_bare hs.graph) hrest
      rw [Graph.edge_ids_of_bare hs.graph] at haccount
      refine ⟨hbare.trans hs.graph, ?_⟩
      simp only [episodes, if_neg hm, List.append_nil]
      exact haccount

/-- A new overlay, whatever it is kept for. -/
theorem account_mountAs {evaluator : Evaluator V E κ} {o : Overlay V E κ} {g' : Graph V E}
    (hn : w.tenants.lookup n = none) (h : w.graph.mount evaluator = (.ok o, g')) {d : Deed V E κ}
    (hd : d.evaluator? = some evaluator) :
    (w.heed n d).2.graph = g' ∧ (w.heed n d).2.account? n = some o.account := by
  let P (w' : Workspace V E κ) : Prop := w'.graph = g' ∧ w'.account? n = some o.account
  have hends (wrap : Overlay V E κ → Tenant V E κ) (hwrap : (wrap o).toOverlay = o) :
      Ends (mountAs n evaluator wrap) w (fun _ => P) fun _ => P := by
    refine Ends.bind (Ends.bind (ends_get ?_))
    rw [hn]
    refine ends_pure (Ends.bind (ends_get ?_))
    rw [h]
    refine Ends.bind (ends_modify (Ends.bind (ends_put (ends_pure ⟨rfl, ?_⟩))))
    rw [account?, lookup_placed, if_pos rfl, Option.map_some, hwrap]
  cases d with
  | mount evaluator' =>
    cases hd
    exact Ends.heed (P := P) (Ends.bind ((hends .overlay rfl).imp fun _ _ hw' => ends_pure hw'))
  | mountFinder evaluator' config =>
    cases hd
    exact Ends.heed (P := P) (Ends.bind ((hends (fun overlay =>
      .finder (Finder.withConfig { overlay } config)) rfl).imp fun _ _ hw' => ends_pure hw'))
  | _ => cases hd

/-- As long as its evaluator always has a valid answer, an overlay asks about all edges when it is
new, at every reset, and for every search let through but the first since the last of these; each
time once about each, in slot order. A search that is turned away asks nothing and changes nothing,
whatever a search before it has left in the marks. -/
theorem Reachable.asked_exact (h : w.Reachable) (hn : w.tenants.lookup n = none)
    {evaluator : Evaluator V E κ} (he : evaluator.Reliable w.graph) {d : Deed V E κ}
    (hd : d.evaluator? = some evaluator) {ds : List (Nat × Deed V E κ)}
    (hds : ∀ p ∈ ds, p.1 = n → p.2.keeps = true) :
    let new := (w.heed n d).2
    let k := passes (new.episodes n ds)
    ∃ t, (new.heedAll ds).tenants.lookup n = some t ∧
      t.toOverlay.appraiser.asked.size = w.graph.edgeCount * k ∧
      t.toOverlay.appraiser.asked.toList = (List.replicate k w.graph.edges.ids).flatten ∧
      (∀ e, e ∈ w.graph.edges.ids ↔ w.graph.edges.contains e = true) ∧
      (w.graph.edges.ids.map ElementId.index).Pairwise (· < ·) ∧
      ∀ a b config, (w.graph.Admits a b →
          ∃ s, Search.start t.toOverlay (new.heedAll ds).graph a b config = .ok s) ∧
        (¬ w.graph.Admits a b → ∃ failure,
          Search.start t.toOverlay (new.heedAll ds).graph a b config =
            .error (failure, t.toOverlay)) := by
  dsimp only
  obtain ⟨es, hm⟩ := h.sound.mirrors
  obtain ⟨o, g', hmount⟩ :=
    Graph.mount_of_reliable hm (h.registered.vacant h.sound.not_mem_channels) he
  have hbare := (Graph.mount_entered hm hmount).1
  obtain ⟨rfl, hnew⟩ := account_mountAs hn hmount hd
  rw [Graph.account_mount hm hmount] at hnew
  have hreach := h.heed n d
  obtain ⟨hgraph, haccount⟩ := account_heedAll hreach hnew (he.of_bare hbare) hds
  rw [Graph.edge_ids_of_bare hbare, foldr_on] at haccount
  obtain ⟨t, ht, haccount⟩ := Option.map_eq_some_iff.mp haccount
  have happraiser := congrArg Prod.fst haccount
  have hasked := congrArg (fun a => a.asked.toList) happraiser
  rw [Appraiser.toList_asked_through] at hasked
  obtain ⟨_, hf, hl⟩ := (hreach.heedAll ds).entered ht
  have hsame := hgraph.trans hbare
  refine ⟨t, ht, ?_, hasked, fun e => Arena.mem_ids, w.graph.edges.pairwise_ids_index,
    fun a b config => ⟨fun hab => ?_, fun hab => ?_⟩⟩
  · have hlength := congrArg List.length hasked
    rw [Array.length_toList] at hlength
    rw [h.counts.2]
    refine hlength.trans ?_
    simp [Nat.mul_comm]
  · have hevaluator : t.toOverlay.appraiser.evaluator = evaluator :=
      congrArg (fun a => a.evaluator) happraiser
    refine Search.start_of_admits hf hl ?_ ((Graph.admits_of_bare hsame).mpr hab) config
    rw [hevaluator]
    exact he.of_bare hsame
  · exact Search.start_of_not_admits hf (fun hab' => hab ((Graph.admits_of_bare hsame).mp hab'))
      config

/-- A search is cancelled before its first step, one is turned away, one comes to its limit, and one
follows a reset. -/
theorem Reachable.asked_exact_cancelled :
    ∃ (w : Workspace Unit Unit Float) (ds : List (Nat × Deed Unit Unit Float)), w.Reachable ∧
      w.tenants.lookup 0 = none ∧ (∀ p ∈ ds, p.1 = 0 → p.2.keeps = true) ∧
      let new := (w.heed 0 (.mount (.constant 1))).2
      new.episodes 0 ds = [.accepted, .reset, .accepted, .accepted] ∧
      ∃ t, (new.heedAll ds).tenants.lookup 0 = some t ∧
        t.toOverlay.appraiser.asked.toList =
          [⟨0, 0⟩, ⟨1, 0⟩, ⟨0, 0⟩, ⟨1, 0⟩, ⟨0, 0⟩, ⟨1, 0⟩] := by
  let rs : List (Request Unit Unit Float) := [
    .addVertices [(), (), ()], .link ⟨0, 0⟩ ⟨1, 0⟩ .directed (),
    .link ⟨1, 0⟩ ⟨2, 0⟩ .directed ()]
  let ds : List (Nat × Deed Unit Unit Float) := [
    (0, .begin ⟨0, 0⟩ ⟨2, 0⟩ {}), (0, .reset), (0, .cancel), (1, .mount (.constant 7)),
    (0, .search ⟨1, 0⟩ ⟨1, 0⟩ {}), (0, .search ⟨0, 0⟩ ⟨2, 0⟩ { maxExpansions? := some 1 }),
    (1, .search ⟨0, 0⟩ ⟨2, 0⟩ {}), (0, .reset), (0, .search ⟨0, 0⟩ ⟨2, 0⟩ {}), (0, .look .marks)]
  have hw : (rs.foldl obey {}).Reachable := ⟨rs, rfl⟩
  have hfree : (rs.foldl obey {}).tenants.lookup 0 = none := by decide +kernel
  have hkeeps : ∀ p ∈ ds, p.1 = 0 → p.2.keeps = true := by decide +kernel
  have hids : (rs.foldl obey {}).graph.edges.ids = [⟨0, 0⟩, ⟨1, 0⟩] := by decide +kernel
  have hepisodes : ((rs.foldl obey {}).heed 0 (.mount (.constant 1))).2.episodes 0 ds =
      [.accepted, .reset, .accepted, .accepted] := by decide +kernel
  have hquotes := Evaluator.quotes_constant (show Cost.admissible (1 : Float) = true by
    decide +kernel) (rs.foldl obey {}).graph
  obtain ⟨t, ht, _, hasked, _⟩ := hw.asked_exact hfree hquotes.reliable
    (show (Deed.mount (.constant 1)).evaluator? = some _ from rfl) hkeeps
  rw [hepisodes, hids] at hasked
  exact ⟨_, ds, hw, hfree, hkeeps, hepisodes, t, ht, hasked⟩

end Workspace

end Waymark
