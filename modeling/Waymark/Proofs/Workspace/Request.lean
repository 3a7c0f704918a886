import Mathlib.Data.List.Induction
import Waymark.Proofs.Workspace.Sound

namespace Waymark

/-- What can be asked of an overlay. -/
inductive Query
  | channel
  | vertexMark (v : VertexId)
  | edgeMark (e : EdgeId)
  | marks
  | pathTo (v : VertexId)
  | calls
  | config
  | progress

/-- One thing that the user of a single place can do. -/
inductive Deed (V E κ : Type)
  | mount (evaluator : Evaluator V E κ)
  | mountFinder (evaluator : Evaluator V E κ) (config : SearchConfig)
  | unmount
  | ask (e : EdgeId)
  | reset
  | search (source destination : VertexId) (config : SearchConfig)
  | find (source destination : VertexId)
  | begin (source destination : VertexId) (config : SearchConfig)
  | step
  | run
  | cancel
  | look (q : Query)

/-- What comes back if there is no trouble. -/
inductive Answer (κ : Type)
  | done
  | channel (c : Channel)
  | opinion (answer : Except String κ)
  | path (path : Path κ)
  | explored (e? : Option EdgeId)
  | vertexMark (mark : VertexMark κ)
  | edgeMark (mark : EdgeMark κ)
  | marks (vertices : Array (VertexMark κ)) (edges : Array (EdgeMark κ))
  | calls (n : Nat)
  | config (config : SearchConfig)
  | progress (expansions : Nat) (finished : Bool) (source destination : VertexId) (path : Path κ)
  deriving DecidableEq

section Deeds

variable {V E κ : Type}

def Query.perform (n : Nat) : Query → Act V E κ (Answer κ)
  | channel => do return .channel (← Workspace.idle n).channel
  | vertexMark v => do
    let o ← Workspace.idle n
    return .vertexMark (← Workspace.attempt (o.vertexMark (← get).graph v))
  | edgeMark e => do
    let o ← Workspace.idle n
    return .edgeMark (← Workspace.attempt (o.edgeMark (← get).graph e))
  | marks => do
    let o ← Workspace.idle n
    return .marks o.vertices o.edges
  | pathTo v => do
    let o ← Workspace.idle n
    return .path (← Workspace.attempt (o.pathTo (← get).graph v))
  | calls => do return .calls (← Workspace.calls n)
  | config => do return .config (← Workspace.finder n).config
  | progress => do
    let s ← Workspace.running n
    let path ← Workspace.attempt (s.path (← get).graph)
    return .progress s.expansions s.finished s.source s.destination path

/-- The evaluator that an overlay is to be mounted with. -/
def Deed.evaluator? : Deed V E κ → Option (Evaluator V E κ)
  | mount evaluator => some evaluator
  | mountFinder evaluator _ => some evaluator
  | _ => none

def Deed.perform [Cost κ] (n : Nat) : Deed V E κ → Act V E κ (Answer κ)
  | mount evaluator => do return .channel (← Workspace.mount n evaluator)
  | mountFinder evaluator config => do return .channel (← Workspace.mountFinder n evaluator config)
  | unmount => do
    Workspace.unmount n
    return .done
  | ask e => do return .opinion (← Workspace.ask n e)
  | reset => do
    Workspace.reset n
    return .done
  | search source destination config => do
    return .path (← Workspace.search n source destination config)
  | find source destination => do return .path (← Workspace.find n source destination)
  | begin source destination config => do
    Workspace.begin n source destination config
    return .done
  | step => do return .explored (← Workspace.step n)
  | run => do return .path (← Workspace.run n)
  | cancel => do
    Workspace.cancel n
    return .done
  | look q => q.perform n

end Deeds

/-- One thing that can be asked of a workspace: an edit of the graph, or a deed at a place. -/
inductive Request (V E κ : Type)
  | addVertex (data : V)
  | addVertices (data : List V)
  | link (tail head : VertexId) (kind : EdgeKind) (data : E)
  /-- Edges go in the order named, if that names each incident edge once. -/
  | removeVertex (v : VertexId) (order : List EdgeId)
  | removeEdge (e : EdgeId)
  | setVertexData (v : VertexId) (data : V)
  | setEdgeData (e : EdgeId) (data : E)
  | clear
  | deed (n : Nat) (d : Deed V E κ)

variable {V E κ : Type} [Cost κ]

def Request.perform : Request V E κ → Act V E κ Unit
  | addVertex data => do let _ ← Workspace.addVertex data
  | addVertices data => do let _ ← Workspace.addVertices data
  | link tail head kind data => do let _ ← Workspace.link tail head kind data
  | removeVertex v order => do let _ ← Workspace.edit fun g => g.removeVertexBy order v
  | removeEdge e => do let _ ← Workspace.removeEdge e
  | setVertexData v data => do let _ ← Workspace.setVertexData v data
  | setEdgeData e data => do let _ ← Workspace.setEdgeData e data
  | clear => Workspace.clear
  | deed n d => do let _ ← d.perform n

namespace Workspace

/-- What a request makes of a workspace, whether there was trouble or not. -/
def obey (w : Workspace V E κ) (r : Request V E κ) : Workspace V E κ :=
  match r.perform w with
  | .ok _ w' => w'
  | .error _ w' => w'

/-- Brought about by requests from an empty workspace. -/
def Reachable (w : Workspace V E κ) : Prop := ∃ rs : List (Request V E κ), rs.foldl obey {} = w

end Workspace

/-- A graph and an overlay on it, as requests bring them about. -/
def Graph.Hosts (g : Graph V E) (o : Overlay V E κ) : Prop :=
  ∃ w : Workspace V E κ, w.Reachable ∧ w.graph = g ∧ ∃ p ∈ w.tenants, p.2.toOverlay = o

namespace Workspace

variable {n : Nat}

theorem turns_addVertex (w : Workspace V E κ) (data : V) :
    Ends (addVertex data) w (fun _ w' => w.Turn none w') w.Troubled := by
  refine Ends.bind (ends_edit fun v g' hw hg => ?_)
  cases hg
  exact Ends.bind (ends_modify (ends_pure (Turn.edited hw (.addVertex data) _ _)))

theorem turns_addVertices (w : Workspace V E κ) (data : List V) :
    Ends (addVertices data) w (fun _ w' => w.Turn none w') w.Troubled := by
  refine Ends.bind (ends_edit fun vs g' hw hg => ?_)
  have hg' : (w.graph.addVertices data).2 = g' := congrArg Prod.snd (Except.ok.inj hg)
  rw [← hg']
  exact Ends.bind (ends_modify (ends_pure (Turn.edited hw (.addVertices data) _ _)))

theorem turns_link (w : Workspace V E κ) (tail head : VertexId) (kind : EdgeKind) (data : E) :
    Ends (link tail head kind data) w (fun _ w' => w.Turn none w') w.Troubled := by
  refine Ends.bind (ends_edit fun e g' hw hg => ?_)
  exact Ends.bind (ends_modify (ends_pure (Turn.edited hw (.link hg) _ _)))

/-- An edit that hands out no ids. -/
theorem turns_edit {α : Type} (w : Workspace V E κ)
    {f : Graph V E → Except Missing (α × Graph V E)}
    (hf : ∀ a g', f w.graph = .ok (a, g') → w.graph.Edited g') :
    Ends (edit f) w (fun _ w' => w.Turn none w') w.Troubled :=
  ends_edit fun a g' hw hg => Turn.edited hw (hf a g' hg) w.vertices w.edges

theorem turns_mountAs (w : Workspace V E κ) (n : Nat) (evaluator : Evaluator V E κ)
    {wrap : Overlay V E κ → Tenant V E κ} (hwrap : ∀ o, (wrap o).toOverlay = o)
    (hidle : ∀ o s, wrap o ≠ .search s) :
    Ends (mountAs n evaluator wrap) w (fun _ w' => w.Turn none w') w.Troubled := by
  rw [mountAs]
  refine Ends.bind (Ends.bind (ends_get ?_))
  cases hn : w.tenants.lookup n with
  | some t => exact ends_throw (.refused _)
  | none =>
    refine ends_pure (Ends.bind (ends_get ?_))
    cases hmount : w.graph.mount evaluator with
    | mk mounted g' =>
      refine Ends.bind (ends_modify ?_)
      cases mounted with
      | error e => exact ends_throw (Turn.notMounted hmount)
      | ok o => exact Ends.bind (ends_put (ends_pure (Turn.mounted hn hmount (hwrap o) (hidle o))))

theorem turns_unmount (w : Workspace V E κ) (n : Nat) :
    Ends (unmount n) w (fun _ w' => w.Turn none w') w.Troubled :=
  Ends.bind (ends_tenant .refused fun _ ht => ends_modify (Turn.unmounted ht))

theorem turns_ask (w : Workspace V E κ) (n : Nat) (e : EdgeId) :
    Ends (ask n e) w (fun _ w' => w.Turn none w') w.Troubled := by
  refine Ends.bind (ends_idle .refused fun t ht hidle => Ends.bind (ends_get (Ends.bind ?_)))
  refine ends_found .missing fun edge he => Ends.bind (ends_tenant .refused fun t' ht' => ?_)
  rw [ht] at ht'
  cases ht'
  cases t with
  | search s => exact (hidle s rfl).elim
  | overlay o => exact Ends.bind (ends_put (ends_pure (Turn.moved ht (.asked o he))))
  | finder f => exact Ends.bind (ends_put (ends_pure (Turn.moved ht (.finderAsked f he))))

theorem turns_reset (w : Workspace V E κ) (n : Nat) :
    Ends (reset n) w (fun _ w' => w.Turn none w') w.Troubled := by
  refine Ends.bind (ends_plain .refused fun o ht => Ends.bind (ends_get (ends_settle ht ?_)))
  have hmoves := Tenant.Moves.reset (g := w.graph) o
  cases hr : o.reset w.graph <;> rw [hr] at hmoves <;> exact hmoves

theorem turns_search (w : Workspace V E κ) (n : Nat) (a b : VertexId) (config : SearchConfig) :
    Ends (search n a b config) w (fun _ w' => w.Turn none w') w.Troubled :=
  Ends.bind (ends_plain .refused fun o ht => Ends.bind (ends_get
    (ends_settle ht (.searched o a b config))))

theorem turns_find (w : Workspace V E κ) (n : Nat) (a b : VertexId) :
    Ends (find n a b) w (fun _ w' => w.Turn none w') w.Troubled :=
  Ends.bind (ends_finder .refused fun f ht => Ends.bind (ends_get (ends_settle ht (.found f a b))))

theorem turns_begin (w : Workspace V E κ) (n : Nat) (a b : VertexId) (config : SearchConfig) :
    Ends (begin n a b config) w (fun _ w' => w.Turn none w') w.Troubled := by
  refine Ends.bind (ends_plain .refused fun o ht => Ends.bind (ends_get ?_))
  cases hs : Search.start o w.graph a b config with
  | ok s => exact ends_put (Turn.moved ht (.begun hs))
  | error e => exact Ends.bind (ends_put (ends_throw (Turn.moved ht (.notBegun hs))))

theorem turns_step (w : Workspace V E κ) (n : Nat) :
    Ends (step n) w (fun _ w' => w.Turn none w') w.Troubled := by
  refine Ends.bind (ends_running .refused fun s ht => Ends.bind (ends_get ?_))
  have hmoves := Tenant.Moves.stepped (g := w.graph) s
  cases hstep : s.step w.graph with
  | mk result s' =>
    rw [hstep] at hmoves
    refine Ends.bind (ends_put ?_)
    cases result with
    | expanded e => exact ends_pure (Turn.moved ht hmoves)
    | finished => exact ends_pure (Turn.moved ht hmoves)
    | limitReached limit => exact ends_throw (Turn.moved ht hmoves)

theorem turns_run (w : Workspace V E κ) (n : Nat) :
    Ends (run n) w (fun _ w' => w.Turn none w') w.Troubled :=
  Ends.bind (ends_running .refused fun s ht => Ends.bind (ends_get (ends_settle ht (.ran s))))

theorem turns_cancel (w : Workspace V E κ) (n : Nat) :
    Ends (cancel n) w (fun _ w' => w.Turn none w') w.Troubled :=
  Ends.bind (ends_running .refused fun s ht => ends_put (Turn.moved ht (.cancelled s)))

omit [Cost κ] in
/-- A question changes nothing. -/
theorem ends_query {w : Workspace V E κ} {Q : Answer κ → Workspace V E κ → Prop}
    {R : Trouble κ → Workspace V E κ → Prop} (n : Nat) (q : Query) (hQ : ∀ answer, Q answer w)
    (hR : ∀ refusal, R (.refused refusal) w)
    (hF : ∀ t failure, w.tenants.lookup n = some t → t.toOverlay.Unanswered w.graph failure →
      R (.failed failure) w) : Ends (q.perform n) w Q R := by
  cases q with
  | channel => exact Ends.bind (ends_idle hR fun t ht _ => ends_pure (hQ _))
  | vertexMark v =>
    refine Ends.bind (ends_idle hR fun t ht _ => Ends.bind (ends_get (Ends.bind ?_)))
    exact ends_attempt (fun _ hm => hF t _ ht (.vertexMark hm)) fun _ _ => ends_pure (hQ _)
  | edgeMark e =>
    refine Ends.bind (ends_idle hR fun t ht _ => Ends.bind (ends_get (Ends.bind ?_)))
    exact ends_attempt (fun _ hm => hF t _ ht (.edgeMark hm)) fun _ _ => ends_pure (hQ _)
  | marks => exact Ends.bind (ends_idle hR fun t ht _ => ends_pure (hQ _))
  | pathTo v =>
    refine Ends.bind (ends_idle hR fun t ht _ => Ends.bind (ends_get (Ends.bind ?_)))
    exact ends_attempt (fun _ hp => hF t _ ht (.pathTo hp)) fun _ _ => ends_pure (hQ _)
  | calls => exact Ends.bind (Ends.bind (ends_tenant hR fun t ht => ends_pure (ends_pure (hQ _))))
  | config => exact Ends.bind (ends_finder hR fun f hf => ends_pure (hQ _))
  | progress =>
    refine Ends.bind (ends_running hR fun s hs => Ends.bind (ends_get (Ends.bind ?_)))
    exact ends_attempt (fun _ hp => hF _ _ hs (.pathTo hp)) fun _ _ => ends_pure (hQ _)

theorem turns_deed (w : Workspace V E κ) (n : Nat) (d : Deed V E κ) :
    Ends (d.perform n) w (fun _ w' => w.Turn none w') w.Troubled := by
  cases d with
  | mount evaluator =>
    exact Ends.map (w.turns_mountAs n evaluator (fun _ => rfl) fun o s hs => by cases hs)
  | mountFinder evaluator config =>
    exact Ends.map (w.turns_mountAs n evaluator (fun _ => rfl) fun o s hs => by cases hs)
  | unmount => exact Ends.map (w.turns_unmount n)
  | ask e => exact Ends.map (w.turns_ask n e)
  | reset => exact Ends.map (w.turns_reset n)
  | search a b config => exact Ends.map (w.turns_search n a b config)
  | find a b => exact Ends.map (w.turns_find n a b)
  | begin a b config => exact Ends.map (w.turns_begin n a b config)
  | step => exact Ends.map (w.turns_step n)
  | run => exact Ends.map (w.turns_run n)
  | cancel => exact Ends.map (w.turns_cancel n)
  | look q =>
    exact ends_query n q (fun _ => .answered) .refused fun t failure ht => .unanswered ht

/-- Requests come down to turns. -/
theorem turns_perform (w : Workspace V E κ) (r : Request V E κ) :
    Ends r.perform w (fun _ w' => w.Turn none w') w.Troubled := by
  cases r with
  | addVertex data => exact Ends.map (w.turns_addVertex data)
  | addVertices data => exact Ends.map (w.turns_addVertices data)
  | link tail head kind data => exact Ends.map (w.turns_link tail head kind data)
  | removeVertex v order => exact Ends.map (w.turns_edit fun data g' hr => .removeVertex hr)
  | removeEdge e => exact Ends.map (w.turns_edit fun data g' hr => .removeEdge hr)
  | setVertexData v data => exact Ends.map (w.turns_edit fun old g' hs => .setVertexData hs)
  | setEdgeData e data => exact Ends.map (w.turns_edit fun old g' hs => .setEdgeData hs)
  | clear =>
    refine w.turns_edit (f := fun g => .ok ((), g.clear)) fun u g' hc => ?_
    cases hc
    exact .clear
  | deed n d => exact Ends.map (w.turns_deed n d)

theorem turn_of_error {w w' : Workspace V E κ} {r : Request V E κ} {trouble : Trouble κ}
    (h : r.perform w = .error trouble w') : w.Turn (some trouble) w' := by
  have hturns := w.turns_perform r
  rw [Ends, h] at hturns
  exact hturns

theorem turn_obey (w : Workspace V E κ) (r : Request V E κ) :
    ∃ trouble?, w.Turn trouble? (w.obey r) := by
  have hturns := w.turns_perform r
  rw [Ends] at hturns
  rw [obey]
  cases hp : r.perform w with
  | ok u w' =>
    rw [hp] at hturns
    exact ⟨none, hturns⟩
  | error trouble w' =>
    rw [hp] at hturns
    exact ⟨some trouble, hturns⟩

theorem Reachable.next {w : Workspace V E κ} (h : w.Reachable) (r : Request V E κ) :
    (w.obey r).Reachable := by
  obtain ⟨rs, rfl⟩ := h
  exact ⟨rs ++ [r], by rw [List.foldl_append]; rfl⟩

/-- What turns preserve holds of all that requests bring about. -/
theorem Reachable.invariant {w : Workspace V E κ} (h : w.Reachable)
    {P : Workspace V E κ → Prop} (hempty : P {})
    (hturn : ∀ {w w' : Workspace V E κ} {trouble?}, w.Turn trouble? w' → P w → P w') : P w := by
  obtain ⟨rs, rfl⟩ := h
  induction rs using List.reverseRecOn with
  | nil => exact hempty
  | append_singleton rs r ih =>
    rw [List.foldl_append]
    obtain ⟨trouble?, ht⟩ := turn_obey (rs.foldl obey {}) r
    exact hturn ht ih

theorem Reachable.sound {w : Workspace V E κ} (h : w.Reachable) : w.Sound :=
  h.invariant sound_empty Turn.sound

end Workspace

/-- All that searching relies on, of any graph with an overlay. -/
theorem Graph.Hosts.sound {g : Graph V E} {o : Overlay V E κ} (h : g.Hosts o) :
    (∃ es, g.Mirrors es) ∧ o.Sound g := by
  obtain ⟨w, hw, rfl, p, hp, rfl⟩ := h
  exact ⟨hw.sound.mirrors, (hw.sound.tenants p hp).overlay⟩

end Waymark
