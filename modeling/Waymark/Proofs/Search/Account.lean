import Waymark.Proofs.Graph.Count
import Waymark.Proofs.Search.Discipline
import Waymark.Proofs.Search.Fewest
import Waymark.Proofs.Search.Strict

namespace Waymark

/-- The edge that a step has returned. -/
def Step.edge? : Step → Option EdgeId
  | .expanded e => some e
  | _ => none

namespace Search

variable {V E κ : Type} [Cost κ] {g : Graph V E} {s : Search V E κ}

/-- The edges that the first steps have returned, one after another. -/
def returned (s : Search V E κ) (g : Graph V E) (n : Nat) : List EdgeId :=
  (List.range n).filterMap fun k => ((s.after g k).step g).1.edge?

theorem returned_succ (s : Search V E κ) (n : Nat) :
    s.returned g (n + 1) = s.returned g n ++ ((s.after g n).step g).1.edge?.toList := by
  rw [returned, List.range_succ, List.filterMap_append, ← returned]
  cases hstep : ((s.after g n).step g).1.edge? <;> simp [hstep]

theorem length_returned {n : Nat}
    (h : ∀ k < n, ∃ e, ((s.after g k).step g).1 = .expanded e) : (s.returned g n).length = n := by
  induction n with
  | zero => rfl
  | succ n ih =>
    obtain ⟨e, he⟩ := h n (Nat.lt_succ_self n)
    rw [returned_succ, List.length_append, ih fun k hk => h k (Nat.lt_succ_of_lt hk), he]
    rfl

/-- What the marks, the frontier and the counter say of the edges that have been returned. -/
structure Accounted (g : Graph V E) (cost : EdgeId → κ) (source : VertexId) (log : List EdgeId)
    (s : Search V E κ) : Prop where
  surveys : Surveys g cost source s
  plain : (s.chart g).Plain g
  waiting : s.finished = false → (s.chart g).Disciplined []
  explored_iff : ∀ e, s.overlay.state g e = .explored ↔ e ∈ log
  nodup : log.Nodup
  count : s.expansions = log.length

namespace Accounted

variable {cost : EdgeId → κ} {source : VertexId} {log es : List EdgeId} {q : Queued κ}
  {rest : List (Queued κ)}

/-- The next edge has been discovered, and all that exploring it does to other edges is to discover
some of them. -/
theorem explore (h : Accounted g cost source log s) (hg : g.Mirrors es) (hf : s.finished = false)
    (hq : s.frontier.queue = q :: rest) :
    s.overlay.state g q.edge = .discovered ∧ g.edges.contains q.edge = true ∧
      ∃ c, ((s.popped rest).explore g q.edge).chart g = c.mark q.edge .explored ∧
        (∀ e, ((s.popped rest).explore g q.edge).overlay.state g e =
          if e = q.edge then .explored else c.states e) ∧
        Chart.Discovers g (s.chart g) c ∧ c.Disciplined [q.edge] := by
  have hdisciplined := h.waiting hf
  have hnext : q.edge ∈ [] ++ (s.chart g).waiting := by
    show q.edge ∈ s.frontier.queue.map Queued.edge
    rw [hq]
    exact .head _
  have hstate : s.overlay.state g q.edge = .discovered := (hdisciplined.mem_iff q.edge).mp hnext
  have hlive : g.edges.contains q.edge = true := by
    refine h.plain.live q.edge ?_
    show s.overlay.state g q.edge ≠ .unexplored
    rw [hstate]
    decide
  have hchart := h.surveys.chart_explore hg rest hlive
  obtain ⟨c, hc, hdiscovers, hkept⟩ :=
    Chart.explore_eq_mark hg ((s.chart g).popped rest) cost source hlive
  refine ⟨hstate, hlive, c, hchart.trans hc, fun e => ?_, hdiscovers,
    hkept _ (hdisciplined.popped hq)⟩
  exact (congrFun (congrArg Chart.states (hchart.trans hc)) e).trans (c.states_mark ..)

theorem step (h : Accounted g cost source log s) (hg : g.Mirrors es) :
    Accounted g cost source (log ++ (s.step g).1.edge?.toList) (s.step g).2 := by
  have ho := h.surveys.follows s.follows_step
  have hstep := s.stepped g
  generalize s.step g = r at hstep ho
  have hsame : Accounted g cost source (log ++ []) s := by
    rw [List.append_nil]
    exact h
  cases hstep with
  | idle => exact hsame
  | atLimit => exact hsame
  | dry =>
    exact ⟨ho, hsame.plain, fun hf => (by cases hf), hsame.explored_iff, hsame.nodup, hsame.count⟩
  | beaten =>
    exact ⟨ho, ⟨hsame.plain.live, hsame.plain.allowed⟩, fun hf => (by cases hf),
      hsame.explored_iff, hsame.nodup, hsame.count⟩
  | @explored q rest hf hq _ =>
    obtain ⟨hstate, hlive, c, hchart, hstates, hdiscovers, hdisciplined⟩ := h.explore hg hf hq
    have hnew : q.edge ∉ log := by
      rw [← h.explored_iff, hstate]
      decide
    refine ⟨ho, ?_, fun _ => ?_, fun e => ?_, ?_, ?_⟩
    · rw [hchart]
      exact (hdiscovers.plain h.plain).mark hlive
    · rw [hchart]
      exact hdisciplined.mark
    · rw [hstates]
      change _ ↔ e ∈ log ++ [q.edge]
      rw [List.mem_append, List.mem_singleton, ← h.explored_iff]
      split
      · simp [‹e = q.edge›]
      · rw [hdiscovers.explored_iff]
        simp only [‹¬ e = q.edge›, or_false]
        rfl
    · exact List.nodup_append.mpr ⟨h.nodup, List.nodup_singleton _, fun d hd e he heq =>
        hnew (List.mem_singleton.mp he ▸ heq ▸ hd)⟩
    · rw [(works_explore _ _).expansions]
      show s.expansions + 1 = (log ++ [q.edge]).length
      rw [h.count, List.length_append, List.length_singleton]

theorem code_le_step (h : Accounted g cost source log s) (hg : g.Mirrors es) (e : EdgeId) :
    (s.overlay.state g e).code ≤ ((s.step g).2.overlay.state g e).code := by
  have hstep := s.stepped g
  generalize s.step g = r at hstep
  cases hstep with
  | idle => exact UInt8.le_refl _
  | atLimit => exact UInt8.le_refl _
  | dry => exact UInt8.le_refl _
  | beaten => exact UInt8.le_refl _
  | @explored q rest hf hq _ =>
    obtain ⟨hstate, _, c, _, hstates, hdiscovers, _⟩ := h.explore hg hf hq
    rw [hstates]
    split
    · rename_i he
      rw [he, hstate]
      decide
    · exact hdiscovers.code_le e

theorem after (h : Accounted g cost source [] s) (hg : g.Mirrors es) (n : Nat) :
    Accounted g cost source (s.returned g n) (s.after g n) := by
  induction n with
  | zero => exact h
  | succ n ih =>
    rw [after_succ, returned_succ]
    exact ih.step hg

theorem code_le_after (h : Accounted g cost source [] s) (hg : g.Mirrors es) {m n : Nat}
    (hmn : m ≤ n) (e : EdgeId) :
    ((s.after g m).overlay.state g e).code ≤ ((s.after g n).overlay.state g e).code := by
  induction hmn with
  | refl => exact UInt8.le_refl _
  | @step n _ ih =>
    rw [after_succ]
    exact UInt8.le_trans ih ((h.after hg n).code_le_step hg e)

/-- All that a search asks for while it goes on is there. -/
theorem strict (h : Accounted g cost source log s) (hg : g.Mirrors es)
    (hb : g.vertices.contains s.destination = true) : Strict.step s g = .ok (s.step g) := by
  refine Strict.step_eq_ok hg h.surveys.fits hb fun hf q hq => h.plain.live q.edge ?_
  have hstate : s.overlay.state g q.edge = .discovered :=
    ((h.waiting hf).mem_iff q.edge).mp (List.mem_map_of_mem hq)
  show s.overlay.state g q.edge ≠ .unexplored
  rw [hstate]
  decide

/-- A search begins with nothing returned. -/
theorem begun {o : Overlay V E κ} (hg : g.Mirrors es) (hf : o.Fits g) (hb : o.Blank)
    {a : VertexId} (ha : g.vertices.contains a = true) (b : VertexId) (config : SearchConfig) :
    Accounted g (o.cost g) a [] ((fresh o g a b config).expand g a) := by
  have hsurveys := Surveys.fresh (g := g) hf a b config
  have hworks := (fresh o g a b config).works_expand (g := g) a
  have hchart := hsurveys.chart_expand hg a
  rw [chart_fresh hf hb ha] at hchart
  have hdiscovers := Chart.discovers_expand hg (.blank config.frontier) (o.cost g) a a
  rw [← hchart] at hdiscovers
  refine ⟨hsurveys.follows hworks.toFollows, hdiscovers.plain (Chart.plain_blank g _), fun _ => ?_,
    fun e => ?_, List.nodup_nil, (works_expand _ a).expansions⟩
  · rw [hchart]
    exact (Chart.disciplined_blank _).expand g _ a a
  · refine (hdiscovers.explored_iff e).trans ⟨fun he => ?_, fun he => ?_⟩ <;> cases he

end Accounted

/-- At every step of a search that has not come to its end the frontier holds the edges that are
discovered, each once. Edges are explored when they are returned, none twice, and counted; no edge
moves back, and none is ruled out. So a search ends once every edge of the graph has had its turn,
if not before. Whatever it asks for on its way, it finds. -/
theorem frontier_exact {o : Overlay V E κ} (h : g.Hosts o) {a b : VertexId} {config : SearchConfig}
    (hs : start o g a b config = .ok s) :
    (Strict.start o g a b config = .ok s ∧
      ∀ n, Strict.step (s.after g n) g = .ok ((s.after g n).step g)) ∧
    (∀ n, (s.after g n).finished = false →
      ((s.after g n).frontier.queue.map Queued.edge).Nodup ∧
        ∀ e, e ∈ (s.after g n).frontier.queue.map Queued.edge ↔
          (s.after g n).overlay.state g e = .discovered) ∧
    (∀ n, (∀ e, (s.after g n).overlay.state g e = .explored ↔ e ∈ s.returned g n) ∧
      (s.returned g n).Nodup ∧ (s.returned g n).length ≤ g.edgeCount ∧
      (s.after g n).expansions = (s.returned g n).length ∧
      ∀ e, (s.after g n).overlay.state g e ≠ .excluded ∧
        (g.edges.contains e = true → ∃ mark, (s.after g n).overlay.edgeMark g e = .ok mark ∧
          mark.state = (s.after g n).overlay.state g e) ∧
        ∀ m ≤ n, ((s.after g m).overlay.state g e).code ≤
          ((s.after g n).overlay.state g e).code) ∧
    ∃ n ≤ g.edgeCount, (∀ k < n, ∃ e, ((s.after g k).step g).1 = .expanded e) ∧
      (((s.after g n).step g).1 = .finished ∨
        ∃ limit, ((s.after g n).step g).1 = .limitReached limit) ∧
      s.exhaust g = (((s.after g n).step g).1, s.after g (n + 1)) := by
  obtain ⟨⟨es, hg⟩, hsound⟩ := h.sound
  obtain ⟨hrefusal, o₁, hb, rfl⟩ := start_eq_ok.mp hs
  obtain ⟨ha, hlive, _⟩ := (refusal?_eq_none hsound.fits).mp hrefusal
  obtain ⟨hl, _, hblank, _⟩ := hsound.beginRun_eq_ok hb
  have hbegun := Accounted.begun hg (hl.fits hsound.fits) hblank ha b config
  have hstrict := (Strict.start_eq hg hsound.fits a b config).trans hs
  have hdestination : ((fresh o₁ g a b config).expand g a).destination = b :=
    ((fresh o₁ g a b config).works_expand a).destination
  generalize (fresh o₁ g a b config).expand g a = s at *
  have hbound (n : Nat) : (s.returned g n).length ≤ g.edgeCount := by
    have hn := hbegun.after hg n
    refine h.length_le_edgeCount hn.nodup fun e he => hn.plain.live e ?_
    show (s.after g n).overlay.state g e ≠ .unexplored
    rw [(hn.explored_iff e).mpr he]
    decide
  refine ⟨⟨hstrict, fun n => (hbegun.after hg n).strict hg ?_⟩, fun n hf => ?_, fun n => ?_, ?_⟩
  · rw [(s.follows_after n).destination, hdestination]
    exact hlive
  · have hn := (hbegun.after hg n).waiting hf
    exact ⟨hn.nodup, hn.mem_iff⟩
  · have hn := hbegun.after hg n
    refine ⟨hn.explored_iff, hn.nodup, hbound n, hn.count, fun e =>
      ⟨hn.plain.allowed e, fun hlive => ?_, fun m hm => hbegun.code_le_after hg hm e⟩⟩
    obtain ⟨mark, hmark⟩ := hn.surveys.fits.edgeMark hlive
    exact ⟨mark, hmark, by rw [Overlay.state, hmark]⟩
  · obtain ⟨n, hn, hlast, hearlier⟩ := s.exhaust_eq_first (g := g)
    have hle := hbound n
    rw [length_returned hearlier] at hle
    refine ⟨n, hle, hearlier, ?_, hn⟩
    cases hstep : ((s.after g n).step g).1 with
    | finished => exact Or.inl rfl
    | limitReached limit => exact Or.inr ⟨limit, rfl⟩
    | expanded e => exact (hlast e hstep).elim

/-- On a roundabout every edge has its turn, the loop and those declared backwards too. -/
theorem frontier_exact_roundabout : ∃ (o : Overlay Unit Float Float) (s : Search Unit Float Float),
    roundabout.graph.Hosts o ∧ start o roundabout.graph ⟨0, 0⟩ ⟨4, 0⟩ {} = .ok s ∧
      s.returned roundabout.graph 6 = [⟨0, 0⟩, ⟨1, 0⟩, ⟨4, 0⟩, ⟨2, 0⟩, ⟨5, 0⟩, ⟨3, 0⟩] ∧
      (s.after roundabout.graph 6).expansions = 6 ∧
      ∃ n ≤ 6, s.exhaust roundabout.graph =
        (((s.after roundabout.graph n).step roundabout.graph).1,
          s.after roundabout.graph (n + 1)) := by
  obtain ⟨o, s, h, hs, hreturned⟩ : ∃ (o : Overlay Unit Float Float) (s : Search Unit Float Float),
      roundabout.graph.Hosts o ∧ start o roundabout.graph ⟨0, 0⟩ ⟨4, 0⟩ {} = .ok s ∧
        s.returned roundabout.graph 6 = [⟨0, 0⟩, ⟨1, 0⟩, ⟨4, 0⟩, ⟨2, 0⟩, ⟨5, 0⟩, ⟨3, 0⟩] := by
    have h : roundabout.graph.Hosts _ := ⟨roundabout, ⟨_, rfl⟩, rfl, _, List.mem_cons_self, rfl⟩
    refine ⟨_, _, h, (start_of_hosts h {} (by decide) (by decide) (by decide) rfl).1, ?_⟩
    decide +kernel
  have hcount : roundabout.graph.edgeCount = 6 := by decide +kernel
  obtain ⟨_, _, hall, n, hle, _, _, hexhaust⟩ := frontier_exact h hs
  rw [hcount] at hle
  refine ⟨o, s, h, hs, hreturned, ?_, n, hle, hexhaust⟩
  rw [(hall 6).2.2.2.1, hreturned]
  rfl

end Search

end Waymark
