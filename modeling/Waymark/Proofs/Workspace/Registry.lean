import Mathlib.Order.Bounds.Defs
import Waymark.Proofs.Search.Failing
import Waymark.Proofs.Workspace.Request

namespace Waymark

variable {V E κ : Type} [Cost κ]

omit [Cost κ] in
theorem Overlay.Unanswered.not_ofRegistry {o : Overlay V E κ} {g : Graph V E}
    {failure : Failure κ} (h : o.Unanswered g failure) (hf : o.Fits g) :
    ¬ failure.OfRegistry := by
  cases h with
  | vertexMark hm =>
    rw [hf.vertexMark_eq_error hm]
    exact id
  | edgeMark hm =>
    rw [hf.edgeMark_eq_error hm]
    exact id
  | pathTo hp => exact hf.not_ofRegistry_pathTo hp

/-- While its overlay is sound, no tenant complains of what an element carries. -/
theorem Tenant.Moves.not_ofRegistry {t t' : Tenant V E κ} {g : Graph V E} {failure : Failure κ}
    (hm : t.Moves g (some failure) t') (h : t.Sound g) : ¬ failure.OfRegistry := by
  generalize hf : some failure = failed at hm
  cases hm with
  | asked o he => cases hf
  | finderAsked f he => cases hf
  | reset o => exact Overlay.not_ofRegistry_reset hf.symm
  | searched o a b config => exact h.overlay.not_ofRegistry_search hf.symm
  | found f a b =>
    rw [(f.overlay_find g a b).2] at hf
    exact h.overlay.not_ofRegistry_search hf.symm
  | begun hs => cases hf
  | notBegun hs =>
    cases hf
    exact Search.not_ofRegistry_start h.overlay.fits hs
  | stepped s =>
    cases hr : (s.step g).1 <;> rw [hr] at hf <;> cases hf
    exact id
  | ran s => exact Search.not_ofRegistry_run h.overlay.fits hf.symm
  | cancelled s => cases hf

namespace Workspace

variable {w w' : Workspace V E κ} {n : Nat} {t t' : Tenant V E κ} {trouble? : Option (Trouble κ)}

omit [Cost κ] in
def channels (w : Workspace V E κ) : List Channel := w.tenants.map (·.2.toOverlay.channel)

omit [Cost κ] in
/-- A channel that no tenant holds is vacant, all counts are right, and each place is let once. -/
structure Registered (w : Workspace V E κ) : Prop where
  counted : w.graph.Counted
  vacant : ∀ {c}, c ∉ w.channels → w.graph.Vacant c
  places : (w.tenants.map Prod.fst).Nodup

namespace Registered

omit [Cost κ]

theorem empty : Registered ({} : Workspace V E κ) :=
  ⟨.empty, fun _ => .empty _, List.nodup_nil⟩

theorem places_placed (h : w.Registered) (n : Nat) (t : Tenant V E κ) :
    ((w.placed n t).tenants.map Prod.fst).Nodup := by
  refine List.nodup_cons.mpr ⟨fun hn => ?_, (List.filter_sublist.map Prod.fst).nodup h.places⟩
  obtain ⟨p, hp, hpn⟩ := List.mem_map.mp hn
  have hne := List.of_mem_filter hp
  simp [hpn] at hne

theorem tenant_unique (h : w.Registered) (ht : (n, t) ∈ w.tenants) (ht' : (n, t') ∈ w.tenants) :
    t = t' :=
  congrArg Prod.snd (List.inj_on_of_nodup_map h.places ht ht' rfl)

theorem mem_channels_vacated (h : w.Registered) (ht : (n, t) ∈ w.tenants) {c : Channel}
    (hc : c ∈ w.channels) : c = t.toOverlay.channel ∨ c ∈ (w.vacated n t).channels := by
  obtain ⟨p, hp, rfl⟩ := List.mem_map.mp hc
  by_cases hn : p.1 = n
  · obtain ⟨m, t'⟩ := p
    cases hn
    exact Or.inl (by rw [h.tenant_unique hp ht])
  · exact Or.inr (List.mem_map_of_mem (List.mem_filter.mpr ⟨hp, by simpa using hn⟩))

theorem mem_channels_placed (h : w.Registered) (ht : (n, t) ∈ w.tenants)
    (hchannel : t'.toOverlay.channel = t.toOverlay.channel) {c : Channel}
    (hc : c ∈ w.channels) : c ∈ (w.placed n t').channels := by
  obtain rfl | hc := h.mem_channels_vacated ht hc
  · rw [← hchannel]
    exact List.mem_cons_self
  · exact List.mem_cons_of_mem _ hc

theorem mem_channels_of_free (hn : w.tenants.lookup n = none) {c : Channel}
    (hc : c ∈ w.channels) : c ∈ (w.placed n t).channels := by
  obtain ⟨p, hp, rfl⟩ := List.mem_map.mp hc
  have hne : p.1 ≠ n := by
    intro he
    have hnot := List.lookup_eq_none_iff.mp hn p hp
    simp [he] at hnot
  exact List.mem_cons_of_mem _ (List.mem_map_of_mem (List.mem_filter.mpr ⟨hp, by simpa using hne⟩))

end Registered

theorem Sound.not_mem_channels (h : w.Sound) : w.graph.acquireChannel.1 ∉ w.channels := by
  intro hc
  obtain ⟨p, hp, hpc⟩ := List.mem_map.mp hc
  have hheld := h.held p hp
  rw [hpc, w.graph.acquireChannel_free.1] at hheld
  cases hheld

theorem Turn.registered (ht : w.Turn trouble? w') (hs : w.Sound) (h : w.Registered) :
    w'.Registered := by
  obtain ⟨es, hm⟩ := hs.mirrors
  have hvacant := h.vacant hs.not_mem_channels
  cases ht with
  | refused refusal => exact h
  | missing m => exact h
  | answered => exact h
  | unanswered hn hfailure => exact h
  | edited hw hg vertices edges =>
    have hkeeps := hg.keepsTables hm
    exact ⟨hkeeps.counted h.counted, fun hc => hkeeps.vacant (h.vacant hc), h.places⟩
  | @mounted n evaluator o g' t hn hmount ht hidle =>
    obtain ⟨honly, hok⟩ := Graph.mount_spec hm hmount
    have hcounted := (Graph.mount_registry h.counted hvacant hmount).1
    refine ⟨hcounted, fun {c} hc => ?_, h.places_placed n t⟩
    have hne : c ≠ w.graph.acquireChannel.1 := by
      intro heq
      refine hc (List.mem_cons.mpr (Or.inl ?_))
      rw [heq, ← (hok o rfl).1, ← ht]
    exact (h.vacant fun hmem => hc (Registered.mem_channels_of_free hn hmem)).of_onlyOn honly hne
  | notMounted hmount =>
    obtain ⟨honly, _⟩ := Graph.mount_spec hm hmount
    obtain ⟨hcounted, hundone⟩ := Graph.mount_registry h.counted hvacant hmount
    refine ⟨hcounted, fun {c} hc => ?_, h.places⟩
    by_cases heq : c = w.graph.acquireChannel.1
    · rw [heq]
      exact (hundone _ _ rfl).1
    · exact (h.vacant hc).of_onlyOn honly heq
  | @unmounted n t hn =>
    have hmem := Sound.mem_of_lookup hn
    refine ⟨t.toOverlay.counted_unmount h.counted, fun {c} hc => ?_,
      (List.filter_sublist.map Prod.fst).nodup h.places⟩
    by_cases heq : c = t.toOverlay.channel
    · rw [heq]
      exact (hs.tenant hn).overlay.fits.covers.unmount
    · have hfree : c ∉ w.channels := fun hold =>
        (h.mem_channels_vacated hmem hold).elim heq hc
      exact (h.vacant hfree).of_onlyOn (t.toOverlay.unmount_onlyOn w.graph) heq
  | moved hn hmoves =>
    have hchannel := (hmoves.sound (hs.tenant hn)).2
    have hmem := Sound.mem_of_lookup hn
    exact ⟨h.counted, fun hc => h.vacant fun hold => hc (h.mem_channels_placed hmem hchannel hold),
      h.places_placed _ _⟩

theorem Reachable.registered (h : w.Reachable) : w.Registered := by
  refine (h.invariant (P := fun w => w.Sound ∧ w.Registered) ⟨sound_empty, .empty⟩ ?_).2
  intro w w' trouble? ht hw
  exact ⟨ht.sound hw.1, ht.registered hw.1 hw.2⟩

/-! What elements carry -/

omit [Cost κ] in
/-- A table holds something for exactly the channels of the tenants, and counts it rightly. -/
structure Lists (w : Workspace V E κ) (t : SlotTable) : Prop where
  contains : ∀ c : Channel, t.contains c.index = true ↔ c ∈ w.channels
  live : t.live = w.tenants.length

omit [Cost κ] in
/-- Every element of the graph is registered with all that is mounted, and with nothing else. -/
structure Registry (w : Workspace V E κ) : Prop where
  distinct : w.channels.Nodup
  channels : w.Lists w.graph.channels
  vertex : ∀ {v x}, w.graph.vertex v = .ok x → w.Lists x.slots
  edge : ∀ {e x}, w.graph.edge e = .ok x → w.Lists x.slots
  vertexMark : ∀ p ∈ w.tenants, ∀ {v x}, w.graph.vertex v = .ok x →
    ∃ mark, p.2.toOverlay.vertexMark w.graph v = .ok mark ∧ mark.vertex = v
  edgeMark : ∀ p ∈ w.tenants, ∀ {e x}, w.graph.edge e = .ok x →
    ∃ mark, p.2.toOverlay.edgeMark w.graph e = .ok mark ∧ mark.edge = e

theorem Sound.distinct (h : w.Sound) : w.channels.Nodup :=
  List.pairwise_map.mpr h.apart

omit [Cost κ] in
theorem lists_of_counts {table : SlotTable} (hd : w.channels.Nodup) (ht : table.Counts)
    (hc : ∀ c : Channel, table.contains c.index = true ↔ c ∈ w.channels) : w.Lists table := by
  refine ⟨hc, ?_⟩
  have hindex : Function.Injective Channel.index := fun c d he => by cases c; cases d; cases he; rfl
  have hmem : ∀ i, i ∈ w.channels.map Channel.index ↔ table.contains i = true := by
    intro i
    rw [hc ⟨i⟩, ← List.mem_map_of_injective hindex]
  have hlive := ht.live_eq (hd.map hindex) hmem
  rw [hlive, List.length_map, channels, List.length_map]

theorem Sound.contains_vertex (h : w.Sound) {c : Channel} (hc : c ∈ w.channels) {v : VertexId}
    {x : Vertex V} (hx : w.graph.vertices.get? v = some x) :
    x.slots.contains c.index = true := by
  obtain ⟨p, hp, rfl⟩ := List.mem_map.mp hc
  obtain ⟨i, mark, hm⟩ := (h.tenants p hp).overlay.fits.vertex (Arena.contains_iff.mpr ⟨x, hx⟩)
  obtain ⟨⟨y, hy, hi⟩, _⟩ := Overlay.findVertex_eq_ok.mp hm
  rw [hx] at hy
  cases hy
  obtain ⟨handle, hh, _⟩ := Option.bind_eq_some_iff.mp hi
  exact Option.isSome_iff_exists.mpr ⟨handle, hh⟩

theorem Sound.contains_edge (h : w.Sound) {c : Channel} (hc : c ∈ w.channels) {e : EdgeId}
    {x : Edge E} (hx : w.graph.edges.get? e = some x) :
    x.slots.contains c.index = true := by
  obtain ⟨p, hp, rfl⟩ := List.mem_map.mp hc
  obtain ⟨i, mark, hm⟩ := (h.tenants p hp).overlay.fits.edge (Arena.contains_iff.mpr ⟨x, hx⟩)
  obtain ⟨⟨y, hy, hi⟩, _⟩ := Overlay.findEdge_eq_ok.mp hm
  rw [hx] at hy
  cases hy
  obtain ⟨handle, hh, _⟩ := Option.bind_eq_some_iff.mp hi
  exact Option.isSome_iff_exists.mpr ⟨handle, hh⟩

/-- What is vacant under a channel that is not held, and not under one that is, lists the
tenants. -/
theorem Registered.lists (h : w.Registered) (hs : w.Sound) {table : SlotTable}
    (ht : table.Counts) (hheld : ∀ c ∈ w.channels, table.contains c.index = true)
    (hfree : ∀ c, w.graph.Vacant c → table.contains c.index = false) : w.Lists table := by
  refine lists_of_counts hs.distinct ht fun c => ⟨fun hc => ?_, hheld c⟩
  by_contra hout
  rw [hfree c (h.vacant hout)] at hc
  cases hc

theorem Registered.registry (h : w.Registered) (hs : w.Sound) : w.Registry where
  distinct := hs.distinct
  channels := by
    refine h.lists hs h.counted.channels (fun c hc => ?_) fun c hv => hv.free
    obtain ⟨p, hp, rfl⟩ := List.mem_map.mp hc
    exact hs.held p hp
  vertex {v x} hx := by
    have hx := Graph.vertex_eq_ok.mp hx
    refine h.lists hs (h.counted.tables.vertex hx) (fun c hc => hs.contains_vertex hc hx) ?_
    intro c hv
    exact congrArg Option.isSome (hv.handle?_vertex hx)
  edge {e x} hx := by
    have hx := Graph.edge_eq_ok.mp hx
    refine h.lists hs (h.counted.tables.edge hx) (fun c hc => hs.contains_edge hc hx) ?_
    intro c hv
    exact congrArg Option.isSome (hv.handle?_edge hx)
  vertexMark p hp {v x} hx := by
    have hlive := Arena.contains_iff.mpr ⟨x, Graph.vertex_eq_ok.mp hx⟩
    obtain ⟨i, mark, hm⟩ := (hs.tenants p hp).overlay.fits.vertex hlive
    exact ⟨mark, Overlay.vertexMark_eq_ok.mpr ⟨i, hm⟩, (Overlay.findVertex_eq_ok.mp hm).2.2⟩
  edgeMark p hp {e x} hx := by
    have hlive := Arena.contains_iff.mpr ⟨x, Graph.edge_eq_ok.mp hx⟩
    obtain ⟨i, mark, hm⟩ := (hs.tenants p hp).overlay.fits.edge hlive
    exact ⟨mark, Overlay.edgeMark_eq_ok.mpr ⟨i, hm⟩, (Overlay.findEdge_eq_ok.mp hm).2.2⟩

/-! Where channels come from -/

omit [Cost κ] in
/-- A tenant has the channel that its place had before, or the place was free and the channel is the
least one that was not held. -/
def ChannelDue (w : Workspace V E κ) (p : Nat × Tenant V E κ) : Prop :=
  (∃ q ∈ w.tenants, q.1 = p.1 ∧ q.2.toOverlay.channel = p.2.toOverlay.channel) ∨
    w.tenants.lookup p.1 = none ∧
      IsLeast {i | (⟨i⟩ : Channel) ∉ w.channels} p.2.toOverlay.channel.index

theorem Registered.isLeast_acquireChannel (h : w.Registered) (hs : w.Sound) :
    IsLeast {i | (⟨i⟩ : Channel) ∉ w.channels} w.graph.acquireChannel.1.index := by
  refine ⟨hs.not_mem_channels, fun i hi => ?_⟩
  by_contra hlt
  have htaken := SlotTable.contains_of_lt_freeIndex (Nat.lt_of_not_le hlt)
  have hfree := (h.vacant hi).free
  rw [Graph.channelInUse, htaken] at hfree
  cases hfree

theorem Turn.channelDue (ht : w.Turn trouble? w') (hs : w.Sound) (h : w.Registered) :
    ∀ p ∈ w'.tenants, w.ChannelDue p := by
  have hkept (p : Nat × Tenant V E κ) (hp : p ∈ w.tenants) : w.ChannelDue p :=
    Or.inl ⟨p, hp, rfl, rfl⟩
  cases ht with
  | refused refusal => exact hkept
  | missing m => exact hkept
  | answered => exact hkept
  | unanswered hn hfailure => exact hkept
  | edited hw hg vertices edges => exact hkept
  | notMounted hmount => exact hkept
  | unmounted hn => exact fun p hp => hkept p (List.mem_of_mem_filter hp)
  | @mounted n evaluator o g' t hn hmount ht hidle =>
    intro p hp
    obtain rfl | hp := List.mem_cons.mp hp
    · obtain ⟨es, hm⟩ := hs.mirrors
      have hchannel := ((Graph.mount_spec hm hmount).2 o rfl).1
      rw [← ht] at hchannel
      refine Or.inr ⟨hn, ?_⟩
      rw [hchannel]
      exact h.isLeast_acquireChannel hs
    · exact hkept p (List.mem_of_mem_filter hp)
  | moved hn hmoves =>
    intro p hp
    obtain rfl | hp := List.mem_cons.mp hp
    · exact Or.inl ⟨_, Sound.mem_of_lookup hn, rfl, (hmoves.sound (hs.tenant hn)).2.symm⟩
    · exact hkept p (List.mem_of_mem_filter hp)

theorem Turn.not_ofRegistry {failure : Failure κ} (ht : w.Turn (some (.failed failure)) w')
    (hs : w.Sound) (h : w.Registered) : ¬ failure.OfRegistry := by
  generalize htrouble : some (Trouble.failed failure) = trouble? at ht
  cases ht with
  | refused refusal => cases htrouble
  | missing m =>
    cases htrouble
    exact id
  | answered => cases htrouble
  | unanswered hn hfailure =>
    cases htrouble
    exact hfailure.not_ofRegistry (hs.tenant hn).overlay.fits
  | edited hw hg vertices edges => cases htrouble
  | mounted hn hmount ht hidle => cases htrouble
  | notMounted hmount =>
    cases htrouble
    have hvacant := h.vacant hs.not_mem_channels
    exact ((Graph.mount_registry h.counted hvacant hmount).2 _ _ rfl).2
  | unmounted hn => cases htrouble
  | @moved n t t' failed hn hmoves =>
    cases failed with
    | none => cases htrouble
    | some failure' =>
      cases htrouble
      exact hmoves.not_ofRegistry (hs.tenant hn)

/-- However overlays are mounted, searched, reset and unmounted, and the graph edited while there
are none: every element is registered with exactly the mounted ones, each of which got the least
channel that was free, and no request ever complains of what an element carries. -/
theorem Reachable.registry_exact (h : w.Reachable) :
    w.Registry ∧ (w.tenants = [] → ∀ c, w.graph.Vacant c) ∧
      (∀ p ∈ w.tenants, ∀ v failure, p.2.toOverlay.pathTo w.graph v = .error failure →
        ¬ failure.OfRegistry) ∧
      ∀ r : Request V E κ, (∀ p ∈ (w.obey r).tenants, w.ChannelDue p) ∧
        ∀ failure w', r.perform w = .error (.failed failure) w' → ¬ failure.OfRegistry := by
  have hs := h.sound
  have hr := h.registered
  refine ⟨hr.registry hs, fun hw c => hr.vacant ?_, fun p hp v failure hp' => ?_, fun r => ⟨?_, ?_⟩⟩
  · simp [channels, hw]
  · exact (hs.tenants p hp).overlay.fits.not_ofRegistry_pathTo hp'
  · obtain ⟨trouble?, ht⟩ := turn_obey w r
    exact ht.channelDue hs hr
  · intro failure w' hp
    exact (turn_of_error hp).not_ofRegistry hs hr

/-- Four overlays on an edge, of which the second is taken off before the last comes; a fifth is
refused by its evaluator. The gap is filled. -/
theorem Reachable.registry_exact_gap :
    ∃ w : Workspace Unit Float Float, w.Reachable ∧ w.Registry ∧
      w.channels = [⟨1⟩, ⟨2⟩, ⟨3⟩, ⟨0⟩] := by
  let rs : List (Request Unit Float Float) := [
    .addVertices [(), ()], .link ⟨0, 0⟩ ⟨1, 0⟩ .directed 1, .deed 0 (.mount .payload),
    .deed 1 (.mount .payload), .deed 2 (.mount .payload), .deed 3 (.mountFinder .payload {}),
    .deed 1 .unmount, .deed 2 (.search ⟨0, 0⟩ ⟨1, 0⟩ {}), .deed 4 (.mount (.constant (-1))),
    .deed 5 (.mount .payload)]
  have hreach : (rs.foldl obey {}).Reachable := ⟨rs, rfl⟩
  exact ⟨_, hreach, hreach.registry_exact.1, by decide +kernel⟩

end Workspace

end Waymark
