import Decouple.Proofs.Availability

/-!
# Where the φs of a worker come from

The branches of a worker look forward: to the nearest copied block that post-dominates the
original target. Its φs look back: to the nearest copied block that dominates the original
incoming block. The two agree if nothing that matters is left out between a block and the
next one that concerns the thread:

* the concerned blocks have to be closed under control dependence. Then control of the worker
  goes from one copy to another exactly where the loop has a path between the two blocks past
  all other concerned ones (`OfGated.flowEdge_of_approaches`,
  `OfGated.exists_approach_of_flowEdge`);
* such paths must not meet in a block that was left out. A block that is approached from one
  concerned block only has that block as its nearest copied dominator
  (`OfGated.exists_approach_of_copyOfPred`).

Then the incoming blocks of a copied φ are the predecessors of its block. Without the one or the
other they need not be (`Choosing`).
-/

namespace Decouple

/-- A path leads from the concerned place `a` to `b` and meets no concerned place behind
`a`. -/
def Approaches {α : Type} (edge : α → α → Prop) (concerned : α → Prop) (a b : α) : Prop :=
  concerned a ∧ ∃ skipped, Walk edge a b (a :: skipped) ∧ ∀ x ∈ skipped, ¬ concerned x

namespace Approaches

variable {α : Type} {edge : α → α → Prop} {concerned : α → Prop} {root a b c : α}
  {visited : List α}

theorem refl (ha : concerned a) : Approaches edge concerned a a :=
  ⟨ha, [], .stay a, by simp⟩

theorem snoc (h : Approaches edge concerned a b) (hedge : edge b c) (hc : ¬ concerned c) :
    Approaches edge concerned a c := by
  obtain ⟨ha, skipped, hwalk, hskipped⟩ := h
  refine ⟨ha, skipped ++ [c], hwalk.snoc hedge, ?_⟩
  intro x hx
  rcases List.mem_append.1 hx with hx | hx
  · exact hskipped x hx
  · exact List.mem_singleton.1 hx ▸ hc

/-- A concerned place is approached from itself only. -/
theorem eq_of_concerned (h : Approaches edge concerned a b) (hb : concerned b) : a = b := by
  obtain ⟨-, skipped, hwalk, hskipped⟩ := h
  obtain ⟨-, ⟨-, heq⟩ | ⟨d, -, hrest⟩⟩ := hwalk.cons_cases
  · exact heq
  · exact absurd hb (hskipped b hrest.end_mem)

/-- The last concerned place of a walk approaches its end. -/
theorem exists_of_walk (h : Walk edge root b visited) (hmem : ∃ x ∈ visited, concerned x) :
    ∃ a ∈ visited, Approaches edge concerned a b := by
  obtain ⟨a, before, after, ha, hafter, -, hlast, rfl⟩ := h.cut_last hmem
  exact ⟨a, by simp, ha, after, hlast, hafter⟩

end Approaches

/-- A list of places, each of which leads to the next one, is a walk. -/
theorem Reaches.of_isChain {α : Type} {edge : α → α → Prop} {a b : α} {path : List α}
    (h : (a :: path).IsChain edge) (hlast : path.getLast? = some b) : Reaches edge a b := by
  induction path generalizing a with
  | nil => cases hlast
  | cons c path ih =>
      obtain ⟨hedge, hrest⟩ := List.isChain_cons_cons.1 h
      cases path with
      | nil =>
          obtain rfl := Option.some.inj hlast
          exact .of_edge hedge
      | cons d path => exact (Reaches.of_edge hedge).trans (ih hrest hlast)

namespace Program

/-- The incoming blocks of the φs in a block are those blocks that lead to it and that control
can get to. -/
def PhisMatch (p : Program) (layout : List BlockRef) (b : BlockRef) : Prop :=
  ∀ i instr, p.Lists b i → p.instr? i = some instr → instr.op.isPhi →
    ∀ a, (∃ v, (v, a) ∈ instr.op.incoming) ↔ p.FlowEdge layout a b ∧ p.FlowReachable layout a

end Program

namespace Loop.Gated

variable {loop : Loop} {edge : BlockRef → BlockRef → Prop} {a b : BlockRef}
  {visited skipped : List BlockRef}

/-- A path between blocks of the loop that does not come back to the header stays inside. -/
theorem inside_of_skipped (h : loop.Gated edge) (hwalk : Walk edge a b (a :: skipped))
    (hheader : loop.header ∉ skipped) (ha : a ∈ loop) (hb : b ∈ loop) :
    ∀ x ∈ skipped, x ∈ loop := by
  by_contra hnot
  push Not at hnot
  obtain ⟨x, hx, hxloop⟩ := hnot
  have houtside : ∃ x ∈ a :: skipped, (fun x => x ∉ loop) x :=
    ⟨x, List.mem_cons_of_mem _ hx, hxloop⟩
  obtain ⟨d, before, after, hd, hinside, -, hlast, heq⟩ := hwalk.cut_last houtside
  obtain ⟨-, ⟨-, rfl⟩ | ⟨e, hedge, hrest⟩⟩ := hlast.cons_cases
  · exact hd hb
  · obtain ⟨-, rfl⟩ := h.entering d e hedge hd (not_not.1 (hinside e hrest.start_mem))
    cases before with
    | nil =>
        obtain rfl : a = d := (List.cons.inj heq).1
        exact hd ha
    | cons y before =>
        obtain rfl : skipped = before ++ d :: after := (List.cons.inj heq).2
        exact hheader (by simp [hrest.start_mem])

/-- A path from a block of the loop that does not come to the exit stays inside. -/
theorem inside_of_not_exit (h : loop.Gated edge) (hwalk : Walk edge a b visited)
    (ha : a ∈ loop) (hexit : loop.exit ∉ visited) : ∀ x ∈ visited, x ∈ loop := by
  induction hwalk with
  | stay a =>
      intro x hx
      exact List.mem_singleton.1 hx ▸ ha
  | @step a d b visited hedge hwalk ih =>
      rw [List.mem_cons, not_or] at hexit
      have hd : d ∈ loop := by
        by_contra hd
        exact hexit.2 (h.leaving a d hedge ha hd ▸ hwalk.start_mem)
      intro x hx
      rcases List.mem_cons.1 hx with rfl | hx
      · exact ha
      · exact ih hd hexit.2 x hx

end Loop.Gated

namespace Worker.OfGated

variable {s : Setting} {p q : Program} {func wfunc : Func} {workers : List Worker}
  {blocks : List BlockRef} {here : BlockRef → List (InstrRef × InstrRef)} {σ : Renaming}
  {w : Worker} {entry a b pred copy copy' : BlockRef}

/-- Where a path of the loop leads from one concerned block to the next, an edge of the worker
leads from copy to copy. -/
theorem flowEdge_of_approaches (h : OfGated s p func workers blocks here σ w q wfunc entry)
    (hclosed : s.loop.ClosedUnderControl p func.blocks (· ∈ blocks))
    (ha : Approaches (p.FlowEdge func.blocks) (· ∈ blocks) a pred) (hpred : pred ∈ s.loop)
    (hedge : p.FlowEdge func.blocks pred b) (hb : b ∈ blocks)
    (hcopy : w.blockMap[a]? = some copy) (hcopy' : w.blockMap[b]? = some copy') :
    q.FlowEdge wfunc.blocks copy copy' := by
  obtain ⟨hablocks, skipped, hwalk, hskipped⟩ := ha
  have hinside := h.gated.inside_of_skipped hwalk
    (fun hmem => hskipped _ hmem h.body.header_mem) (h.body.mem_loop hablocks) hpred
  have hskipped : ∀ x ∈ skipped, x ∈ s.loop ∧ x ∉ blocks :=
    fun x hx => ⟨hinside x hx, hskipped x hx⟩
  obtain ⟨-, ⟨hnil, -⟩ | ⟨d, hfirst, hrest⟩⟩ := (hwalk.snoc hedge).cons_cases
  · simp at hnil
  · refine h.body.flowEdge_of_copyOfTarget h.wellFormed h.inside h.lookup hablocks hcopy hfirst
      (.inl hb) hcopy' fun c hc => ?_
    exact h.body.copyOfTarget_eq_of_first h.into hc
      (hclosed.postDominates_first hrest hskipped hb) hrest hskipped (.inl hb)

/-- Every edge of the worker between copies comes from such a path. -/
theorem exists_approach_of_flowEdge (h : OfGated s p func workers blocks here σ w q wfunc entry)
    (hclosed : s.loop.ClosedUnderControl p func.blocks (· ∈ blocks)) (ha : a ∈ blocks)
    (hb : b ∈ blocks) (hcopy : w.blockMap[a]? = some copy) (hcopy' : w.blockMap[b]? = some copy')
    (hedge : q.FlowEdge wfunc.blocks copy copy') :
    ∃ pred ∈ s.loop, p.FlowEdge func.blocks pred b ∧
      Approaches (p.FlowEdge func.blocks) (· ∈ blocks) a pred := by
  have haloop := h.body.mem_loop ha
  obtain ⟨targets, htargets, hcopied, hok⟩ :=
    h.body.successors_copy h.wellFormed (h.inside a haloop) ha hcopy
  obtain ⟨-, -, targets', htargets', hmem⟩ := hedge
  obtain rfl := Except.ok.inj (hcopied.symm.trans htargets')
  obtain ⟨t, ht, hchanged⟩ := List.mem_map.1 hmem
  have htarget := hok t ht
  rw [hchanged] at htarget
  obtain ⟨htloop, c, hc, hpost, hnearest⟩ := copyOfTarget_eq_ok h.into.postDom htarget
  obtain rfl := h.eq_of_copy (h.target_cases htloop hc hpost hnearest) (.inl hb) hc hcopy'
  -- control gets from the target to `c` inside the loop; `c` is the first copied block there
  have hne : s.loop.exit ≠ c := fun heq => h.into.exit_not_mem (heq ▸ h.body.mem_loop hb)
  obtain ⟨visited, hvisited, hexit⟩ :=
    hpost.exists_avoiding hnearest (h.body.isSome_blockMap (.inr rfl)) hne
  have htinside : t ∈ s.loop :=
    htloop.resolve_right fun heq => hexit (heq ▸ hvisited.start_mem)
  have hinside := h.gated.inside_of_not_exit hvisited htinside hexit
  have hcopied : ∃ x ∈ visited, (fun x => x ∈ blocks) x := ⟨c, hvisited.end_mem, hb⟩
  obtain ⟨d, before, after, hd, hbefore, hfirst, -, rfl⟩ := hvisited.cut_first hcopied
  have hskipped : ∀ x ∈ before, x ∈ s.loop ∧ x ∉ blocks :=
    fun x hx => ⟨hinside x (List.mem_append_left _ hx), hbefore x hx⟩
  have hdcopy := h.body.copyOfTarget_eq_of_first h.into htarget
    (hclosed.postDominates_first hfirst hskipped hd) hfirst hskipped (.inl hd)
  obtain rfl := h.eq_of_copy (.inl hd) (.inl hb) hdcopy hcopy'
  have hwalk : Walk (p.FlowEdge func.blocks) a d (a :: before ++ [d]) :=
    .step ⟨h.inside a haloop, h.inside t htinside, _, htargets, ht⟩ hfirst
  obtain ⟨-, hnil⟩ | ⟨x, before', hwalk', hedge, heq⟩ := hwalk.last_cases
  · simp at hnil
  · obtain rfl : a :: before = before' := List.append_cancel_right heq
    refine ⟨x, ?_, hedge, ha, before, hwalk', hbefore⟩
    rcases List.mem_cons.1 hwalk'.end_mem with rfl | hx
    · exact haloop
    · exact (hskipped x hx).1

/-- Control comes from the preheader to the header. -/
theorem flowEdge_preheader (h : OfGated s p func workers blocks here σ w q wfunc entry) :
    p.FlowEdge func.blocks s.loop.preheader s.loop.header := by
  obtain ⟨visited, hvisited⟩ := h.reaches h.into.header_mem
  obtain ⟨before, after, -, houtside, hbefore, hfirst⟩ :=
    h.gated.exists_entering h.entry_not_mem hvisited ⟨_, hvisited.end_mem, h.into.header_mem⟩
  obtain ⟨heq, -⟩ | ⟨x, before', hbefore', hedge, heq⟩ := hfirst.last_cases
  · exact absurd (heq ▸ h.into.header_mem) h.entry_not_mem
  · obtain rfl : before = before' := List.append_cancel_right heq
    exact Option.some.inj (hbefore.getLast?_eq.symm.trans hbefore'.getLast?_eq) ▸ hedge

theorem flowEdge_entry (h : OfGated s p func workers blocks here σ w q wfunc entry)
    (hcopy : w.blockMap[s.loop.header]? = some copy) :
    q.FlowEdge wfunc.blocks w.entry copy := by
  obtain ⟨header, hheader, hsuccs⟩ := h.body.successors_entry
  obtain rfl := Option.some.inj (hheader.symm.trans hcopy)
  exact ⟨List.mem_of_head? h.arranged.head?_eq, (h.copy_mem h.body.header_mem hcopy).1, _, hsuccs,
    List.mem_singleton_self _⟩

/-- Control of the worker can get to all copies. -/
theorem reachable_copy (h : OfGated s p func workers blocks here σ w q wfunc entry)
    (hclosed : s.loop.ClosedUnderControl p func.blocks (· ∈ blocks)) (hb : b ∈ blocks)
    (hcopy : w.blockMap[b]? = some copy) : q.FlowReachable wfunc.blocks copy := by
  refine ⟨w.entry, h.arranged.head?_eq, ?_⟩
  have hbloop := h.body.mem_loop hb
  obtain ⟨visited, hvisited⟩ := h.reaches hbloop
  obtain ⟨run, hrun, hinside⟩ := h.gated.exists_run h.entry_not_mem hvisited hbloop
  -- along the run control of the worker stays in the copy of the last concerned block
  obtain ⟨a, c, hac, hc, hreach⟩ : ∃ a c, Approaches (p.FlowEdge func.blocks) (· ∈ blocks) a b ∧
      w.blockMap[a]? = some c ∧ Reaches (q.FlowEdge wfunc.blocks) w.entry c := by
    refine hrun.grow (motive := fun x before => (∀ y ∈ before, y ∈ s.loop) → ∃ a c,
      Approaches (p.FlowEdge func.blocks) (· ∈ blocks) a x ∧ w.blockMap[a]? = some c ∧
      Reaches (q.FlowEdge wfunc.blocks) w.entry c) ?_ ?_ hinside
    · intro _
      obtain ⟨header, hheader⟩ := h.body.exists_copy h.body.header_mem
      exact ⟨s.loop.header, header, .refl h.body.header_mem, hheader,
        .of_edge (h.flowEdge_entry hheader)⟩
    · intro x y before hbefore ih hedge hinside
      have hx : x ∈ s.loop := hinside x (List.mem_append_left _ hbefore.end_mem)
      obtain ⟨a, c, hax, hc, hreach⟩ := ih fun z hz => hinside z (List.mem_append_left _ hz)
      by_cases hy : y ∈ blocks
      · obtain ⟨c', hc'⟩ := h.body.exists_copy hy
        exact ⟨y, c', .refl hy, hc',
          hreach.snoc (h.flowEdge_of_approaches hclosed hax hx hedge hy hc hc')⟩
      · exact ⟨a, c, hax.snoc hedge hy, hc, hreach⟩
  obtain rfl := hac.eq_of_concerned hb
  obtain rfl := Option.some.inj (hc.symm.trans hcopy)
  exact hreach

/-- A φ that comes from a block of the loop which only one concerned block approaches comes
from the copy of that block. -/
theorem exists_approach_of_copyOfPred
    (h : OfGated s p func workers blocks here σ w q wfunc entry) (hpred : pred ∈ s.loop)
    (hunique : ∀ a a', Approaches (p.FlowEdge func.blocks) (· ∈ blocks) a pred →
      Approaches (p.FlowEdge func.blocks) (· ∈ blocks) a' pred → a = a')
    (hcopy : copyOfPred s w.blockMap pred = .ok copy) :
    ∃ a, Approaches (p.FlowEdge func.blocks) (· ∈ blocks) a pred ∧
      w.blockMap[a]? = some copy := by
  obtain ⟨d, hd, hdom, hnearest⟩ := copyOfPred_eq_ok h.into.dom h.entry_eq hcopy
  -- every path to the block comes through the header, which is concerned
  have happroach : ∀ visited, Walk (p.FlowEdge func.blocks) entry pred visited →
      ∃ a ∈ visited, Approaches (p.FlowEdge func.blocks) (· ∈ blocks) a pred := by
    intro visited hwalk
    refine Approaches.exists_of_walk hwalk ⟨s.loop.header, ?_, h.body.header_mem⟩
    obtain ⟨before, after, rfl, -⟩ :=
      h.gated.exists_entering h.entry_not_mem hwalk ⟨pred, hwalk.end_mem, hpred⟩
    simp
  obtain ⟨visited, hvisited⟩ := h.reaches hpred
  obtain ⟨a, -, ha⟩ := happroach visited hvisited
  refine ⟨a, ha, ?_⟩
  have hall : ∀ visited, Walk (p.FlowEdge func.blocks) entry pred visited → a ∈ visited := by
    intro visited hwalk
    obtain ⟨a', hmem, ha'⟩ := happroach visited hwalk
    exact hunique a' a ha' ha ▸ hmem
  obtain ⟨hablocks, skipped, hwalk, hskipped⟩ := ha
  have haloop := h.body.mem_loop hablocks
  have had : Dominates (p.FlowEdge func.blocks) entry a d := by
    obtain ⟨root, hroot, hdom'⟩ := hnearest a
      ⟨entry, h.entry_eq, .of_forall_walk ⟨_, hvisited⟩ hall⟩
      (h.body.isSome_blockMap (.inl hablocks))
    exact Option.some.inj (h.entry_eq.symm.trans hroot) ▸ hdom'
  -- no copied block lies between `a` and the incoming block, so `d` lies on all paths to `a`
  have hinside := h.gated.inside_of_skipped hwalk
    (fun hmem => hskipped _ hmem h.body.header_mem) haloop hpred
  have hda : Dominates (p.FlowEdge func.blocks) entry d a := by
    refine .of_forall_walk (h.reaches haloop) ?_
    intro visited hvisited
    rcases List.mem_append.1 (hdom.onEveryPath entry _ h.entry_eq (hvisited.join hwalk)) with
      hmem | hmem
    · exact hmem
    · have hdblocks := (h.body.isSome_blockMap_iff h.into.exit_not_mem h.into.preheader_not_mem
        (hinside d hmem)).1 (by rw [hd]; rfl)
      exact absurd hdblocks (hskipped d hmem)
  exact had.antisymm hda ▸ hd

/-- A φ that comes from the preheader comes from the entry of the worker. -/
theorem copyOfPred_preheader (h : OfGated s p func workers blocks here σ w q wfunc entry)
    (hdistinct : s.loop.preheader ≠ s.loop.exit)
    (hcopy : copyOfPred s w.blockMap s.loop.preheader = .ok copy) : copy = w.entry := by
  have hentry := h.body.preheader_eq hdistinct
  obtain ⟨d, hd, ⟨root, hroot, hdom⟩, hnearest⟩ := copyOfPred_eq_ok h.into.dom h.entry_eq hcopy
  obtain ⟨root', hroot', hdom'⟩ := hnearest s.loop.preheader ⟨root, hroot, .refl _ _ _⟩
    (by rw [hentry]; rfl)
  obtain rfl := Option.some.inj (hroot.symm.trans hroot')
  obtain rfl := hdom.antisymm hdom'
  exact Option.some.inj (hd.symm.trans hentry)

/-- A copied φ comes from what stands for the incoming blocks of its original. -/
theorem exists_original_phi (h : OfGated s p func workers blocks here σ w q wfunc entry)
    (hb : b ∈ blocks) (hcopy : w.blockMap[b]? = some copy) {i : InstrRef} {instr : Instr}
    (hi : q.Lists copy i) (hinstr : q.instr? i = some instr) (hphi : instr.op.isPhi) :
    ∃ j old, p.Lists b j ∧ p.instr? j = some old ∧ old.op.isPhi ∧
      (∀ v pred, (v, pred) ∈ old.op.incoming → ∃ x, copyOfPred s w.blockMap pred = .ok x) ∧
      ∀ x, (∃ v, (v, x) ∈ instr.op.incoming) ↔
        ∃ v pred, (v, pred) ∈ old.op.incoming ∧ copyOfPred s w.blockMap pred = .ok x := by
  obtain ⟨block, hblock, hmem⟩ := hi
  obtain ⟨block', hblock', hcopies⟩ := h.body.listed b hb copy hcopy
  obtain rfl := Option.some.inj (hblock.symm.trans hblock')
  rw [hcopies] at hmem
  obtain ⟨pair, hpair, rfl⟩ := List.mem_map.1 hmem
  obtain ⟨old, name, hold, hplaced, hnew⟩ := h.body.copies b hb copy hcopy pair hpair
  obtain rfl := Option.some.inj (hinstr.symm.trans hnew)
  rw [Op.isPhi_mapOperands, copied, Op.isPhi_mapIncoming, Op.isPhi_mapSuccessors] at hphi
  refine ⟨pair.1, old, (h.lists_of_here hb hcopy hpair).1, hold, hphi,
    fun v pred hv => ⟨_, hplaced.preds _ hv⟩, ?_⟩
  intro x
  simp only [Op.incoming_mapOperands, copied, Op.incoming_mapIncoming, Op.incoming_mapSuccessors,
    List.map_map, List.mem_map, Function.comp_apply, Prod.mk.injEq]
  constructor
  · rintro ⟨-, ⟨v, pred⟩, hv, -, rfl⟩
    exact ⟨v, pred, hv, hplaced.preds _ hv⟩
  · rintro ⟨v, pred, hv, hok⟩
    exact ⟨_, (v, pred), hv, rfl, Except.ok.inj ((hplaced.preds _ hv).symm.trans hok)⟩

/-- If every incoming block is approached from one concerned block only, then the incoming
blocks of a copied φ are the blocks that control of the worker comes from. -/
theorem phisMatch (h : OfGated s p func workers blocks here σ w q wfunc entry)
    (hclosed : s.loop.ClosedUnderControl p func.blocks (· ∈ blocks))
    (hdistinct : s.loop.preheader ≠ s.loop.exit) (hb : b ∈ blocks)
    (hcopy : w.blockMap[b]? = some copy)
    (hphis : ∀ i instr, p.Lists b i → p.instr? i = some instr → instr.op.isPhi →
      ∀ a, (∃ v, (v, a) ∈ instr.op.incoming) ↔ p.FlowEdge func.blocks a b)
    (hunique : ∀ pred ∈ s.loop, p.FlowEdge func.blocks pred b → ∀ a a',
      Approaches (p.FlowEdge func.blocks) (· ∈ blocks) a pred →
      Approaches (p.FlowEdge func.blocks) (· ∈ blocks) a' pred → a = a') :
    q.PhisMatch wfunc.blocks copy := by
  intro i instr hi hinstr hphi x
  obtain ⟨j, old, hj, hold, hphi', hok, hincoming⟩ :=
    h.exists_original_phi hb hcopy hi hinstr hphi
  have hpreds := hphis j old hj hold hphi'
  have hbloop := h.body.mem_loop hb
  have hentryReachable : q.FlowReachable wfunc.blocks w.entry :=
    ⟨w.entry, h.arranged.head?_eq, .refl _⟩
  rw [hincoming]
  constructor
  · rintro ⟨v, pred, hv, hok⟩
    have hedge := (hpreds pred).1 ⟨v, hv⟩
    by_cases hpred : pred ∈ s.loop
    · obtain ⟨a, ha, hx⟩ :=
        h.exists_approach_of_copyOfPred hpred (hunique pred hpred hedge) hok
      exact ⟨h.flowEdge_of_approaches hclosed ha hpred hedge hb hx hcopy,
        h.reachable_copy hclosed ha.1 hx⟩
    · obtain ⟨rfl, rfl⟩ := h.gated.entering pred b hedge hpred hbloop
      obtain rfl := h.copyOfPred_preheader hdistinct hok
      exact ⟨h.flowEdge_entry hcopy, hentryReachable⟩
  · rintro ⟨hedge, -⟩
    rcases h.arranged.cases hedge.source_mem with rfl | rfl | ⟨a, ha, hx⟩
    · obtain ⟨header, hheader, hsuccs⟩ := h.body.successors_entry
      obtain ⟨-, -, targets, htargets, hmem⟩ := hedge
      obtain rfl := Except.ok.inj (hsuccs.symm.trans htargets)
      obtain rfl := List.mem_singleton.1 hmem
      obtain rfl := h.eq_of_copy (.inl hb) (.inl h.body.header_mem) hcopy hheader
      obtain ⟨v, hv⟩ := (hpreds s.loop.preheader).2 h.flowEdge_preheader
      obtain ⟨x, hx⟩ := hok v _ hv
      exact ⟨v, _, hv, h.copyOfPred_preheader hdistinct hx ▸ hx⟩
    · obtain ⟨-, -, targets, htargets, hmem⟩ := hedge
      obtain rfl := Except.ok.inj (h.body.successors_exit.symm.trans htargets)
      exact absurd hmem List.not_mem_nil
    · obtain ⟨pred, hpred, hedge', happroach⟩ :=
        h.exists_approach_of_flowEdge hclosed ha hb hx hcopy hedge
      obtain ⟨v, hv⟩ := (hpreds pred).2 hedge'
      obtain ⟨y, hy⟩ := hok v pred hv
      have hpredUnique := hunique pred hpred hedge'
      obtain ⟨a', happroach', hy'⟩ := h.exists_approach_of_copyOfPred hpred hpredUnique hy
      obtain rfl := hpredUnique a a' happroach happroach'
      obtain rfl := Option.some.inj (hx.symm.trans hy')
      exact ⟨v, pred, hv, hy⟩

/-- The φs of the worker stand in copies. -/
theorem exists_block_of_phi (h : OfGated s p func workers blocks here σ w q wfunc entry)
    (hmem : copy ∈ wfunc.blocks) {i : InstrRef} {instr : Instr} (hi : q.Lists copy i)
    (hinstr : q.instr? i = some instr) (hphi : instr.op.isPhi) :
    ∃ b ∈ blocks, w.blockMap[b]? = some copy := by
  obtain ⟨header, start, code, last, start', code', last', -, hentry, hexit, hcode, hcode', -⟩ :=
    h.body.ends
  obtain ⟨block, hblock, hlisted⟩ := hi
  obtain ⟨before, after, hlist⟩ := List.append_of_mem hlisted
  rcases h.arranged.cases hmem with rfl | rfl | hcopy
  · obtain ⟨hnot, -⟩ := hentry.reads hcode (by simp [Op.isPhi]) (by simp [Op.operands])
      hblock hlist hinstr
    exact absurd hphi hnot
  · obtain ⟨hnot, -⟩ := hexit.reads hcode' (by simp [Op.isPhi]) (by simp [Op.operands])
      hblock hlist hinstr
    exact absurd hphi hnot
  · exact hcopy

end Worker.OfGated

/-- The φs of the worker, which has the function `wfunc` in `q`, match its flow of control. Each
stands in the copy of a `concerned` block. If each predecessor of that block inside the loop is
approached from one concerned block only, then the incoming blocks of the φs in the copy are those
blocks that lead to it and that control of the worker can get to. -/
structure Worker.MatchesPhis (w : Worker) (p : Program) (func : Func) (loop : Loop)
    (concerned : BlockRef → Prop) (q : Program) (wfunc : Func) : Prop where
  lookup : q.func? w.func = some wfunc
  entry_eq : wfunc.blocks.head? = some w.entry
  copied : ∀ copy ∈ wfunc.blocks, ∀ i instr, q.Lists copy i → q.instr? i = some instr →
    instr.op.isPhi → ∃ b, concerned b ∧ w.blockMap[b]? = some copy
  phisMatch : ∀ b copy, concerned b → w.blockMap[b]? = some copy →
    (∀ pred ∈ loop, p.FlowEdge func.blocks pred b → ∀ a a',
      Approaches (p.FlowEdge func.blocks) concerned a pred →
      Approaches (p.FlowEdge func.blocks) concerned a' pred → a = a') →
    q.PhisMatch wfunc.blocks copy

namespace Splitter

/-- The φs of the workers match their flow of control. Let the function pass its check, with
the predecessors of each block as the incoming blocks of its φs, let the preheader differ from
the exit, let control enter the loop from the preheader to the header only and leave it for
its exit only, and let all blocks of the loop be in reach. Let the blocks that concern the
thread of a worker be closed under control dependence. -/
theorem split_matches_phis {splitter splitter' : Splitter} {p q : Program} {f : FuncRef}
    {func : Func} {loop : Loop} {deps : Dependences} {plan : Plan} {result : Split}
    {entry : BlockRef}
    (hsplit : splitter.split p f loop deps plan = (.ok result, splitter', q))
    (hfunc : p.func? f = some func) (hcheck : p.check f = .ok ())
    (hphis : ∀ b ∈ func.blocks, ∀ i instr, p.Lists b i → p.instr? i = some instr →
      instr.op.isPhi → ∀ a, (∃ v, (v, a) ∈ instr.op.incoming) ↔ p.FlowEdge func.blocks a b)
    (hdistinct : loop.preheader ≠ loop.exit) (hnodup : loop.blocks.Nodup)
    (hloop : ∀ b ∈ loop, b ∈ func.blocks) (hentry : func.entry? = some entry)
    (hentryLoop : entry ∉ loop) (hgated : loop.Gated (p.FlowEdge func.blocks))
    (hinside : ∀ b ∈ loop, p.FlowReachable func.blocks b) :
    result.workers.length = plan.threads ∧ ∀ worker ∈ result.workers,
      loop.ClosedUnderControl p func.blocks (Worker.Concerned p loop deps plan worker.thread) →
      ∃ wfunc, worker.MatchesPhis p func loop
        (Worker.Concerned p loop deps plan worker.thread) q wfunc := by
  obtain ⟨func', hwell⟩ := Program.wellFormed_of_check hcheck
  obtain rfl := Option.some.inj (hfunc.symm.trans hwell.lookup)
  obtain ⟨s, rfl, rfl, rfl, rfl, hinto⟩ := splitInto_of_split hwell hnodup hloop hsplit
  refine ⟨by rw [← hinto.bodies.length_eq, List.length_range], ?_⟩
  intro worker hworker hclosed
  obtain ⟨blocks, here, σ, hbody⟩ := hinto.exists_body hworker
  obtain ⟨wfunc, hwfunc, harranged⟩ := hbody.layout
  have h : Worker.OfGated s p func result.workers blocks here σ _ q wfunc entry :=
    ⟨hinto, hbody, hwell, hloop, hentry, hentryLoop, hgated, hinside, hwfunc⟩
  have hconcerned : Worker.Concerned p s.loop s.deps s.plan worker.thread =
      (· ∈ blocks) := funext fun b => propext (hbody.mem_blocks_iff b).symm
  rw [hconcerned] at hclosed ⊢
  refine ⟨wfunc, hwfunc, harranged.head?_eq, ?copied, ?phisMatch⟩
  case copied =>
    intro copy hmem i instr hi hinstr hphi
    exact h.exists_block_of_phi hmem hi hinstr hphi
  case phisMatch =>
    intro b copy hb hcopy hunique
    exact h.phisMatch hclosed hdistinct hb hcopy (hphis b (hloop b (hbody.mem_loop hb))) hunique

end Splitter

namespace Counting

/-- A plan that leaves the first thread with the header only. -/
def narrow : Plan := ⟨2, [⟨0, [⟨1⟩, ⟨2⟩, ⟨3⟩]⟩, ⟨1, [⟨4⟩, ⟨5⟩, ⟨6⟩, ⟨7⟩]⟩]⟩

theorem phis_iff : ∀ b ∈ func.blocks, ∀ i instr, program.Lists b i →
    program.instr? i = some instr → instr.op.isPhi →
    ∀ a, (∃ v, (v, a) ∈ instr.op.incoming) ↔ program.FlowEdge func.blocks a b :=
  fun b hb i instr => strictForm.preds b i instr (reachable b hb)

theorem eq_header_of_concerned {b : BlockRef}
    (h : Worker.Concerned program loop setting.deps narrow 0 b) : b = ⟨1⟩ := by
  have hall : ∀ b ∈ loop.blocks, Worker.Concerned program loop setting.deps narrow 0 b →
      b = ⟨1⟩ := by decide
  exact hall b h.1 h

theorem narrow_closedUnderControl : loop.ClosedUnderControl program func.blocks
    (Worker.Concerned program loop setting.deps narrow 0) := by
  refine .of_single (fun b hb => ⟨⟨4⟩, flowFinal_exit, reaches_exit b hb⟩) ?_
  have hall : ∀ b ∈ loop.blocks, ¬ Worker.Concerned program loop setting.deps narrow 0 b →
      ∀ c ∈ func.blocks, ∀ d ∈ func.blocks, program.FlowEdge func.blocks b c →
        program.FlowEdge func.blocks b d → c = d := by decide
  intro b hb hleft c d hc hd
  exact hall b hb hleft c hc.target_mem d hd.target_mem hc hd

end Counting

namespace Splitter

/-- The φ of the counter comes from the latch, which the first thread leaves out together with
the body. -/
theorem split_matches_phis_counting :
    ∃ result splitter' q worker wfunc copy,
      (ofConfig Config.standard).split Counting.program ⟨0⟩ Counting.loop Counting.setting.deps
        Counting.narrow = (.ok result, splitter', q) ∧
      result.workers[0]? = some worker ∧ q.func? worker.func = some wfunc ∧
      worker.blockMap[(⟨1⟩ : BlockRef)]? = some copy ∧
      worker.blockMap[(⟨3⟩ : BlockRef)]? = none ∧
      (∃ i instr, q.Lists copy i ∧ q.instr? i = some instr ∧ instr.op.isPhi) ∧
      q.PhisMatch wfunc.blocks copy := by
  obtain ⟨result, splitter', q, hsplit, hrun⟩ := exists_of_any (ofConfig Config.standard)
    Counting.program ⟨0⟩ Counting.loop Counting.setting.deps Counting.narrow
    (fun result q => ∃ worker ∈ result.workers[0]?, worker.thread = 0 ∧
      worker.blockMap[(⟨3⟩ : BlockRef)]? = none ∧
      ∃ copy ∈ worker.blockMap[(⟨1⟩ : BlockRef)]?, ∃ i ∈ q.listedIn [copy],
        ∃ instr ∈ q.instr? i, instr.op.isPhi) (by decide +kernel)
  obtain ⟨worker, hworker, hthread, hskipped, copy, hcopy, i, hi, instr, hinstr, hphi⟩ :=
    of_decide_eq_true hrun
  have hfunc : Counting.program.func? ⟨0⟩ = some Counting.func := rfl
  have hentry : Counting.func.entry? = some ⟨0⟩ := rfl
  obtain ⟨-, hworkers⟩ := split_matches_phis hsplit hfunc (by decide) Counting.phis_iff (by decide)
    (by decide) (by decide) hentry (by decide) Counting.gated Counting.reachable_inside
  obtain ⟨wfunc, hmatches⟩ := hworkers worker (List.mem_of_getElem? hworker)
    (hthread ▸ Counting.narrow_closedUnderControl)
  rw [hthread] at hmatches
  refine ⟨result, splitter', q, worker, wfunc, copy, hsplit, hworker, hmatches.lookup, hcopy,
    hskipped, ?_, ?_⟩
  · obtain ⟨b, hb, hlists⟩ := Program.mem_listedIn_iff.1 hi
    exact ⟨i, instr, List.mem_singleton.1 hb ▸ hlists, hinstr, hphi⟩
  · refine hmatches.phisMatch ⟨1⟩ copy (by decide) hcopy fun pred _ _ a a' ha ha' => ?_
    rw [Counting.eq_header_of_concerned ha.1, Counting.eq_header_of_concerned ha'.1]

end Splitter

/-- Control of the worker comes from its entry along the copies of the blocks in `path` to the
copy of `b`, and some φ there leaves out the block that it comes from. -/
def Worker.Misses (worker : Worker) (q : Program) (path : List BlockRef) (b : BlockRef) : Prop :=
  ∃ wfunc ∈ q.func? worker.func, ∃ copy ∈ worker.blockMap[b]?,
    ∃ a ∈ (path.filterMap (worker.blockMap[·]?)).getLast?,
      wfunc.blocks.head? = some worker.entry ∧
      (worker.entry :: path.filterMap (worker.blockMap[·]?)).IsChain (q.FlowEdge wfunc.blocks) ∧
      q.FlowEdge wfunc.blocks a copy ∧ ∃ i ∈ q.listedIn [copy], ∃ instr ∈ q.instr? i,
        instr.op.isPhi ∧ a ∉ instr.op.incoming.map Prod.snd

instance (worker : Worker) (q : Program) (path : List BlockRef) (b : BlockRef) :
    Decidable (worker.Misses q path b) := by
  unfold Worker.Misses
  infer_instance

theorem Worker.Misses.not_phisMatch {worker : Worker} {q : Program} {path : List BlockRef}
    {b : BlockRef} (h : worker.Misses q path b) : ∃ wfunc copy,
      q.func? worker.func = some wfunc ∧ worker.blockMap[b]? = some copy ∧
      q.FlowReachable wfunc.blocks copy ∧ ¬ q.PhisMatch wfunc.blocks copy := by
  obtain ⟨wfunc, hwfunc, copy, hcopy, a, ha, hentry, hchain, hedge, i, hi, instr, hinstr, hphi,
    hnot⟩ := h
  have hreach : Reaches (q.FlowEdge wfunc.blocks) worker.entry a := .of_isChain hchain ha
  refine ⟨wfunc, copy, hwfunc, hcopy, ⟨_, hentry, hreach.snoc hedge⟩, fun hmatch => ?_⟩
  obtain ⟨c, hc, hlists⟩ := Program.mem_listedIn_iff.1 hi
  obtain rfl := List.mem_singleton.1 hc
  obtain ⟨v, hv⟩ := (hmatch i instr hlists hinstr hphi a).2 ⟨hedge, _, hentry, hreach⟩
  exact hnot (List.mem_map.2 ⟨(v, a), hv, rfl⟩)

/-! A loop in which the first of two threads does all the work but a choice between two values,
which is left to the second one. -/

namespace Choosing

/-- Block 0 leads to the header 1. Block 2 leads to 3 or 4, both lead to 5, and 6 leads back
to the header, which leaves for 7. -/
def program : Program where
  funcs := #[
    { name := "choose"
      params := [.i32]
      ret := .i32
      blocks := [⟨0⟩, ⟨1⟩, ⟨2⟩, ⟨3⟩, ⟨4⟩, ⟨5⟩, ⟨6⟩, ⟨7⟩]
      external := false }]
  blocks := #[
    { name := "entry", func := ⟨0⟩, instrs := [⟨0⟩] },
    { name := "header", func := ⟨0⟩, instrs := [⟨1⟩, ⟨2⟩, ⟨3⟩, ⟨4⟩] },
    { name := "fork", func := ⟨0⟩, instrs := [⟨5⟩, ⟨6⟩] },
    { name := "left", func := ⟨0⟩, instrs := [⟨7⟩, ⟨8⟩] },
    { name := "right", func := ⟨0⟩, instrs := [⟨9⟩, ⟨10⟩] },
    { name := "join", func := ⟨0⟩, instrs := [⟨11⟩, ⟨12⟩] },
    { name := "latch", func := ⟨0⟩, instrs := [⟨13⟩] },
    { name := "exit", func := ⟨0⟩, instrs := [⟨14⟩] }]
  instrs := #[
    ⟨some ⟨0⟩, .br ⟨1⟩, .void, none⟩,
    ⟨some ⟨1⟩, .phi [(.i32 0, ⟨0⟩), (.instr ⟨2⟩, ⟨6⟩)], .i32, some "i"⟩,
    ⟨some ⟨1⟩, .binary .add (.instr ⟨1⟩) (.i32 1), .i32, some "next"⟩,
    ⟨some ⟨1⟩, .compare .slt (.instr ⟨1⟩) (.param ⟨0⟩ 0), .i1, some "more"⟩,
    ⟨some ⟨1⟩, .condBr (.instr ⟨3⟩) ⟨2⟩ ⟨7⟩, .void, none⟩,
    ⟨some ⟨2⟩, .binary .and (.instr ⟨1⟩) (.i32 1), .i32, some "odd"⟩,
    ⟨some ⟨2⟩, .condBr (.instr ⟨5⟩) ⟨3⟩ ⟨4⟩, .void, none⟩,
    ⟨some ⟨3⟩, .binary .mul (.instr ⟨1⟩) (.instr ⟨1⟩), .i32, some "square"⟩,
    ⟨some ⟨3⟩, .br ⟨5⟩, .void, none⟩,
    ⟨some ⟨4⟩, .binary .add (.instr ⟨1⟩) (.instr ⟨1⟩), .i32, some "double"⟩,
    ⟨some ⟨4⟩, .br ⟨5⟩, .void, none⟩,
    ⟨some ⟨5⟩, .phi [(.instr ⟨7⟩, ⟨3⟩), (.instr ⟨9⟩, ⟨4⟩)], .i32, some "chosen"⟩,
    ⟨some ⟨5⟩, .br ⟨6⟩, .void, none⟩,
    ⟨some ⟨6⟩, .br ⟨1⟩, .void, none⟩,
    ⟨some ⟨7⟩, .ret (some (.instr ⟨1⟩)), .void, none⟩]
  structs := #[]

def func : Func := program.funcs[0]

def loop : Loop := ⟨⟨1⟩, ⟨0⟩, ⟨7⟩, [⟨1⟩, ⟨2⟩, ⟨3⟩, ⟨4⟩, ⟨5⟩, ⟨6⟩]⟩

/-- The choice needs the two values, and the header decides whether it is made. -/
def deps : Dependences :=
  ⟨[⟨⟨7⟩, ⟨11⟩, .register⟩, ⟨⟨9⟩, ⟨11⟩, .register⟩, ⟨⟨4⟩, ⟨11⟩, .control⟩]⟩

/-- The second thread chooses, the first does the rest. -/
def plan : Plan := ⟨2, [⟨0, [⟨1⟩, ⟨2⟩, ⟨3⟩, ⟨4⟩]⟩, ⟨0, [⟨5⟩, ⟨6⟩, ⟨7⟩, ⟨9⟩]⟩, ⟨1, [⟨11⟩]⟩]⟩

theorem reaches_inside : ∀ b ∈ loop, Reaches (program.FlowEdge func.blocks) ⟨0⟩ b ∧
    Reaches (program.FlowEdge func.blocks) b ⟨7⟩ := by
  have hto : ∀ b ∈ loop.blocks, ∃ path ∈ [[⟨1⟩], [⟨1⟩, ⟨2⟩], [⟨1⟩, ⟨2⟩, ⟨3⟩], [⟨1⟩, ⟨2⟩, ⟨4⟩],
      [⟨1⟩, ⟨2⟩, ⟨3⟩, ⟨5⟩], [⟨1⟩, ⟨2⟩, ⟨3⟩, ⟨5⟩, ⟨6⟩]],
      (⟨0⟩ :: path).IsChain (program.FlowEdge func.blocks) ∧ path.getLast? = some b := by decide
  have hfrom : ∀ b ∈ loop.blocks, ∃ path ∈ [[⟨7⟩], [⟨1⟩, ⟨7⟩], [⟨6⟩, ⟨1⟩, ⟨7⟩],
      [⟨5⟩, ⟨6⟩, ⟨1⟩, ⟨7⟩], [⟨3⟩, ⟨5⟩, ⟨6⟩, ⟨1⟩, ⟨7⟩]],
      (b :: path).IsChain (program.FlowEdge func.blocks) ∧ path.getLast? = some ⟨7⟩ := by decide
  intro b hb
  obtain ⟨path, -, hpath, hlast⟩ := hto b hb
  obtain ⟨path', -, hpath', hlast'⟩ := hfrom b hb
  exact ⟨.of_isChain hpath hlast, .of_isChain hpath' hlast'⟩

theorem phis_iff : ∀ b ∈ func.blocks, ∀ i instr, program.Lists b i →
    program.instr? i = some instr → instr.op.isPhi →
    ∀ a, (∃ v, (v, a) ∈ instr.op.incoming) ↔ program.FlowEdge func.blocks a b :=
  Program.incoming_iff_of_forall (by decide)

theorem gated : loop.Gated (program.FlowEdge func.blocks) := .of_forall (by decide)

theorem flowFinal_exit : program.FlowFinal func.blocks ⟨7⟩ := by
  refine ⟨by decide, ?_⟩
  intro c hedge
  have hall : ∀ c ∈ func.blocks, ¬ program.FlowEdge func.blocks ⟨7⟩ c := by decide
  exact hall c hedge.target_mem hedge

/-- The first thread leaves out the join and the latch, which do not branch. -/
theorem closedUnderControl : loop.ClosedUnderControl program func.blocks
    (Worker.Concerned program loop deps plan 0) := by
  refine .of_single (fun b hb => ⟨⟨7⟩, flowFinal_exit, (reaches_inside b hb).2⟩) ?_
  have hall : ∀ b ∈ loop.blocks, ¬ Worker.Concerned program loop deps plan 0 b →
      ∀ c ∈ func.blocks, ∀ d ∈ func.blocks, program.FlowEdge func.blocks b c →
        program.FlowEdge func.blocks b d → c = d := by decide
  intro b hb hleft c d hc hd
  exact hall b hb hleft c hc.target_mem d hd.target_mem hc hd

/-- The second thread leaves out the fork, but nothing that leads to the join. -/
theorem concerned_of_flowEdge {pred : BlockRef} (h : program.FlowEdge func.blocks pred ⟨5⟩) :
    Worker.Concerned program loop deps plan 1 pred := by
  have hall : ∀ pred ∈ func.blocks, program.FlowEdge func.blocks pred ⟨5⟩ →
      Worker.Concerned program loop deps plan 1 pred := by decide
  exact hall pred h.source_mem h

end Choosing

namespace Splitter

/-- The φs of a worker need not match its flow of control, even though the function and the
loop are as they should be. The first thread leaves out the join and the latch, where the
ways from its two branches to the header meet, and its φ in the header comes from the fork
above them. The second thread leaves out the fork, jumps from the header over the two
branches, and its φ in the join still comes from these. Of the two conditions in
`split_matches_phis`, the one thread meets only the first and the other only the second. -/
theorem split_misses_preds_choosing :
    ∃ result splitter' q,
      (ofConfig Config.standard).split Choosing.program ⟨0⟩ Choosing.loop Choosing.deps
        Choosing.plan = (.ok result, splitter', q) ∧
      Config.standard.verify ∧ Choosing.program.func? ⟨0⟩ = some Choosing.func ∧
      Choosing.program.check ⟨0⟩ = .ok () ∧
      (∀ b ∈ Choosing.func.blocks, ∀ i instr, Choosing.program.Lists b i →
        Choosing.program.instr? i = some instr → instr.op.isPhi → ∀ a,
        (∃ v, (v, a) ∈ instr.op.incoming) ↔
          Choosing.program.FlowEdge Choosing.func.blocks a b) ∧
      Choosing.loop.preheader ≠ Choosing.loop.exit ∧ Choosing.loop.blocks.Nodup ∧
      (∀ b ∈ Choosing.loop, b ∈ Choosing.func.blocks) ∧
      Choosing.func.entry? = some ⟨0⟩ ∧ ⟨0⟩ ∉ Choosing.loop ∧
      Choosing.loop.Gated (Choosing.program.FlowEdge Choosing.func.blocks) ∧
      (∀ b ∈ Choosing.loop, Choosing.program.FlowReachable Choosing.func.blocks b ∧
        ∃ c, Choosing.program.FlowFinal Choosing.func.blocks c ∧
          Reaches (Choosing.program.FlowEdge Choosing.func.blocks) b c) ∧
      (∃ worker ∈ result.workers, ∃ wfunc copy, q.func? worker.func = some wfunc ∧
        Choosing.loop.ClosedUnderControl Choosing.program Choosing.func.blocks
          (Worker.Concerned Choosing.program Choosing.loop Choosing.deps Choosing.plan
            worker.thread) ∧
        q.FlowReachable wfunc.blocks copy ∧ ¬ q.PhisMatch wfunc.blocks copy) ∧
      ∃ worker ∈ result.workers, ∃ wfunc b copy, q.func? worker.func = some wfunc ∧
        worker.blockMap[b]? = some copy ∧
        (∀ pred, Choosing.program.FlowEdge Choosing.func.blocks pred b →
          Worker.Concerned Choosing.program Choosing.loop Choosing.deps Choosing.plan
            worker.thread pred) ∧
        q.FlowReachable wfunc.blocks copy ∧ ¬ q.PhisMatch wfunc.blocks copy := by
  obtain ⟨result, splitter', q, hsplit, hrun⟩ := exists_of_any (ofConfig Config.standard)
    Choosing.program ⟨0⟩ Choosing.loop Choosing.deps Choosing.plan
    (fun result q =>
      (∃ worker ∈ result.workers, worker.thread = 0 ∧ worker.Misses q [⟨1⟩, ⟨2⟩, ⟨3⟩] ⟨1⟩) ∧
        ∃ worker ∈ result.workers, worker.thread = 1 ∧ worker.Misses q [⟨1⟩] ⟨5⟩)
    (by decide +kernel)
  obtain ⟨⟨first, hfirst, hzero, hmisses⟩, second, hsecond, hone, hmisses'⟩ :=
    of_decide_eq_true hrun
  obtain ⟨wfunc, copy, hwfunc, -, hreach, hnot⟩ := hmisses.not_phisMatch
  obtain ⟨wfunc', copy', hwfunc', hcopy', hreach', hnot'⟩ := hmisses'.not_phisMatch
  refine ⟨result, splitter', q, hsplit, rfl, rfl, by decide, Choosing.phis_iff, by decide,
    by decide, by decide, rfl, by decide, Choosing.gated, ?_, ?_, ?_⟩
  · intro b hb
    obtain ⟨hto, hfrom⟩ := Choosing.reaches_inside b hb
    exact ⟨⟨⟨0⟩, rfl, hto⟩, ⟨7⟩, Choosing.flowFinal_exit, hfrom⟩
  · exact ⟨first, hfirst, wfunc, copy, hwfunc, hzero ▸ Choosing.closedUnderControl, hreach, hnot⟩
  · refine ⟨second, hsecond, wfunc', ⟨5⟩, copy', hwfunc', hcopy', ?_, hreach', hnot'⟩
    intro pred hedge
    exact hone ▸ Choosing.concerned_of_flowEdge hedge

end Splitter

end Decouple
