import Decouple.Proofs.Splitting

/-!
# How control flows through a worker

A branch of a copied terminator goes to the copy of the nearest block with a copy that
post-dominates the original target (`copyOfTarget_eq_ok`, `Body.successors_copy`).

If the concerned blocks are closed under control dependence (`ClosedUnderControl`), then the
worker takes the same way as the loop: the first concerned block that control meets on any
path from the original target post-dominates the target, so it is the block that the branch
of the worker goes to. A run through the loop, with the blocks that do not concern the thread
left out, is a run through the worker.
-/

namespace Decouple

open Outcome

namespace Worker

variable {s : Setting} {p q : Program} {func : Func} {blocks : List BlockRef}
  {here : BlockRef → List (InstrRef × InstrRef)} {σ : Renaming} {w : Worker} {b copy : BlockRef}

/-- A branch goes to the copy of the nearest block above in the tree of post-dominators. -/
theorem copyOfTarget_eq_ok {blockMap : Std.TreeMap BlockRef BlockRef} {layout : List BlockRef}
    (hpost : s.dominance.postDom.Represents (p.FlowPostDominates layout))
    (h : copyOfTarget s blockMap b = .ok copy) :
    (b ∈ s.loop ∨ b = s.loop.exit) ∧ ∃ c, blockMap[c]? = some copy ∧
      p.FlowPostDominates layout c b ∧
      ∀ a, p.FlowPostDominates layout a b → (blockMap[a]?).isSome →
        p.FlowPostDominates layout a c := by
  unfold copyOfTarget at h
  split at h
  · cases h
  · next htarget =>
      split at h
      · next found hclimb =>
          obtain rfl := Except.ok.inj h
          refine ⟨by tauto, ?_⟩
          exact hpost.climb (fun _ => .refl _ _ _) (fun _ _ _ => PostDominates.trans) hclimb
      · cases h

namespace Body

/-- Only copied blocks, the exit and the preheader have a block to stand for them. -/
theorem cases_of_blockMap (h : Body s p blocks here σ w q) (hb : w.blockMap[b]? = some copy) :
    b ∈ blocks ∨ b = s.loop.exit ∨ b = s.loop.preheader := by
  by_contra hnot
  push Not at hnot
  obtain ⟨hblocks, hexit, hpreheader⟩ := hnot
  rw [h.others b hblocks hexit hpreheader] at hb
  cases hb

theorem mem_loop (h : Body s p blocks here σ w q) (hb : b ∈ blocks) : b ∈ s.loop :=
  ((h.mem_blocks_iff b).1 hb).1

theorem exists_copy (h : Body s p blocks here σ w q) (hb : b ∈ blocks) :
    ∃ copy, w.blockMap[b]? = some copy := by
  obtain ⟨func, -, harranged⟩ := h.layout
  obtain ⟨copy, hcopy, -⟩ := harranged.exists_copy hb
  exact ⟨copy, hcopy⟩

/-- What stands for a block is a block of the worker. -/
theorem mem_layout (h : Body s p blocks here σ w q) {wfunc : Func}
    (hwfunc : q.func? w.func = some wfunc) (hb : w.blockMap[b]? = some copy) :
    copy ∈ wfunc.blocks := by
  obtain ⟨wfunc', hwfunc', harranged⟩ := h.layout
  obtain rfl := Option.some.inj (hwfunc.symm.trans hwfunc')
  have hexit : ∀ c, w.blockMap[s.loop.exit]? = some c → c ∈ wfunc.blocks := by
    intro c hc
    obtain rfl := Option.some.inj (h.exit_eq.symm.trans hc)
    exact harranged.exit_mem
  rcases h.cases_of_blockMap hb with hmem | rfl | rfl
  · obtain ⟨c, hc, hlayout, -⟩ := harranged.exists_copy hmem
    obtain rfl := Option.some.inj (hc.symm.trans hb)
    exact hlayout
  · exact hexit copy hb
  · by_cases hsame : s.loop.preheader = s.loop.exit
    · exact hexit copy (hsame ▸ hb)
    · obtain rfl := Option.some.inj ((h.preheader_eq hsame).symm.trans hb)
      exact List.mem_of_head? harranged.head?_eq

/-- Of the blocks of the loop, those that concern the thread have a copy. -/
theorem isSome_blockMap_iff (h : Body s p blocks here σ w q) (hexit : s.loop.exit ∉ s.loop)
    (hpreheader : s.loop.preheader ∉ s.loop) (hb : b ∈ s.loop) :
    (w.blockMap[b]?).isSome ↔ b ∈ blocks := by
  constructor
  · intro hsome
    obtain ⟨copy, hcopy⟩ := Option.isSome_iff_exists.1 hsome
    rcases h.cases_of_blockMap hcopy with hmem | rfl | rfl
    · exact hmem
    · exact absurd hb hexit
    · exact absurd hb hpreheader
  · intro hmem
    obtain ⟨copy, hcopy⟩ := h.exists_copy hmem
    rw [hcopy]
    rfl

theorem successors_entry (h : Body s p blocks here σ w q) :
    ∃ header, w.blockMap[s.loop.header]? = some header ∧ q.successors w.entry = .ok [header] := by
  obtain ⟨header, _, _, _, _, _, _, hheader, hentry, -⟩ := h.ends
  exact ⟨header, hheader, hentry.successors_eq⟩

theorem successors_exit (h : Body s p blocks here σ w q) : q.successors w.exit = .ok [] := by
  obtain ⟨_, _, _, _, _, _, _, -, -, hexit, -⟩ := h.ends
  exact hexit.successors_eq

/-- A copied block branches slot by slot to what stands for the targets of the block. -/
theorem successors_copy (h : Body s p blocks here σ w q) {f : FuncRef}
    (hwell : p.WellFormed f func) (hmem : b ∈ func.blocks) (hb : b ∈ blocks)
    (hcopy : w.blockMap[b]? = some copy) :
    ∃ targets, p.successors b = .ok targets ∧
      q.successors copy = .ok (targets.map (Op.changed (copyOfTarget s w.blockMap))) ∧
      ∀ t ∈ targets, copyOfTarget s w.blockMap t =
        .ok (Op.changed (copyOfTarget s w.blockMap) t) := by
  obtain ⟨block, hblock⟩ := hwell.blocks b hmem
  obtain ⟨init, last, hlist, ⟨instr, hinstr, hterm⟩, -⟩ := hblock.terminated
  -- the terminator is copied and stays last
  have hsources := h.sources b hb block hblock.lookup
  have htaken : takes s p w.thread last := by simp [takes, hinstr, hterm]
  rw [hlist, List.filter_append, List.filter_cons_of_pos htaken, List.filter_nil] at hsources
  obtain ⟨before, after, hhere, -, hafter⟩ := List.map_eq_append_iff.1 hsources
  obtain ⟨⟨i, c⟩, rfl, rfl⟩ := List.map_eq_singleton_iff.1 hafter
  obtain ⟨copyBlock, hcopyBlock, hcopyList⟩ := h.listed b hb copy hcopy
  obtain ⟨instr', name, hinstr', hplaced, hname⟩ :=
    h.copies b hb copy hcopy (i, c) (by simp [hhere])
  obtain rfl := Option.some.inj (hinstr.symm.trans hinstr')
  have hlast : block.instrs.getLast? = some i := by rw [hlist, List.getLast?_concat]
  have hcopyLast : copyBlock.instrs.getLast? = some c := by simp [hcopyList, hhere]
  refine ⟨_, Program.successors_eq_of_getLast? hblock.lookup hlast hinstr, ?_, hplaced.targets⟩
  rw [Program.successors_eq_of_getLast? hcopyBlock hcopyLast hname, Op.successors_mapOperands,
    copied, Op.successors_mapIncoming, Op.successors_mapSuccessors]

end Body

end Worker

namespace Loop

variable {loop : Loop} {p : Program} {layout : List BlockRef} {concerned : BlockRef → Prop}
  {a b : BlockRef} {visited skipped : List BlockRef}

/-- With a block, the set has every block of the loop whose branch decides whether control
gets to it. -/
def ClosedUnderControl (loop : Loop) (p : Program) (layout : List BlockRef)
    (concerned : BlockRef → Prop) : Prop :=
  ∀ r y z, concerned r → y ∈ loop → p.FlowEdge layout y z → p.FlowPostDominates layout r z →
    ¬ p.FlowPostDominates layout r y → concerned y

/-- The first concerned block on a path through the loop post-dominates all of the path. -/
theorem ClosedUnderControl.postDominates_first
    (hclosed : loop.ClosedUnderControl p layout concerned)
    (hwalk : Walk (p.FlowEdge layout) b a (skipped ++ [a]))
    (hskipped : ∀ x ∈ skipped, x ∈ loop ∧ ¬ concerned x) (ha : concerned a) :
    p.FlowPostDominates layout a b := by
  induction skipped generalizing b with
  | nil =>
      obtain ⟨rfl, -⟩ := hwalk.cons_cases
      exact .refl _ _ _
  | cons x skipped ih =>
      obtain ⟨rfl, ⟨hnil, -⟩ | ⟨c, hedge, hrest⟩⟩ := hwalk.cons_cases
      · simp at hnil
      · obtain ⟨hx, hnot⟩ := hskipped x (List.mem_cons_self ..)
        have hpost := ih hrest fun y hy => hskipped y (List.mem_cons_of_mem _ hy)
        -- otherwise the branch at `x` would decide whether control gets to `a`
        by_contra hpost'
        exact hnot (hclosed a x c ha hx hedge hpost hpost')

/-- Where all blocks that are left out lead to one block each, no branch that matters is left
out. -/
theorem ClosedUnderControl.of_single
    (hends : ∀ b ∈ loop, ∃ c, p.FlowFinal layout c ∧ Reaches (p.FlowEdge layout) b c)
    (hsingle : ∀ b ∈ loop, ¬ concerned b →
      ∀ c d, p.FlowEdge layout b c → p.FlowEdge layout b d → c = d) :
    loop.ClosedUnderControl p layout concerned := by
  intro r y z hr hy hedge hpost hnot
  by_contra hleft
  refine absurd (.of_forall_walk (hends y hy) ?_) hnot
  intro c visited hfinal hwalk
  cases hwalk with
  | stay => exact absurd hedge (hfinal.2 _)
  | @step _ d _ rest hstep hrest =>
      obtain rfl := hsingle y hy hleft z d hedge hstep
      exact List.mem_cons_of_mem _ (hpost.mem_of_walk hfinal hrest)

/-- Control goes on from every block of the loop, to a block of the loop or to its exit, and
can get to the end of the function. -/
structure Leaves (loop : Loop) (p : Program) (layout : List BlockRef) : Prop where
  goes_on : ∀ b ∈ loop, ∃ c, p.FlowEdge layout b c
  leaving : ∀ a b, p.FlowEdge layout a b → a ∈ loop → b ∈ loop ∨ b = loop.exit
  ends : ∀ b ∈ loop, ∃ c, p.FlowFinal layout c ∧ Reaches (p.FlowEdge layout) b c

namespace Leaves

theorem of_successors (hloop : ∀ b ∈ loop, b ∈ layout) (hexit : loop.exit ∈ layout)
    (hsuccs : ∀ b ∈ loop, ∃ targets, p.successors b = .ok targets ∧ targets ≠ [] ∧
      ∀ t ∈ targets, t ∈ loop ∨ t = loop.exit)
    (hends : ∀ b ∈ loop, ∃ c, p.FlowFinal layout c ∧ Reaches (p.FlowEdge layout) b c) :
    loop.Leaves p layout := by
  refine ⟨?_, ?_, hends⟩
  · intro b hb
    obtain ⟨targets, htargets, hne, hinside⟩ := hsuccs b hb
    obtain ⟨t, rest, rfl⟩ := List.exists_cons_of_ne_nil hne
    have ht : t ∈ layout := by
      rcases hinside t (List.mem_cons_self ..) with ht | rfl
      · exact hloop t ht
      · exact hexit
    exact ⟨t, hloop b hb, ht, _, htargets, List.mem_cons_self ..⟩
  · rintro a b ⟨-, -, targets, htargets, hb⟩ ha
    obtain ⟨targets', htargets', -, hinside⟩ := hsuccs a ha
    obtain rfl := Except.ok.inj (htargets.symm.trans htargets')
    exact hinside b hb

/-- All ways to the end of the function lead through the exit. -/
theorem postDominates_exit (h : loop.Leaves p layout) (hb : b ∈ loop) :
    p.FlowPostDominates layout loop.exit b := by
  refine .of_forall_walk (h.ends b hb) ?_
  intro c visited hfinal hwalk
  have hc : c ∉ loop := by
    intro hmem
    obtain ⟨d, hedge⟩ := h.goes_on c hmem
    exact hfinal.2 d hedge
  have houtside : ∃ x ∈ visited, (fun x => x ∉ loop) x := ⟨c, hwalk.end_mem, hc⟩
  obtain ⟨d, before, after, hd, hinside, hfirst, -, rfl⟩ := hwalk.cut_first houtside
  obtain ⟨rfl, -⟩ | ⟨x, before', hbefore, hedge, heq⟩ := hfirst.last_cases
  · exact absurd hb hd
  · obtain rfl : before = before' := List.append_cancel_right heq
    have hx : x ∈ loop := not_not.1 (hinside x hbefore.end_mem)
    obtain rfl := (h.leaving x d hedge hx).resolve_left hd
    exact List.mem_append_right _ (List.mem_cons_self ..)

/-- A path does not leave the loop before it meets the exit. -/
theorem mem_of_skipped (h : loop.Leaves p layout) (hb : b ∈ loop ∨ b = loop.exit)
    (hwalk : Walk (p.FlowEdge layout) b a (skipped ++ [a]))
    (hskipped : ∀ x ∈ skipped, x ≠ loop.exit) : ∀ x ∈ skipped, x ∈ loop := by
  induction skipped generalizing b with
  | nil => simp
  | cons x skipped ih =>
      obtain ⟨rfl, ⟨hnil, -⟩ | ⟨c, hedge, hrest⟩⟩ := hwalk.cons_cases
      · simp at hnil
      · have hx : x ∈ loop := hb.resolve_right (hskipped x (List.mem_cons_self ..))
        have hinside := ih (h.leaving x c hedge hx) hrest
          fun y hy => hskipped y (List.mem_cons_of_mem _ hy)
        intro y hy
        rcases List.mem_cons.1 hy with rfl | hy
        · exact hx
        · exact hinside y hy

/-- The first concerned block on a path, or the exit, post-dominates all of the path. -/
theorem postDominates_first (h : loop.Leaves p layout)
    (hclosed : loop.ClosedUnderControl p layout concerned)
    (hb : b ∈ loop ∨ b = loop.exit)
    (hwalk : Walk (p.FlowEdge layout) b a (skipped ++ [a]))
    (hskipped : ∀ x ∈ skipped, ¬ concerned x ∧ x ≠ loop.exit)
    (ha : concerned a ∨ a = loop.exit) :
    p.FlowPostDominates layout a b ∧ ∀ x ∈ skipped, x ∈ loop := by
  have hinside := h.mem_of_skipped hb hwalk fun x hx => (hskipped x hx).2
  refine ⟨?_, hinside⟩
  rcases ha with ha | rfl
  · exact hclosed.postDominates_first hwalk (fun x hx => ⟨hinside x hx, (hskipped x hx).1⟩) ha
  · rcases hb with hb | rfl
    · exact h.postDominates_exit hb
    · exact .refl _ _ _

end Leaves

end Loop

namespace Worker

variable {s : Setting} {p q : Program} {func : Func} {blocks : List BlockRef}
  {here : BlockRef → List (InstrRef × InstrRef)} {σ : Renaming} {w : Worker} {a b copy : BlockRef}
  {skipped : List BlockRef} {workers : List Worker} {wfunc : Func}

namespace Body

theorem isSome_blockMap (h : Body s p blocks here σ w q) (hb : b ∈ blocks ∨ b = s.loop.exit) :
    (w.blockMap[b]?).isSome := by
  rcases hb with hb | rfl
  · obtain ⟨copy, hcopy⟩ := h.exists_copy hb
    rw [hcopy]
    rfl
  · rw [h.exit_eq]
    rfl

/-- If the first block with a copy on a path from the target of a branch post-dominates the
target, its copy is what stands for the target. -/
theorem copyOfTarget_eq_of_first (h : Body s p blocks here σ w q)
    (hinto : Splitter.SplitInto s p func workers q)
    (htarget : copyOfTarget s w.blockMap b = .ok copy)
    (hab : p.FlowPostDominates func.blocks a b)
    (hwalk : Walk (p.FlowEdge func.blocks) b a (skipped ++ [a]))
    (hskipped : ∀ x ∈ skipped, x ∈ s.loop ∧ x ∉ blocks)
    (ha : a ∈ blocks ∨ a = s.loop.exit) : w.blockMap[a]? = some copy := by
  obtain ⟨-, c, hc, hcb, hnearest⟩ := copyOfTarget_eq_ok hinto.postDom htarget
  have hunmapped : ∀ x ∈ skipped, ¬ (w.blockMap[x]?).isSome := by
    intro x hx hsome
    obtain ⟨hxloop, hxnot⟩ := hskipped x hx
    rw [h.isSome_blockMap_iff hinto.exit_not_mem hinto.preheader_not_mem hxloop] at hsome
    exact hxnot hsome
  have hsome : (w.blockMap[c]?).isSome := by
    rw [hc]
    rfl
  obtain rfl : c = a :=
    hab.eq_of_first hwalk hunmapped (h.isSome_blockMap ha) hsome hcb hnearest
  exact hc

/-- What stands for the target of a branch is the copy of the first concerned block, or of
the exit, on any path from the target. -/
theorem copyOfTarget_first (h : Body s p blocks here σ w q)
    (hinto : Splitter.SplitInto s p func workers q) (hleaves : s.loop.Leaves p func.blocks)
    (hclosed : s.loop.ClosedUnderControl p func.blocks (· ∈ blocks))
    (htarget : copyOfTarget s w.blockMap b = .ok copy)
    (hwalk : Walk (p.FlowEdge func.blocks) b a (skipped ++ [a]))
    (hskipped : ∀ x ∈ skipped, x ∉ blocks ∧ x ≠ s.loop.exit)
    (ha : a ∈ blocks ∨ a = s.loop.exit) : w.blockMap[a]? = some copy := by
  obtain ⟨hb, -⟩ := copyOfTarget_eq_ok hinto.postDom htarget
  obtain ⟨hab, hinside⟩ := hleaves.postDominates_first hclosed hb hwalk hskipped ha
  exact h.copyOfTarget_eq_of_first hinto htarget hab hwalk
    (fun x hx => ⟨hinside x hx, (hskipped x hx).1⟩) ha

/-- The copy of a block leads to what stands for the blocks that the block leads to. -/
theorem flowEdge_of_copyOfTarget (h : Body s p blocks here σ w q) {f : FuncRef}
    (hwell : p.WellFormed f func) (hloop : ∀ b ∈ s.loop, b ∈ func.blocks)
    (hwfunc : q.func? w.func = some wfunc) {d copy' : BlockRef} (hb : b ∈ blocks)
    (hcopy : w.blockMap[b]? = some copy) (hedge : p.FlowEdge func.blocks b d)
    (ha : a ∈ blocks ∨ a = s.loop.exit) (hcopy' : w.blockMap[a]? = some copy')
    (htarget : ∀ c, copyOfTarget s w.blockMap d = .ok c → w.blockMap[a]? = some c) :
    q.FlowEdge wfunc.blocks copy copy' := by
  obtain ⟨wfunc', hwfunc', harranged⟩ := h.layout
  obtain rfl := Option.some.inj (hwfunc.symm.trans hwfunc')
  have hmem : copy ∈ wfunc.blocks := by
    obtain ⟨c, hc, hlayout, -⟩ := harranged.exists_copy hb
    exact Option.some.inj (hc.symm.trans hcopy) ▸ hlayout
  have hmem' : copy' ∈ wfunc.blocks := by
    rcases ha with ha | rfl
    · obtain ⟨c, hc, hlayout, -⟩ := harranged.exists_copy ha
      exact Option.some.inj (hc.symm.trans hcopy') ▸ hlayout
    · exact Option.some.inj (h.exit_eq.symm.trans hcopy') ▸ harranged.exit_mem
  obtain ⟨-, -, targets, htargets, hd⟩ := hedge
  obtain ⟨targets', htargets', hcopied, hok⟩ :=
    h.successors_copy hwell (hloop b (h.mem_loop hb)) hb hcopy
  obtain rfl := Except.ok.inj (htargets.symm.trans htargets')
  refine ⟨hmem, hmem', _, hcopied, List.mem_map.2 ⟨d, hd, ?_⟩⟩
  exact Option.some.inj ((htarget _ (hok d hd)).symm.trans hcopy')

/-- The copy of a concerned block leads to the copy of the first concerned block, or of the
exit, on any path behind it. -/
theorem flowEdge_first (h : Body s p blocks here σ w q)
    (hinto : Splitter.SplitInto s p func workers q) {f : FuncRef} (hwell : p.WellFormed f func)
    (hloop : ∀ b ∈ s.loop, b ∈ func.blocks) (hleaves : s.loop.Leaves p func.blocks)
    (hclosed : s.loop.ClosedUnderControl p func.blocks (· ∈ blocks))
    (hwfunc : q.func? w.func = some wfunc) {d copy' : BlockRef} (hb : b ∈ blocks)
    (hcopy : w.blockMap[b]? = some copy) (hedge : p.FlowEdge func.blocks b d)
    (hwalk : Walk (p.FlowEdge func.blocks) d a (skipped ++ [a]))
    (hskipped : ∀ x ∈ skipped, x ∉ blocks ∧ x ≠ s.loop.exit)
    (ha : a ∈ blocks ∨ a = s.loop.exit) (hcopy' : w.blockMap[a]? = some copy') :
    q.FlowEdge wfunc.blocks copy copy' :=
  h.flowEdge_of_copyOfTarget hwell hloop hwfunc hb hcopy hedge ha hcopy' fun _ htarget =>
    h.copyOfTarget_first hinto hleaves hclosed htarget hwalk hskipped ha

/-- A path through the loop to its exit, with the blocks that have no copy left out, is a
path through the worker. -/
theorem walk_of_run (h : Body s p blocks here σ w q)
    (hinto : Splitter.SplitInto s p func workers q) {f : FuncRef} (hwell : p.WellFormed f func)
    (hloop : ∀ b ∈ s.loop, b ∈ func.blocks) (hleaves : s.loop.Leaves p func.blocks)
    (hclosed : s.loop.ClosedUnderControl p func.blocks (· ∈ blocks))
    (hwfunc : q.func? w.func = some wfunc) {run : List BlockRef}
    (hwalk : Walk (p.FlowEdge func.blocks) b s.loop.exit (run ++ [s.loop.exit]))
    (hrun : ∀ x ∈ run, x ∈ s.loop) :
    ∃ skipped a rest copy, run ++ [s.loop.exit] = skipped ++ a :: rest ∧
      (∀ x ∈ skipped, x ∈ s.loop ∧ x ∉ blocks) ∧ (a ∈ blocks ∨ a = s.loop.exit) ∧
      w.blockMap[a]? = some copy ∧
      Walk (q.FlowEdge wfunc.blocks) copy w.exit
        ((run ++ [s.loop.exit]).filterMap (w.blockMap[·]?)) := by
  induction run generalizing b with
  | nil =>
      refine ⟨[], s.loop.exit, [], w.exit, rfl, by simp, .inr rfl, h.exit_eq, ?_⟩
      rw [List.nil_append, List.filterMap_cons, h.exit_eq]
      exact .stay w.exit
  | cons x run ih =>
      rw [List.cons_append] at hwalk
      obtain ⟨rfl, ⟨hnil, -⟩ | ⟨d, hedge, hrest⟩⟩ := hwalk.cons_cases
      · simp at hnil
      · have hx : x ∈ s.loop := hrun x (List.mem_cons_self ..)
        obtain ⟨skipped, a, rest, copy, heq, hskipped, ha, hcopy, hpath⟩ :=
          ih hrest fun y hy => hrun y (List.mem_cons_of_mem _ hy)
        rw [List.cons_append, List.filterMap_cons]
        by_cases hblocks : x ∈ blocks
        · obtain ⟨copy', hcopy'⟩ := h.exists_copy hblocks
          refine ⟨[], x, run ++ [s.loop.exit], copy', rfl, by simp, .inl hblocks, hcopy', ?_⟩
          rw [hcopy']
          refine .step ?_ hpath
          rw [heq] at hrest
          refine h.flowEdge_first hinto hwell hloop hleaves hclosed hwfunc hblocks hcopy' hedge
            hrest.parts.1 ?_ ha hcopy
          intro y hy
          obtain ⟨hyloop, hynot⟩ := hskipped y hy
          exact ⟨hynot, fun hyexit => hinto.exit_not_mem (hyexit ▸ hyloop)⟩
        · refine ⟨x :: skipped, a, rest, copy, by rw [heq]; rfl, ?_, ha, hcopy, ?_⟩
          · intro y hy
            rcases List.mem_cons.1 hy with rfl | hy
            · exact ⟨hx, hblocks⟩
            · exact hskipped y hy
          · have hnone : w.blockMap[x]? = none := by
              rw [← Option.not_isSome_iff_eq_none, h.isSome_blockMap_iff hinto.exit_not_mem
                hinto.preheader_not_mem hx]
              exact hblocks
            rw [hnone]
            exact hpath

/-- So is a path from the header to the exit, from the entry of the worker on. -/
theorem walk_of_pass (h : Body s p blocks here σ w q)
    (hinto : Splitter.SplitInto s p func workers q) {f : FuncRef} (hwell : p.WellFormed f func)
    (hloop : ∀ b ∈ s.loop, b ∈ func.blocks) (hleaves : s.loop.Leaves p func.blocks)
    (hclosed : s.loop.ClosedUnderControl p func.blocks (· ∈ blocks))
    (hwfunc : q.func? w.func = some wfunc) {run : List BlockRef}
    (hwalk : Walk (p.FlowEdge func.blocks) s.loop.header s.loop.exit (run ++ [s.loop.exit]))
    (hrun : ∀ x ∈ run, x ∈ s.loop) :
    Walk (q.FlowEdge wfunc.blocks) w.entry w.exit
      (w.entry :: (run ++ [s.loop.exit]).filterMap (w.blockMap[·]?)) := by
  obtain ⟨wfunc', hwfunc', harranged⟩ := h.layout
  obtain rfl := Option.some.inj (hwfunc.symm.trans hwfunc')
  obtain ⟨header, hheader, hentry⟩ := h.successors_entry
  obtain ⟨skipped, a, rest, copy, heq, hskipped, -, hcopy, hpath⟩ :=
    h.walk_of_run hinto hwell hloop hleaves hclosed hwfunc hwalk hrun
  -- the header has a copy, so nothing is skipped at the start
  have hhead := hwalk.head?_eq
  rw [heq] at hhead
  cases skipped with
  | cons x skipped =>
      obtain rfl := Option.some.inj hhead
      exact absurd h.header_mem (hskipped _ (List.mem_cons_self ..)).2
  | nil =>
      obtain rfl := Option.some.inj hhead
      obtain rfl := Option.some.inj (hheader.symm.trans hcopy)
      obtain ⟨copy, hcopy', hlayout, -⟩ := harranged.exists_copy h.header_mem
      obtain rfl := Option.some.inj (hheader.symm.trans hcopy')
      exact .step ⟨List.mem_of_head? harranged.head?_eq, hlayout, _, hentry,
        List.mem_singleton_self _⟩ hpath

end Body

/-- The worker, with the function `wfunc` in `q`, follows the paths of a loop of `func` in `p` and
leaves out the blocks that are not `concerned`. A branch in the copy of a concerned block goes, slot
by slot, to the copy of the first concerned block, or of the exit, on any path from the original
target; and a run through the loop to its exit becomes a path from the entry to the exit. -/
structure Follows (w : Worker) (p : Program) (func : Func) (loop : Loop)
    (concerned : BlockRef → Prop) (q : Program) (wfunc : Func) : Prop where
  lookup : q.func? w.func = some wfunc
  entry_eq : wfunc.blocks.head? = some w.entry
  exit_eq : w.blockMap[loop.exit]? = some w.exit
  isSome_blockMap_iff : ∀ b ∈ loop, (w.blockMap[b]?).isSome ↔ concerned b
  branches : ∀ u, concerned u → ∃ copy targets copied,
    w.blockMap[u]? = some copy ∧ p.successors u = .ok targets ∧
    q.successors copy = .ok copied ∧ copied.length = targets.length ∧
    ∀ (k : Nat) v r skipped, targets[k]? = some v →
      Walk (p.FlowEdge func.blocks) v r (skipped ++ [r]) →
      (∀ x ∈ skipped, ¬ concerned x ∧ x ≠ loop.exit) → (concerned r ∨ r = loop.exit) →
      ∃ target, copied[k]? = some target ∧ w.blockMap[r]? = some target
  runs : ∀ run, Walk (p.FlowEdge func.blocks) loop.header loop.exit (run ++ [loop.exit]) →
    (∀ b ∈ run, b ∈ loop) →
    Walk (q.FlowEdge wfunc.blocks) w.entry w.exit
      (w.entry :: (run ++ [loop.exit]).filterMap (w.blockMap[·]?))

end Worker

namespace Splitter

/-- The workers of a split follow the loop, if the blocks that concern their threads are closed
under control dependence. -/
theorem split_follows_traces {splitter splitter' : Splitter} {p q : Program} {f : FuncRef}
    {func : Func} {loop : Loop} {deps : Dependences} {plan : Plan} {result : Split} {thread : Nat}
    (hsplit : splitter.split p f loop deps plan = (.ok result, splitter', q))
    (hfunc : p.func? f = some func) (hcheck : p.check f = .ok ()) (hnodup : loop.blocks.Nodup)
    (hloop : ∀ b ∈ loop, b ∈ func.blocks)
    (hsuccs : ∀ b ∈ loop, ∃ targets, p.successors b = .ok targets ∧ targets ≠ [] ∧
      ∀ t ∈ targets, t ∈ loop ∨ t = loop.exit)
    (hfinal : ∀ b ∈ loop, ∃ c, p.FlowFinal func.blocks c ∧ Reaches (p.FlowEdge func.blocks) b c)
    (hthread : thread < plan.threads)
    (hclosed : loop.ClosedUnderControl p func.blocks
      (Worker.Concerned p loop deps plan thread)) :
    ∃ worker wfunc, result.workers[thread]? = some worker ∧
      worker.Follows p func loop (Worker.Concerned p loop deps plan thread) q wfunc := by
  obtain ⟨func', hwell⟩ := Program.wellFormed_of_check hcheck
  obtain rfl := Option.some.inj (hfunc.symm.trans hwell.lookup)
  obtain ⟨s, rfl, rfl, rfl, rfl, hinto⟩ := splitInto_of_split hwell hnodup hloop hsplit
  have hleaves := Loop.Leaves.of_successors hloop hinto.exit_mem hsuccs hfinal
  have hlt : thread < result.workers.length := by
    rw [← hinto.bodies.length_eq, List.length_range]
    exact hthread
  have hat := hinto.bodies.get (by simpa using hthread) hlt
  simp only [List.get_eq_getElem, List.getElem_range] at hat
  obtain ⟨hworker, blocks, here, σ, hbody⟩ := hat
  have hmem := hbody.mem_blocks_iff
  rw [hworker] at hmem
  have hclosed' : s.loop.ClosedUnderControl p func.blocks (· ∈ blocks) := by
    intro r y z hr hy hedge hpost hnot
    exact (hmem y).2 (hclosed r y z ((hmem r).1 hr) hy hedge hpost hnot)
  obtain ⟨wfunc, hwfunc, harranged⟩ := hbody.layout
  refine ⟨result.workers[thread], wfunc, List.getElem?_eq_getElem hlt, ?_⟩
  constructor
  case lookup => exact hwfunc
  case entry_eq => exact harranged.head?_eq
  case exit_eq => exact hbody.exit_eq
  case isSome_blockMap_iff =>
    intro b hb
    rw [hbody.isSome_blockMap_iff hinto.exit_not_mem hinto.preheader_not_mem hb, hmem]
  case branches =>
    intro u hu
    rw [← hmem] at hu
    obtain ⟨copy, hcopy⟩ := hbody.exists_copy hu
    obtain ⟨targets, htargets, hcopied, hok⟩ :=
      hbody.successors_copy hwell (hloop u (hbody.mem_loop hu)) hu hcopy
    refine ⟨copy, targets, _, hcopy, htargets, hcopied, List.length_map _, ?_⟩
    intro k v r skipped hv hwalk hskipped hr
    simp only [← hmem] at hskipped hr
    refine ⟨_, ?_, hbody.copyOfTarget_first hinto hleaves hclosed'
      (hok v (List.mem_of_getElem? hv)) hwalk hskipped hr⟩
    rw [List.getElem?_map, hv]
    rfl
  case runs =>
    intro run hwalk hrun
    exact hbody.walk_of_pass hinto hwell hloop hleaves hclosed' hwfunc hwalk hrun

end Splitter

namespace Counting

open Worker

theorem successors_inside : ∀ b ∈ loop, ∃ targets, program.successors b = .ok targets ∧
    targets ≠ [] ∧ ∀ t ∈ targets, t ∈ loop ∨ t = loop.exit := by
  have hall : ∀ b ∈ loop.blocks, (program.successors b).isOk ∧ program.targetsOf b ≠ [] ∧
      ∀ t ∈ program.targetsOf b, t ∈ loop ∨ t = loop.exit := by decide
  intro b hb
  obtain ⟨hok, hrest⟩ := hall b hb
  cases hsuccs : program.successors b with
  | error failure =>
      rw [hsuccs] at hok
      cases hok
  | ok targets =>
      rw [Program.targetsOf, hsuccs] at hrest
      exact ⟨targets, rfl, hrest⟩

theorem flowFinal_exit : program.FlowFinal func.blocks ⟨4⟩ := by
  refine ⟨by decide, ?_⟩
  intro c hedge
  have hall : ∀ c ∈ func.blocks, ¬ program.FlowEdge func.blocks ⟨4⟩ c := by decide
  exact hall c hedge.target_mem hedge

theorem reaches_exit : ∀ b ∈ loop, Reaches (program.FlowEdge func.blocks) b ⟨4⟩ := by
  have hheader : Walk (program.FlowEdge func.blocks) ⟨1⟩ ⟨4⟩ [⟨1⟩, ⟨4⟩] :=
    .step (by decide) (.stay _)
  have hlatch : Walk (program.FlowEdge func.blocks) ⟨3⟩ ⟨4⟩ [⟨3⟩, ⟨1⟩, ⟨4⟩] :=
    .step (by decide) hheader
  have hbody : Walk (program.FlowEdge func.blocks) ⟨2⟩ ⟨4⟩ [⟨2⟩, ⟨3⟩, ⟨1⟩, ⟨4⟩] :=
    .step (by decide) hlatch
  intro b hb
  have hcases : ∀ b ∈ loop.blocks, b = ⟨1⟩ ∨ b = ⟨2⟩ ∨ b = ⟨3⟩ := by decide
  rcases hcases b hb with rfl | rfl | rfl
  · exact ⟨_, hheader⟩
  · exact ⟨_, hbody⟩
  · exact ⟨_, hlatch⟩

/-- The thread that squares is concerned by the header and the body of the loop. -/
theorem concerned_iff {b : BlockRef} :
    Concerned program loop setting.deps setting.plan 1 b ↔ b = ⟨1⟩ ∨ b = ⟨2⟩ := by
  constructor
  · rintro ⟨-, i, instr, hinstr, hplace, hi⟩
    have hall : ∀ i ∈ concerns setting 1, ∀ instr ∈ program.instr? i, ∀ b ∈ instr.block,
        b = ⟨1⟩ ∨ b = ⟨2⟩ := by decide
    exact hall i (mem_concerns_iff.2 hi) instr hinstr b hplace
  · rintro (rfl | rfl)
    · exact ⟨by decide, ⟨1⟩, _, rfl, rfl, .inr ⟨⟨4⟩, by decide, _, List.mem_singleton_self _, rfl⟩⟩
    · exact ⟨by decide, ⟨4⟩, _, rfl, rfl, .inl (by decide)⟩

theorem closedUnderControl : loop.ClosedUnderControl program func.blocks
    (Concerned program loop setting.deps setting.plan 1) := by
  refine .of_single (fun b hb => ⟨⟨4⟩, flowFinal_exit, reaches_exit b hb⟩) ?_
  have hall : ∀ b ∈ loop.blocks, ¬ Concerned program loop setting.deps setting.plan 1 b →
      ∀ c ∈ func.blocks, ∀ d ∈ func.blocks, program.FlowEdge func.blocks b c →
        program.FlowEdge func.blocks b d → c = d := by decide
  intro b hb hleft c d hc hd
  exact hall b hb hleft c hc.target_mem d hd.target_mem hc hd

end Counting

namespace Splitter

theorem exists_of_isOk {splitter : Splitter} {p : Program} {f : FuncRef} {loop : Loop}
    {deps : Dependences} {plan : Plan} (h : (splitter.split p f loop deps plan).1.isOk) :
    ∃ result splitter' q, splitter.split p f loop deps plan = (.ok result, splitter', q) := by
  rcases hrun : splitter.split p f loop deps plan with ⟨failure | result, splitter', q⟩
  · rw [hrun] at h
    cases h
  · exact ⟨result, splitter', q, rfl⟩

theorem exists_of_any (splitter : Splitter) (p : Program) (f : FuncRef) (loop : Loop)
    (deps : Dependences) (plan : Plan) (good : Split → Program → Bool)
    (h : (splitter.split p f loop deps plan).1.toOption.any
      (good · (splitter.split p f loop deps plan).2.2)) :
    ∃ result splitter' q, splitter.split p f loop deps plan = (.ok result, splitter', q) ∧
      good result q := by
  rcases hrun : splitter.split p f loop deps plan with ⟨failure | result, splitter', q⟩
  · rw [hrun] at h
    cases h
  · rw [hrun] at h
    exact ⟨result, splitter', q, rfl, h⟩

theorem split_follows_traces_counting :
    ∃ result splitter' q worker wfunc,
      (ofConfig Config.standard).split Counting.program ⟨0⟩ Counting.loop Counting.setting.deps
        Counting.setting.plan = (.ok result, splitter', q) ∧
      result.workers[1]? = some worker ∧ q.func? worker.func = some wfunc ∧
      worker.blockMap[(⟨3⟩ : BlockRef)]? = none ∧
      Walk (q.FlowEdge wfunc.blocks) worker.entry worker.exit (worker.entry ::
        [⟨1⟩, ⟨2⟩, ⟨3⟩, ⟨1⟩, ⟨4⟩].filterMap fun b : BlockRef => worker.blockMap[b]?) := by
  have hok : ((ofConfig Config.standard).split Counting.program ⟨0⟩ Counting.loop
      Counting.setting.deps Counting.setting.plan).1.isOk := by decide +kernel
  obtain ⟨result, splitter', q, hsplit⟩ := exists_of_isOk hok
  have hfunc : Counting.program.func? ⟨0⟩ = some Counting.func := rfl
  obtain ⟨worker, wfunc, hworker, hfollows⟩ :=
    split_follows_traces hsplit hfunc (by decide) (by decide) (by decide) Counting.successors_inside
      (fun b hb => ⟨⟨4⟩, Counting.flowFinal_exit, Counting.reaches_exit b hb⟩) (by decide)
      Counting.closedUnderControl
  refine ⟨result, splitter', q, worker, wfunc, hsplit, hworker, hfollows.lookup, ?_, ?_⟩
  · rw [← Option.not_isSome_iff_eq_none, hfollows.isSome_blockMap_iff ⟨3⟩ (by decide),
      Counting.concerned_iff]
    decide
  · refine hfollows.runs [⟨1⟩, ⟨2⟩, ⟨3⟩, ⟨1⟩] ?_ (by decide)
    exact .step (by decide) (.step (by decide) (.step (by decide) (.step (by decide) (.stay _))))

end Splitter

end Decouple
