import Decouple.Proofs.ArgTypes
import Decouple.Proofs.Availability
import Decouple.Proofs.DominanceTrees

/-!
# Every block of a natural loop has its place in a worker

A worker has copies of some blocks of the loop only, and what stands for another block is found
by climbing the trees of dominators. In a natural loop (`Loop.Natural`) every climb arrives: the
exit, which always has a block to stand for it, post-dominates all of the loop, and the header,
which is always copied, dominates it. The limit on the steps of a climb is no obstacle, since no
way up a tree is longer than the tree has blocks (`Setting.Surveys`).

So no step of the split stops at a block of the loop (`Worker.calm_copyOp_of_lists`), and a
branch of a copied block goes to a copied block or to the exit of the worker, never back to its
entry (`Splitter.split_converges`).
-/

namespace Decouple

open Outcome Edit Steady

variable {extra : Failure → Prop}

/-- Of the instructions of a block, the one that names blocks to go on to is the last one. -/
theorem Program.WellFormed.exists_successors {p : Program} {f : FuncRef} {func : Func}
    {b t : BlockRef} {i : InstrRef} {instr : Instr} (h : p.WellFormed f func)
    (hb : b ∈ func.blocks) (hi : p.Lists b i) (hinstr : p.instr? i = some instr)
    (ht : t ∈ instr.op.successors) : ∃ targets, p.successors b = .ok targets ∧ t ∈ targets := by
  obtain ⟨block, hblock⟩ := h.blocks b hb
  obtain ⟨init, last, hlist, -, hinit⟩ := hblock.terminated
  obtain ⟨block', hblock', hmem⟩ := hi
  obtain rfl := Option.some.inj (hblock.lookup.symm.trans hblock')
  rw [hlist] at hmem
  rcases List.mem_append.1 hmem with hmem | hmem
  · obtain ⟨instr', hinstr', hnot⟩ := hinit i hmem
    obtain rfl := Option.some.inj (hinstr.symm.trans hinstr')
    rw [Op.successors_of_not_isTerminator hnot] at ht
    exact absurd ht List.not_mem_nil
  · obtain rfl := List.mem_singleton.1 hmem
    have hlast : block.instrs.getLast? = some i := by rw [hlist, List.getLast?_concat]
    exact ⟨_, Program.successors_eq_of_getLast? hblock.lookup hlast hinstr, ht⟩

namespace Loop

variable {loop : Loop} {p : Program} {layout : List BlockRef} {b : BlockRef}

/-- Control comes to the loop from the preheader, at the header, and goes round until it leaves
for the exit. All of the loop is in reach, and from all of it control can get to the end of the
function. A φ in the loop comes from the loop or from the preheader. -/
structure Natural (loop : Loop) (p : Program) (layout : List BlockRef) : Prop where
  inside : ∀ b ∈ loop, b ∈ layout
  entry_not_mem : ∀ entry, layout.head? = some entry → entry ∉ loop
  exit_not_mem : loop.exit ∉ loop
  entering : ∀ a b, p.FlowEdge layout a b → a ∉ loop → b ∈ loop →
    a = loop.preheader ∧ b = loop.header
  successors : ∀ b ∈ loop, ∃ targets, p.successors b = .ok targets ∧ targets ≠ [] ∧
    ∀ t ∈ targets, t ∈ loop ∨ t = loop.exit
  reachable : ∀ b ∈ loop, p.FlowReachable layout b
  ends : ∀ b ∈ loop, ∃ c, p.FlowFinal layout c ∧ Reaches (p.FlowEdge layout) b c
  incoming : ∀ b ∈ loop, ∀ i instr, p.Lists b i → p.instr? i = some instr →
    ∀ pair ∈ instr.op.incoming, pair.2 ∈ loop ∨ pair.2 = loop.preheader

namespace Natural

theorem leaves (h : loop.Natural p layout) (hexit : loop.exit ∈ layout) : loop.Leaves p layout :=
  .of_successors h.inside hexit h.successors h.ends

theorem gated (h : loop.Natural p layout) (hexit : loop.exit ∈ layout) :
    loop.Gated (p.FlowEdge layout) where
  entering := h.entering
  leaving := fun a b hedge ha hb => ((h.leaves hexit).leaving a b hedge ha).resolve_left hb

/-- All ways into the loop lead through the header. -/
theorem flowDominates_header (h : loop.Natural p layout) (hexit : loop.exit ∈ layout)
    (hb : b ∈ loop) : p.FlowDominates layout loop.header b := by
  obtain ⟨entry, hentry, hreach⟩ := h.reachable b hb
  refine ⟨entry, hentry, .of_forall_walk hreach ?_⟩
  intro visited hwalk
  obtain ⟨before, after, rfl, -⟩ := (h.gated hexit).exists_entering
    (h.entry_not_mem entry hentry) hwalk ⟨b, hwalk.end_mem, hb⟩
  exact List.mem_append_right _ (List.mem_cons_self ..)

end Natural

end Loop

/-- The setting has the trees of the function, and climbs go as far as these have blocks. -/
structure Setting.Surveys (s : Setting) (p : Program) (layout : List BlockRef) : Prop where
  dom : s.dominance.dom.Represents (p.FlowDominates layout)
  postDom : s.dominance.postDom.Represents (p.FlowPostDominates layout)
  dom_le : s.dominance.dom.blocks.length ≤ s.climbLimit
  postDom_le : s.dominance.postDom.blocks.length ≤ s.climbLimit

theorem Dominance.blocks_of_ofFunc {p : Program} {f : FuncRef} {func : Func}
    {dominance : Dominance} (h : ofFunc p f = .ok dominance) (hfunc : p.func? f = some func) :
    dominance.dom.blocks = func.blocks ∧ dominance.postDom.blocks = func.blocks := by
  unfold ofFunc at h
  obtain ⟨flow, hflow, h⟩ := bind_eq_ok_iff.1 h
  obtain ⟨dom, hdom, h⟩ := bind_eq_ok_iff.1 h
  obtain ⟨postDom, hpostDom, h⟩ := bind_eq_ok_iff.1 h
  obtain rfl := pure_eq_ok_iff.1 h
  obtain ⟨succs, rfl, -⟩ := FlowGraph.ofFunc_eq_ok hflow hfunc
  constructor
  · unfold domTree at hdom
    split at hdom
    · rw [← pure_eq_ok_iff.1 hdom]
    · obtain ⟨parents, -, hdom⟩ := bind_eq_ok_iff.1 hdom
      rw [← pure_eq_ok_iff.1 hdom]
  · obtain ⟨parents, -, hpostDom⟩ := bind_eq_ok_iff.1 hpostDom
    rw [← pure_eq_ok_iff.1 hpostDom]

theorem Splitter.surveys_of_setting {config : Config} {loopId : Nat} {p : Program} {f : FuncRef}
    {func : Func} {loop : Loop} {deps : Dependences} {plan : Plan} {s : Setting}
    (h : setting config loopId p f loop deps plan = .ok s) (hfunc : p.func? f = some func)
    (hnodup : func.blocks.Nodup) : s.Surveys p func.blocks := by
  obtain ⟨-, -, -, -, -, -, hdominance, -, -, func', hfunc', hlimit⟩ := setting_eq_ok h
  obtain rfl := Option.some.inj (hfunc.symm.trans hfunc')
  obtain ⟨hdom, hpostDom⟩ := Dominance.represents_of_ofFunc hdominance hfunc hnodup
  obtain ⟨hblocks, hblocks'⟩ := Dominance.blocks_of_ofFunc hdominance hfunc
  refine ⟨hdom, hpostDom, ?_, ?_⟩
  · rw [hblocks, hlimit]
    exact Nat.le_succ _
  · rw [hblocks', hlimit]
    exact Nat.le_succ _

namespace Worker

variable {s : Setting} {o p q : Program} {func : Func} {f : FuncRef} {w : Worker}
  {blocks : List BlockRef} {a b : BlockRef} {thread : Nat}

section Climbs

variable {layout : List BlockRef} {blockMap : Std.TreeMap BlockRef BlockRef}

/-- A branch to a block below a block with a counterpart gets to a block of the worker. -/
theorem exists_copyOfTarget (h : s.Surveys p layout) (hb : b ∈ s.loop ∨ b = s.loop.exit)
    (hab : p.FlowPostDominates layout a b) (ha : (blockMap[a]?).isSome) :
    ∃ copy, copyOfTarget s blockMap b = .ok copy := by
  obtain ⟨copy, hcopy⟩ := h.postDom.exists_climb (fun _ => .refl _ _ _)
    (fun _ _ _ => PostDominates.trans) (fun _ _ => PostDominates.antisymm) h.postDom_le hab ha
  have hclimb : climb s.dominance.ipdom? (blockMap[·]?) s.climbLimit b = .ok copy := hcopy
  refine ⟨copy, ?_⟩
  rw [copyOfTarget, if_neg (by tauto), hclimb]

/-- The same for the blocks that a φ comes from. -/
theorem exists_copyOfPred (h : s.Surveys p layout) (hab : p.FlowDominates layout a b)
    (ha : (blockMap[a]?).isSome) : ∃ copy, copyOfPred s blockMap b = .ok copy := by
  have hrefl : ∀ b, p.FlowDominates layout b b := by
    obtain ⟨entry, hentry, -⟩ := hab
    exact fun _ => ⟨entry, hentry, .refl _ _ _⟩
  obtain ⟨copy, hcopy⟩ := h.dom.exists_climb hrefl (fun _ _ _ => Program.FlowDominates.trans)
    (fun _ _ => Program.FlowDominates.antisymm) h.dom_le hab ha
  have hclimb : climb s.dominance.idom? (blockMap[·]?) s.climbLimit b = .ok copy := hcopy
  exact ⟨copy, by rw [copyOfPred, hclimb]⟩

end Climbs

/-- What a block of a natural loop lists can be copied, as far as its blocks are concerned. -/
theorem calm_copyOp_of_lists (hsurveys : s.Surveys o func.blocks)
    (hnatural : s.loop.Natural o func.blocks) (hwell : o.WellFormed f func)
    (hexit : s.loop.exit ∈ func.blocks) {f' : FuncRef}
    (hskeleton : Skeleton s f' thread blocks p w q) (hheader : s.loop.header ∈ blocks)
    (hb : b ∈ s.loop) {i : InstrRef} {instr : Instr} (hi : o.Lists b i)
    (hinstr : o.instr? i = some instr) : Calm extra (copyOp s w.blockMap instr.op) := by
  refine calm_copyOp ?_ ?_
  · intro t ht
    obtain ⟨targets, htargets, hmem⟩ := hwell.exists_successors (hnatural.inside b hb) hi hinstr ht
    obtain ⟨targets', htargets', -, hinside⟩ := hnatural.successors b hb
    obtain rfl := Except.ok.inj (htargets.symm.trans htargets')
    have hpost : o.FlowPostDominates func.blocks s.loop.exit t := by
      rcases hinside t hmem with hloop | rfl
      · exact (hnatural.leaves hexit).postDominates_exit hloop
      · exact .refl _ _ _
    have hsome : (w.blockMap[s.loop.exit]?).isSome := by
      rw [hskeleton.exit_eq]
      rfl
    obtain ⟨copy, hcopy⟩ := exists_copyOfTarget hsurveys (hinside t hmem) hpost hsome
    rw [hcopy]
    exact FailsOnly.ok copy
  · intro pair hpair
    obtain ⟨copy, hcopy⟩ : ∃ copy, copyOfPred s w.blockMap pair.2 = .ok copy := by
      rcases hnatural.incoming b hb i instr hi hinstr pair hpair with hloop | hpreheader
      · obtain ⟨copy, _, hcopy, -⟩ := hskeleton.empty _ hheader
        refine exists_copyOfPred hsurveys (hnatural.flowDominates_header hexit hloop) ?_
        rw [hcopy]
        rfl
      · rw [hpreheader]
        exact ⟨_, copyOfPred_of_getElem? hskeleton.arrival_eq⟩
    rw [hcopy]
    exact FailsOnly.ok copy

/-- Blocks are copied calmly if what they list is. -/
theorem steady_copyBlocks_of_lists (hcopyable : Copyable w o blocks p)
    (hcopy : ∀ b ∈ blocks, ∀ i instr, o.Lists b i → o.instr? i = some instr →
      Calm extra (copyOp s w.blockMap instr.op)) :
    Steady extra (copyBlocks s w blocks) p := by
  induction blocks generalizing p with
  | nil => exact of_pure []
  | cons b blocks ih =>
      obtain ⟨hfirst, hrest⟩ := List.forall_mem_cons.1 hcopy
      have hhead : b ∈ b :: blocks := List.mem_cons_self ..
      refine answer_bind (calm_copyOf _ _) fun copy hlookup => ?_
      have hlookup := copyOf_eq_ok hlookup
      refine get_bind (answer_bind (by simp) fun block hblock => ?_)
      have hblock : o.block? b = some block :=
        hcopyable.block? b hhead ▸ Program.block_eq_ok_iff.1 hblock
      have hsame : ∀ i ∈ block.instrs, i.index < p.instrs.size ∧ p.instr? i = o.instr? i :=
        fun i hi => hcopyable.instr? b hhead i ⟨block, hblock, hi⟩
      refine bind (steady_copyInstrs fun i hi q instr hkeeps hinstr => ?_) fun _ q hcopied _ => ?_
      · obtain ⟨hlt, hsame⟩ := hsame i hi
        have hat := Array.getElem?_eq_getElem hlt
        obtain rfl := Option.some.inj (hinstr.symm.trans (hkeeps i _ hat))
        exact hfirst i _ ⟨block, hblock, hi⟩ (hsame.symm.trans hat)
      · have hcopyBlock := Array.getElem?_eq_getElem (hcopyable.copy b hhead copy hlookup).2
        obtain ⟨-, -, -, -, ops, -, hwrites⟩ := copyInstrs_writes
          ⟨_, _, hcopyBlock, (List.append_nil _).symm⟩ hcopied
        exact bind_forall (ih (hcopyable.of_writes hlookup hwrites) hrest) fun _ _ => of_pure _

/-- The workers of a natural loop are written without trouble about blocks. -/
theorem steady_mapM_build {d : Dispatch} {liveOut : List InstrRef} {threads : List Nat}
    (hsurveys : s.Surveys o func.blocks) (hnatural : s.loop.Natural o func.blocks)
    (hwell : o.WellFormed f func) (hexit : s.loop.exit ∈ func.blocks)
    (hheader : s.loop.header ∈ s.loop) (hpreheader : s.loop.preheader ∉ s.loop)
    (hshares : Shares o p s.loop) (hfits : d.exchange.Fits s.live.liveIn liveOut p) :
    Steady extra (threads.mapM (build s d)) p := by
  have hnot := hnatural.exit_not_mem
  refine Steady.mapM (fun q => Shares o q s.loop ∧ d.exchange.Fits s.live.liveIn liveOut q)
    ⟨hshares, hfits⟩ ?_ ?_
  · rintro thread p ⟨hshares, hfits⟩
    refine steady_build_of_copyBlocks hfits ?_
    intro f' blocks w q hvacant hblocks hadd
    obtain ⟨func', hfunc', hempty⟩ := vacantFunc_eq_ok hvacant
    obtain ⟨hsub, -, hmem⟩ := concernedBlocks_eq_ok hblocks
    have hskeleton := skeleton_of_addSkeleton hfunc' hempty (fun hmem => hnot (hsub.subset hmem))
      (fun hmem => hpreheader (hsub.subset hmem)) hadd
    refine steady_copyBlocks_of_lists
      (hskeleton.copyable hshares (fun _ hb => hsub.subset hb) hfunc' hempty) ?_
    intro b hb i instr hi hinstr
    exact calm_copyOp_of_lists hsurveys hnatural hwell hexit hskeleton (hmem hheader)
      (hsub.subset hb) hi hinstr
  · rintro thread p w q ⟨hshares, hfits⟩ hbuild hkeeps
    obtain ⟨hgrows, -⟩ := copies_of_build hshares hpreheader hnot hbuild
    exact ⟨hshares.grow hgrows, hfits.keep hkeeps⟩

end Worker

namespace Splitter

variable {splitter splitter' : Splitter} {p q : Program} {f : FuncRef} {func : Func} {loop : Loop}
  {deps : Dependences} {plan : Plan}

/-- A natural loop is not refused because of a block that nothing stands for in a worker. -/
theorem not_isAstray_of_split (hwell : p.WellFormed f func) (hnatural : loop.Natural p func.blocks)
    {failure : Failure}
    (h : splitter.split p f loop deps plan = (.error failure, splitter', q)) :
    ¬ failure.isAstray := by
  have hsteady : ∀ s, checkRequest splitter.config p f loop plan = .ok () →
      setting splitter.config splitter.numbered p f loop deps plan = .ok s →
      Steady (·.isEarly) (splitIn s) p := by
    intro s hrequest hsetting
    obtain ⟨-, hheader, hpreheader⟩ := checkRequest_eq_ok hrequest
    have hsurveys := surveys_of_setting hsetting hwell.lookup hwell.nodup
    obtain ⟨rfl, rfl, -⟩ := setting_eq_ok hsetting
    refine steady_splitIn_of_mapM (Dispatch.calm_exitPosition s p) fun d between hinstall => ?_
    obtain ⟨func', code, hinstalled⟩ := Dispatch.installed_of_install hinstall
    obtain rfl := Option.some.inj (hwell.lookup.symm.trans hinstalled.lookup)
    exact Worker.steady_mapM_build hsurveys hnatural hwell hinstalled.exit_mem hheader hpreheader
      (hinstalled.shares hwell hnatural.inside) (Dispatch.fits_of_install hinstall)
  rcases isCommon_or_of_split hsteady (fun _ => id) h with hcommon | hearly
  · exact (Failure.not_of_isCommon hcommon).2.2
  · exact (Failure.not_of_isEarly hearly).2

/-- The branches of the copies go to copies of blocks of the loop or to the exit. -/
theorem target_of_copy {result : Split} (hwell : p.WellFormed f func) (hnodup : loop.blocks.Nodup)
    (hnatural : loop.Natural p func.blocks)
    (h : splitter.split p f loop deps plan = (.ok result, splitter', q)) {worker : Worker}
    (hworker : worker ∈ result.workers) {pair : InstrRef × InstrRef}
    (hpair : pair ∈ worker.copies) :
    ∃ instr copy, p.instr? pair.1 = some instr ∧ q.instr? pair.2 = some copy ∧
      copy.op.successors.length = instr.op.successors.length ∧
      ∀ t ∈ copy.op.successors, t ≠ worker.entry ∧
        ((∃ b ∈ loop, worker.blockMap[b]? = some t) ∨ t = worker.exit) := by
  obtain ⟨s, rfl, rfl, rfl, rfl, hinto⟩ := splitInto_of_split hwell hnodup hnatural.inside h
  obtain ⟨blocks, here, σ, hbody⟩ := hinto.exists_body hworker
  obtain ⟨wfunc, hwfunc, -⟩ := hbody.layout
  have hheader := hnatural.inside _ hinto.header_mem
  obtain ⟨entry, hentry⟩ := Option.isSome_iff_exists.1
    (List.isSome_head?.2 (List.ne_nil_of_mem hheader))
  have hgated : Worker.OfGated s p func result.workers blocks here σ worker q wfunc entry :=
    ⟨hinto, hbody, hwell, hnatural.inside, hentry, hnatural.entry_not_mem entry hentry,
      hnatural.gated hinto.exit_mem, hnatural.reachable, hwfunc⟩
  obtain ⟨b, hb, hpair⟩ := List.mem_flatMap.1 (hbody.copies_eq ▸ hpair)
  obtain ⟨there, hthere⟩ := hbody.exists_copy hb
  obtain ⟨instr, name, hinstr, hplaced, hcopy⟩ := hbody.copies b hb there hthere pair hpair
  refine ⟨instr, _, hinstr, hcopy, by simp [Worker.copied], ?_⟩
  intro t ht
  rw [Op.successors_mapOperands, Worker.copied, Op.successors_mapIncoming,
    Op.successors_mapSuccessors] at ht
  obtain ⟨target, htarget, rfl⟩ := List.mem_map.1 ht
  obtain ⟨hloop, c, hc, hpost, hnearest⟩ :=
    Worker.copyOfTarget_eq_ok hinto.postDom (hplaced.targets target htarget)
  have hcases := hgated.target_cases hloop hc hpost hnearest
  refine ⟨hgated.ne_entry hcases hc, ?_⟩
  rcases hcases with hmem | rfl
  · exact .inl ⟨c, hbody.mem_loop hmem, hc⟩
  · exact .inr (Option.some.inj (hc.symm.trans hbody.exit_eq))

/-- Splitting a natural loop does not stop at a block that nothing stands for, whatever the plan
is, and where it succeeds the branches of all copies stay in the worker: they go to the copy of a
block of the loop or to the exit, and never back to the entry. -/
theorem split_converges (hfunc : p.func? f = some func) (hcheck : p.check f = .ok ())
    (hnodup : loop.blocks.Nodup) (hnatural : loop.Natural p func.blocks) (splitter : Splitter)
    (deps : Dependences) (plan : Plan) :
    (∀ failure splitter' q, splitter.split p f loop deps plan = (.error failure, splitter', q) →
      ∀ b, failure ≠ .rejected (.brokenPostDominance b) ∧
        failure ≠ .rejected (.brokenDominance b) ∧ failure ≠ .rejected (.unexpectedTarget b)) ∧
    ∀ result splitter' q, splitter.split p f loop deps plan = (.ok result, splitter', q) →
      ∀ worker ∈ result.workers, ∀ pair ∈ worker.copies, ∃ instr copy,
        p.instr? pair.1 = some instr ∧ q.instr? pair.2 = some copy ∧
        copy.op.successors.length = instr.op.successors.length ∧
        ∀ t ∈ copy.op.successors, t ≠ worker.entry ∧
          ((∃ b ∈ loop, worker.blockMap[b]? = some t) ∨ t = worker.exit) := by
  obtain ⟨func', hwell⟩ := Program.wellFormed_of_check hcheck
  obtain rfl := Option.some.inj (hfunc.symm.trans hwell.lookup)
  constructor
  · intro failure splitter' q h b
    have hastray := not_isAstray_of_split hwell hnatural h
    refine ⟨?_, ?_, ?_⟩ <;> rintro rfl <;> exact hastray rfl
  · intro result splitter' q h worker hworker pair hpair
    exact target_of_copy hwell hnodup hnatural h hworker hpair

end Splitter

theorem Counting.natural : loop.Natural program func.blocks where
  inside := by decide
  entry_not_mem := by decide
  exit_not_mem := by decide
  entering := gated.entering
  successors := successors_inside
  reachable := reachable_inside
  ends := fun b hb => ⟨⟨4⟩, flowFinal_exit, reaches_exit b hb⟩
  incoming := by
    have hall : ∀ b ∈ loop.blocks, ∀ i ∈ program.listedIn [b], ∀ instr ∈ program.instr? i,
        ∀ pair ∈ instr.op.incoming, pair.2 ∈ loop ∨ pair.2 = loop.preheader := by decide
    intro b hb i instr hi hinstr
    exact hall b hb i (Program.mem_listedIn_iff.2 ⟨b, List.mem_singleton_self b, hi⟩) instr hinstr

/-- The thread that squares has no copy of the latch, so the branch of the body, which goes
there, goes elsewhere in its worker. A plan that leaves this thread with nothing to do is refused
for that. -/
theorem Splitter.split_converges_counting :
    (∃ result splitter' q, (ofConfig Config.standard).split Counting.program ⟨0⟩ Counting.loop
        Counting.setting.deps Counting.setting.plan = (.ok result, splitter', q) ∧
      ∃ worker ∈ result.workers, worker.blockMap[(⟨3⟩ : BlockRef)]? = none ∧
        ∃ pair ∈ worker.copies, pair.1 = ⟨5⟩ ∧ ∃ copy, q.instr? pair.2 = some copy ∧
          copy.op.successors.length = 1 ∧ ∀ t ∈ copy.op.successors, t ≠ worker.entry ∧
            ((∃ b ∈ Counting.loop, worker.blockMap[b]? = some t) ∨ t = worker.exit)) ∧
    ∃ failure splitter' q, (ofConfig Config.standard).split Counting.program ⟨0⟩ Counting.loop
        Counting.setting.deps ⟨2, [⟨0, [⟨1⟩, ⟨2⟩, ⟨4⟩, ⟨6⟩]⟩]⟩ = (.error failure, splitter', q) ∧
      ∀ b, failure ≠ .rejected (.brokenPostDominance b) ∧
        failure ≠ .rejected (.brokenDominance b) ∧ failure ≠ .rejected (.unexpectedTarget b) := by
  have hfunc : Counting.program.func? ⟨0⟩ = some Counting.func := rfl
  constructor
  · obtain ⟨result, splitter', q, hsplit, hrun⟩ := exists_of_any (ofConfig Config.standard)
      Counting.program ⟨0⟩ Counting.loop Counting.setting.deps Counting.setting.plan
      (fun result _ => result.workers.any fun worker =>
        worker.blockMap[(⟨3⟩ : BlockRef)]? = none ∧ worker.copies.any fun pair => pair.1 = ⟨5⟩)
      (by decide +kernel)
    obtain ⟨worker, hworker, hany⟩ := List.any_eq_true.1 hrun
    obtain ⟨hlatch, hany⟩ := of_decide_eq_true hany
    obtain ⟨pair, hpair, hsource⟩ := List.any_eq_true.1 hany
    have hsource : pair.1 = ⟨5⟩ := of_decide_eq_true hsource
    obtain ⟨instr, copy, hinstr, hcopy, hlength, htargets⟩ :=
      (split_converges hfunc (by decide) (by decide) Counting.natural _ _ _).2 result splitter' q
        hsplit worker hworker pair hpair
    obtain rfl : Counting.program.instrs[5] = instr := Option.some.inj (hsource ▸ hinstr)
    exact ⟨result, splitter', q, hsplit, worker, hworker, hlatch, pair, hpair, hsource, copy, hcopy,
      hlength, htargets⟩
  · have herror : ((ofConfig Config.standard).split Counting.program ⟨0⟩ Counting.loop
        Counting.setting.deps ⟨2, [⟨0, [⟨1⟩, ⟨2⟩, ⟨4⟩, ⟨6⟩]⟩]⟩).1.isOk = false := by
      decide +kernel
    rcases hsplit : (ofConfig Config.standard).split Counting.program ⟨0⟩ Counting.loop
        Counting.setting.deps ⟨2, [⟨0, [⟨1⟩, ⟨2⟩, ⟨4⟩, ⟨6⟩]⟩]⟩ with ⟨failure | result, splitter', q⟩
    · exact ⟨failure, splitter', q, rfl,
        (split_converges hfunc (by decide) (by decide) Counting.natural _ _ _).1 failure splitter' q
          hsplit⟩
    · rw [hsplit] at herror
      cases herror

end Decouple
