import Decouple.Proofs.Installing
import Decouple.Proofs.Walks
import Decouple.Flow.Path

/-!
# A loop collapses into the block in its place

After `Dispatch.install`, control takes the way through the new block wherever it took
the way through the loop. On the blocks of one path this is `Loop.collapse`, which puts
the new block for every longest run of loop blocks, and the paths of the changed
function are exactly the collapsed paths of the function it was.

The argument is about the edges alone. `Collapses` says how the edges before and after
are related; a path before the change is collapsed step by step, and a path after it is
filled in at the new block with one way through the loop.
-/

namespace Decouple

namespace Loop

/-- The list with every longest run of loop blocks replaced by one `replacement`. The
last block of a run stands for the run. -/
def collapse (loop : Loop) (replacement : BlockRef) : List BlockRef → List BlockRef
  | [] => []
  | b :: rest =>
      if b ∈ loop then
        if rest.head?.any fun c => c ∈ loop then
          loop.collapse replacement rest
        else
          replacement :: loop.collapse replacement rest
      else
        b :: loop.collapse replacement rest

variable {loop : Loop} {replacement a b : BlockRef} {visited run : List BlockRef}

theorem image_of_mem (hb : b ∈ loop) : loop.image replacement b = replacement := if_pos hb

theorem image_of_not_mem (hb : b ∉ loop) : loop.image replacement b = b := if_neg hb

/-- One more block at the end of a path: it is new unless it goes on with a run. -/
theorem collapse_concat (ha : visited.getLast? = some a) :
    loop.collapse replacement (visited ++ [b]) = loop.collapse replacement visited ++
      if b ∈ loop then if a ∈ loop then [] else [replacement] else [b] := by
  induction visited with
  | nil => cases ha
  | cons c visited ih =>
      cases visited with
      | nil =>
          obtain rfl := Option.some.inj ha
          by_cases hc : c ∈ loop <;> by_cases hb : b ∈ loop <;> simp [collapse, hc, hb]
      | cons d visited =>
          have ih := ih (by rw [← ha, List.getLast?_cons_cons])
          have hhead : (d :: visited ++ [b]).head? = (d :: visited).head? := rfl
          rw [List.cons_append, collapse, collapse, hhead, ih]
          split
          · split <;> simp
          · simp

/-- A whole run after a block outside the loop. -/
theorem collapse_append_run (ha : visited.getLast? = some a) (houtside : a ∉ loop)
    (hrun : run ≠ []) (hinside : ∀ b ∈ run, b ∈ loop) :
    loop.collapse replacement (visited ++ run) =
      loop.collapse replacement visited ++ [replacement] := by
  induction run using List.reverseRecOn with
  | nil => exact absurd rfl hrun
  | append_singleton run b ih =>
      have hb : b ∈ loop := hinside b (by simp)
      rw [← List.append_assoc]
      cases run using List.reverseRecOn with
      | nil => rw [List.append_nil, collapse_concat ha, if_pos hb, if_neg houtside]
      | append_singleton run c =>
          have hc : c ∈ loop := hinside c (by simp)
          have hlast : (visited ++ (run ++ [c])).getLast? = some c := by simp
          have ih := ih (by simp) fun d hd => hinside d (List.mem_append_left _ hd)
          rw [collapse_concat hlast, if_pos hb, if_pos hc, List.append_nil, ih]

theorem mem_collapse_of_not_mem (hb : b ∉ loop) (hmem : b ∈ visited) :
    b ∈ loop.collapse replacement visited := by
  induction visited with
  | nil => exact absurd hmem List.not_mem_nil
  | cons c visited ih =>
      rw [collapse]
      rcases List.mem_cons.1 hmem with rfl | hmem
      · rw [if_neg hb]
        exact List.mem_cons_self ..
      · split
        · split
          · exact ih hmem
          · exact List.mem_cons_of_mem _ (ih hmem)
        · exact List.mem_cons_of_mem _ (ih hmem)

theorem mem_collapse_of_exists_mem (h : ∃ b ∈ visited, b ∈ loop) :
    replacement ∈ loop.collapse replacement visited := by
  induction visited with
  | nil =>
      obtain ⟨b, hb, -⟩ := h
      exact absurd hb List.not_mem_nil
  | cons c visited ih =>
      rw [collapse]
      by_cases hc : c ∈ loop
      · rw [if_pos hc]
        split
        · next hnext =>
            obtain ⟨d, hd, hmem⟩ := (Option.any_eq_true _ _).1 hnext
            exact ih ⟨d, List.mem_of_head? hd, of_decide_eq_true hmem⟩
        · exact List.mem_cons_self ..
      · rw [if_neg hc]
        obtain ⟨b, hb, hmem⟩ := h
        rcases List.mem_cons.1 hb with rfl | hb
        · exact absurd hmem hc
        · exact List.mem_cons_of_mem _ (ih ⟨b, hb, hmem⟩)

theorem mem_of_mem_collapse (h : b ∈ loop.collapse replacement visited) :
    b = replacement ∨ b ∈ visited := by
  induction visited with
  | nil => exact absurd h List.not_mem_nil
  | cons c visited ih =>
      rw [collapse] at h
      split at h
      · split at h
        · exact (ih h).imp_right (List.mem_cons_of_mem c)
        · rcases List.mem_cons.1 h with rfl | h
          · exact .inl rfl
          · exact (ih h).imp_right (List.mem_cons_of_mem c)
      · rcases List.mem_cons.1 h with rfl | h
        · exact .inr (List.mem_cons_self ..)
        · exact (ih h).imp_right (List.mem_cons_of_mem c)

theorem getLast?_collapse :
    (loop.collapse replacement visited).getLast? =
      visited.getLast?.map (loop.image replacement) := by
  induction visited with
  | nil => rfl
  | cons c visited ih =>
      cases visited with
      | nil => by_cases hc : c ∈ loop <;> simp [collapse, image, hc]
      | cons d visited =>
          have hsome : (loop.collapse replacement (d :: visited)).getLast?.isSome := by
            rw [ih]
            simp
          rw [collapse, List.getLast?_cons_cons, ← ih]
          split
          · split
            · rfl
            · simp [List.getLast?_cons, Option.getD_of_ne_none (Option.isSome_iff_ne_none.1 hsome)]
          · simp [List.getLast?_cons, Option.getD_of_ne_none (Option.isSome_iff_ne_none.1 hsome)]

/-- Control enters the loop at its header only, and leaves it for its exit only. -/
structure Tied (loop : Loop) (edge : BlockRef → BlockRef → Prop) : Prop where
  entering : ∀ a b, edge a b → a ∉ loop → b ∈ loop → b = loop.header
  leaving : ∀ a b, edge a b → a ∈ loop → b ∉ loop → b = loop.exit

theorem Tied.of_forall {p : Program} {layout : List BlockRef}
    (h : ∀ a ∈ layout, ∀ b ∈ layout, p.FlowEdge layout a b →
      (a ∉ loop → b ∈ loop → b = loop.header) ∧ (a ∈ loop → b ∉ loop → b = loop.exit)) :
    loop.Tied (p.FlowEdge layout) :=
  ⟨fun a b hedge => (h a hedge.source_mem b hedge.target_mem hedge).1,
    fun a b hedge => (h a hedge.source_mem b hedge.target_mem hedge).2⟩

def Passable (loop : Loop) (edge : BlockRef → BlockRef → Prop) : Prop :=
  ∃ last run, Walk edge loop.header last run ∧ (∀ b ∈ run, b ∈ loop) ∧ edge last loop.exit

/-- The edges `new` are the edges `old` with the replacement in the place of the
loop. -/
structure Collapses (loop : Loop) (replacement : BlockRef)
    (old new : BlockRef → BlockRef → Prop) : Prop where
  not_mem : replacement ∉ loop
  header_mem : loop.header ∈ loop
  exit_not_mem : loop.exit ∉ loop
  old_ne : ∀ a b, old a b → a ≠ replacement ∧ b ≠ replacement
  outside : ∀ a b, a ∉ loop → a ≠ replacement →
    (new a b ↔ (b = replacement ∧ old a loop.header) ∨ (b ≠ loop.header ∧ old a b))
  replaced : ∀ b, new replacement b ↔ b = loop.exit

namespace Collapses

variable {old new : BlockRef → BlockRef → Prop} {entry : BlockRef}

/-- A path of the changed function avoids the loop. -/
theorem not_mem_of_walk (h : Collapses loop replacement old new) (htied : loop.Tied old)
    (hentry : entry ∉ loop) (hwalk : Walk new entry b visited) : ∀ c ∈ visited, c ∉ loop := by
  induction hwalk with
  | stay a =>
      intro c hc
      exact List.mem_singleton.1 hc ▸ hentry
  | @step a d b visited hedge hwalk ih =>
      have hd : d ∉ loop := by
        by_cases ha : a = replacement
        · subst ha
          obtain rfl := (h.replaced d).1 hedge
          exact h.exit_not_mem
        · rcases (h.outside a d hentry ha).1 hedge with ⟨rfl, -⟩ | ⟨hne, hold⟩
          · exact h.not_mem
          · exact fun hd => hne (htied.entering a d hold hentry hd)
      intro c hc
      rcases List.mem_cons.1 hc with rfl | hc
      · exact hentry
      · exact ih hd c hc

/-- The step of a path before the change, collapsed: nothing inside the loop, and
otherwise a step of the changed function. -/
theorem step (h : Collapses loop replacement old new) (htied : loop.Tied old)
    (hedge : old a b) (hout : a ∉ loop ∨ b ∉ loop) :
    new (loop.image replacement a) (loop.image replacement b) := by
  obtain ⟨hane, hbne⟩ := h.old_ne a b hedge
  by_cases ha : a ∈ loop
  · have hb : b ∉ loop := hout.resolve_left (not_not_intro ha)
    rw [image_of_mem ha, image_of_not_mem hb]
    exact (h.replaced b).2 (htied.leaving a b hedge ha hb)
  · rw [image_of_not_mem ha]
    by_cases hb : b ∈ loop
    · rw [image_of_mem hb]
      obtain rfl := htied.entering a b hedge ha hb
      exact (h.outside a _ ha hane).2 (.inl ⟨rfl, hedge⟩)
    · rw [image_of_not_mem hb]
      refine (h.outside a b ha hane).2 (.inr ⟨?_, hedge⟩)
      rintro rfl
      exact hb h.header_mem

/-- A path before the change collapses to a path after it. -/
theorem walk_collapse (h : Collapses loop replacement old new) (htied : loop.Tied old)
    (hentry : entry ∉ loop) (hwalk : Walk old entry b visited) :
    Walk new entry (loop.image replacement b) (loop.collapse replacement visited) := by
  refine hwalk.grow
    (motive := fun b visited =>
      Walk new entry (loop.image replacement b) (loop.collapse replacement visited)) ?_ ?_
  · have hhead : loop.collapse replacement [entry] = [entry] := by
      rw [collapse, if_neg hentry]
      rfl
    rw [image_of_not_mem hentry, hhead]
    exact .stay _
  · intro a b before hbefore ih hedge
    rw [collapse_concat hbefore.getLast?_eq]
    by_cases hinside : a ∈ loop ∧ b ∈ loop
    · obtain ⟨ha, hb⟩ := hinside
      rw [if_pos hb, if_pos ha, List.append_nil, image_of_mem hb]
      rwa [image_of_mem ha] at ih
    · have hnew := ih.snoc (h.step htied hedge (not_and_or.1 hinside))
      by_cases hb : b ∈ loop
      · have ha : a ∉ loop := fun ha => hinside ⟨ha, hb⟩
        rw [if_pos hb, if_neg ha]
        rwa [image_of_mem hb] at hnew ⊢
      · rw [if_neg hb]
        rwa [image_of_not_mem hb] at hnew ⊢

/-- A path after the change is a collapsed path: at the replacement, it is filled in with
the way through the loop up to the block that goes on to the exit. -/
theorem exists_walk (h : Collapses loop replacement old new) (htied : loop.Tied old)
    (hpass : loop.Passable old) (hentry : entry ∉ loop) (hne : entry ≠ replacement)
    (hwalk : Walk new entry b visited) :
    ∃ c others, Walk old entry c others ∧ visited = loop.collapse replacement others ∧
      (b ≠ replacement → c = b) ∧ (b = replacement → c ∈ loop ∧ old c loop.exit) := by
  obtain ⟨last, run, hrun, hinside, hlast⟩ := hpass
  refine hwalk.grow
    (motive := fun b visited => ∃ c others, Walk old entry c others ∧
      visited = loop.collapse replacement others ∧ (b ≠ replacement → c = b) ∧
      (b = replacement → c ∈ loop ∧ old c loop.exit)) ?_ ?_
  · refine ⟨entry, [entry], .stay entry, ?_, fun _ => rfl, fun heq => absurd heq hne⟩
    rw [collapse, if_neg hentry]
    rfl
  · rintro a b before hbefore ⟨c, others, hothers, rfl, hsame, hinner⟩ hedge
    by_cases ha : a = replacement
    · -- the way through the loop is complete, and control goes on to the exit
      obtain ⟨hc, hexit⟩ := hinner ha
      subst ha
      obtain rfl := (h.replaced b).1 hedge
      refine ⟨_, _, hothers.snoc hexit, ?_, fun _ => rfl, ?_⟩
      · rw [collapse_concat hothers.getLast?_eq, if_neg h.exit_not_mem]
      · exact fun heq => absurd heq (h.old_ne _ _ hexit).2
    · obtain rfl := hsame ha
      have hc : c ∉ loop := h.not_mem_of_walk htied hentry hbefore c hbefore.end_mem
      rcases (h.outside c b hc ha).1 hedge with ⟨rfl, hheader⟩ | ⟨hbne, hold⟩
      · have hjoined := hothers.join (.step hheader hrun)
        refine ⟨last, _, hjoined, ?_, fun hne => absurd rfl hne, ?_⟩
        · rw [List.tail_cons, collapse_append_run hothers.getLast?_eq hc hrun.ne_nil hinside]
        · exact fun _ => ⟨hinside last hrun.end_mem, hlast⟩
      · have hb : b ∉ loop := fun hb => hbne (htied.entering c b hold hc hb)
        refine ⟨b, _, hothers.snoc hold, ?_, fun _ => rfl, ?_⟩
        · rw [collapse_concat hothers.getLast?_eq, if_neg hb]
        · exact fun heq => absurd heq (h.old_ne c b hold).2

end Collapses

end Loop

namespace Program

variable {p : Program} {layout : List BlockRef} {a b : BlockRef}

theorem flowEdge_iff :
    p.FlowEdge layout a b ↔ a ∈ layout ∧ b ∈ layout ∧ b ∈ p.targetsOf a := by
  unfold FlowEdge targetsOf
  refine and_congr_right fun _ => and_congr_right fun _ => ?_
  cases p.successors a <;> simp [Except.toOption]

instance : Decidable (p.FlowEdge layout a b) := decidable_of_iff _ flowEdge_iff.symm

theorem targetsOf_of_none (h : p.block? b = none) : p.targetsOf b = [] := by
  cases hsuccs : p.successors b with
  | error failure => simp [targetsOf, hsuccs, Except.toOption]
  | ok targets =>
      obtain ⟨block, hblock, -⟩ := successors_eq_ok_iff.1 hsuccs
      cases h.symm.trans hblock

end Program

def Program.ListedOnce (p : Program) (layout : List BlockRef) : Prop :=
  ∀ b ∈ layout, ∀ c ∈ layout, ∀ i, p.Lists b i → p.Lists c i → b = c

theorem Program.ListedOnce.of_forall {p : Program} {layout : List BlockRef}
    (h : ∀ b ∈ layout, ∀ c ∈ layout, ∀ i ∈ p.listedIn [b], i ∈ p.listedIn [c] → b = c) :
    p.ListedOnce layout := by
  intro b hb c hc i hi hi'
  exact h b hb c hc i (mem_listedIn_iff.2 ⟨b, List.mem_singleton_self b, hi⟩)
    (mem_listedIn_iff.2 ⟨c, List.mem_singleton_self c, hi'⟩)

/-- The blocks of the layout, and all blocks they branch to, are in the table. -/
def Program.Grounded (p : Program) (layout : List BlockRef) : Prop :=
  ∀ b ∈ layout, (p.block? b).isSome ∧ ∀ target ∈ p.targetsOf b, (p.block? target).isSome

namespace Dispatch

variable {s : Setting} {p q : Program} {func : Func} {d : Dispatch} {code : List (Op × Ty)}
  {b : BlockRef} {targets : List BlockRef}

theorem successors_renamed (σ : Renaming) (n : Nat) (instr : Instr) :
    ((renamed σ)^[n] instr).op.successors = instr.op.successors :=
  apply_iterate_of_invariant (fun instr => instr.op.successors)
    (fun instr => Op.successors_mapOperands _ instr.op) n instr

theorem successors_reroute (replacement : BlockRef) (n : Nat) (instr : Instr) :
    ((reroute s replacement)^[n] instr).op.successors = instr.op.successors :=
  apply_iterate_of_invariant (fun instr => instr.op.successors)
    (fun instr => Op.successors_mapIncoming _ instr.op) n instr

theorem successors_adjusted (i : InstrRef) (instr : Instr) :
    (adjusted s p func d i instr).op.successors =
      if i ∈ outsideEnds s p d.block func.blocks then
        instr.op.successors.map (aim s d.block)
      else
        instr.op.successors := by
  rw [adjusted, successors_renamed, successors_reroute, successors_turn]
  by_cases hi : i ∈ outsideEnds s p d.block func.blocks
  · rw [if_pos hi, if_neg fun hzero => List.count_eq_zero.1 hzero hi]
  · rw [if_neg hi, if_pos (List.count_eq_zero.2 hi)]

/-- Inserting at the place of a member puts the new one right before it. -/
theorem insertIdx_idxOf? {α : Type} [DecidableEq α] {xs : List α} {a r : α} {position : Nat}
    (h : xs.idxOf? a = some position) :
    ∃ before after, xs = before ++ a :: after ∧ a ∉ before ∧
      xs.insertIdx position r = before ++ r :: a :: after := by
  induction xs generalizing position with
  | nil => cases h
  | cons x xs ih =>
      rw [List.idxOf?_cons] at h
      split at h
      · next heq =>
          obtain rfl := Option.some.inj h
          obtain rfl := beq_iff_eq.1 heq
          exact ⟨[], xs, rfl, List.not_mem_nil, rfl⟩
      · next hne =>
          obtain ⟨k, hk, rfl⟩ := Option.map_eq_some_iff.1 h
          obtain ⟨before, after, rfl, hbefore, hinsert⟩ := ih hk
          have hx : a ≠ x := fun heq => hne (beq_iff_eq.2 heq.symm)
          exact ⟨x :: before, after, rfl, List.not_mem_cons_of_ne_of_not_mem hx hbefore,
            congrArg (x :: ·) hinsert⟩

namespace Installed

/-- The layout has the new block right before the exit, so the first block is the same
unless that is the exit. -/
theorem exists_layout (h : Installed s p func d code q) :
    ∃ func', q.func? s.func = some func' ∧
      (∀ b, b ∈ func'.blocks ↔ b = d.block ∨ b ∈ func.blocks) ∧
      ∀ entry, func.entry? = some entry → entry ≠ s.loop.exit → func'.entry? = some entry := by
  obtain ⟨position, hposition, hfunc'⟩ := h.layout
  obtain ⟨before, after, heq, -, hinsert⟩ := insertIdx_idxOf? (r := d.block) hposition
  refine ⟨_, hfunc', ?_, ?_⟩
  · intro b
    change b ∈ func.blocks.insertIdx position d.block ↔ _
    rw [hinsert, heq]
    simp only [List.mem_append, List.mem_cons]
    exact or_left_comm
  · intro entry hentry hexit
    rw [Func.entry?, heq] at hentry
    rw [Func.entry?, hinsert]
    cases before with
    | nil => exact absurd (Option.some.inj hentry).symm hexit
    | cons b before => exact hentry

theorem exit_mem (h : Installed s p func d code q) : s.loop.exit ∈ func.blocks := by
  obtain ⟨position, hposition, -⟩ := h.layout
  obtain ⟨before, after, heq, -⟩ := insertIdx_idxOf? (r := d.block) hposition
  simp [heq]

theorem fresh (h : Installed s p func d code q) : p.block? d.block = none := by
  rw [h.block_eq, Program.block?, Array.getElem?_eq_none (Nat.le_refl _)]

theorem ne_block (h : Installed s p func d code q) (hb : (p.block? b).isSome) : b ≠ d.block := by
  rintro rfl
  rw [h.fresh] at hb
  cases hb

theorem isOutside_of_not_mem (h : Installed s p func d code q) (hb : (p.block? b).isSome)
    (houtside : b ∉ s.loop) : isOutside s d.block b := by
  simp [isOutside, h.ne_block hb, houtside]

theorem instr?_some (h : Installed s p func d code q) {i : InstrRef} {instr : Instr}
    (hi : p.instr? i = some instr) : q.instr? i = some (adjusted s p func d i instr) := by
  obtain ⟨hlt, -⟩ := Array.getElem?_eq_some_iff.1 hi
  rw [h.instr?_old i hlt, hi]
  rfl

/-- Outside the loop, branches to the header go to the new block, slot by slot. -/
theorem successors_outside (h : Installed s p func d code q) (hb : b ∈ func.blocks)
    (houtside : isOutside s d.block b) (htargets : p.successors b = .ok targets) :
    q.successors b = .ok (targets.map (aim s d.block)) := by
  have hne : b ≠ d.block := by
    rintro rfl
    exact not_isOutside_self s _ houtside
  refine Program.successors_of_changed htargets (h.block?_kept b hne) ?_
  intro i hi instr hinstr
  refine ⟨_, h.instr?_some hinstr, ?_⟩
  rw [successors_adjusted, if_pos]
  exact List.mem_filterMap.2 ⟨b, List.mem_filter.2 ⟨hb, houtside⟩, hi⟩

/-- Blocks of the loop go on as before. -/
theorem successors_inside (h : Installed s p func d code q) (honce : p.ListedOnce func.blocks)
    (hb : b ∈ func.blocks) (hne : b ≠ d.block) (hinside : b ∈ s.loop)
    (htargets : p.successors b = .ok targets) : q.successors b = .ok targets := by
  rw [← List.map_id targets]
  refine Program.successors_of_changed htargets (h.block?_kept b hne) ?_
  intro i hi instr hinstr
  refine ⟨_, h.instr?_some hinstr, ?_⟩
  rw [successors_adjusted, if_neg, List.map_id]
  intro hmem
  obtain ⟨c, hc, hic⟩ := List.mem_filterMap.1 hmem
  obtain ⟨hc, houtside⟩ := List.mem_filter.1 hc
  obtain rfl := honce b hb c hc i (Program.lists_of_endOf hi) (Program.lists_of_endOf hic)
  simp [isOutside, hinside] at houtside

/-- The new block goes on to the exit. -/
theorem successors_new (h : Installed s p func d code q) :
    q.successors d.block = .ok [s.loop.exit] := by
  obtain ⟨ops, rfl⟩ : ∃ ops, code = ops ++ [(.br s.loop.exit, .void)] := by
    obtain ⟨init, dispatch, join, types, -, rfl⟩ := h.code_eq
    exact ⟨_, rfl⟩
  obtain ⟨name, hname⟩ := h.instr?_new ops.length (.br s.loop.exit) .void
    (List.getElem?_concat_length ..)
  have hlast : (newRefs p.instrs.size (ops ++ [(Op.br s.loop.exit, Ty.void)]).length).getLast? =
      some ⟨p.instrs.size + ops.length⟩ := by
    rw [List.length_append, List.length_singleton, newRefs_add]
    exact List.getLast?_concat
  rw [Program.successors_eq_of_getLast? h.block?_new hlast hname, successors_renamed]
  rfl

/-- The edges of the function before and after the change. -/
theorem collapses (h : Installed s p func d code q) (hground : p.Grounded func.blocks)
    (hheader : s.loop.header ∈ s.loop) (hloop : ∀ b ∈ s.loop, b ∈ func.blocks)
    {layout : List BlockRef}
    (hlayout : ∀ b, b ∈ layout ↔ b = d.block ∨ b ∈ func.blocks) :
    s.loop.Collapses d.block (p.FlowEdge func.blocks) (q.FlowEdge layout) := by
  have hne : ∀ b ∈ func.blocks, b ≠ d.block := fun b hb => h.ne_block (hground b hb).1
  constructor
  · exact fun hmem => hne _ (hloop _ hmem) rfl
  · exact hheader
  · exact h.exit_not_mem
  · intro a b hedge
    exact ⟨hne a hedge.source_mem, hne b hedge.target_mem⟩
  · intro a b ha hane
    by_cases hmem : a ∈ func.blocks
    · have houtside := h.isOutside_of_not_mem (hground a hmem).1 ha
      obtain ⟨targets, htargets⟩ := h.readable a hmem houtside
      have hafter := h.successors_outside hmem houtside htargets
      constructor
      · rintro ⟨-, hb, after, hsuccs, hbmem⟩
        obtain rfl := Except.ok.inj (hafter.symm.trans hsuccs)
        obtain ⟨target, htarget, rfl⟩ := List.mem_map.1 hbmem
        by_cases hheader' : target = s.loop.header
        · subst hheader'
          exact .inl ⟨if_pos rfl, hmem, hloop _ hheader, targets, htargets, htarget⟩
        · have hsame : aim s d.block target = target := if_neg hheader'
          have hfresh : target ≠ d.block := by
            refine h.ne_block ((hground a hmem).2 target ?_)
            rw [Program.targetsOf, htargets]
            exact htarget
          rw [hsame] at hb ⊢
          have hin : target ∈ func.blocks := ((hlayout target).1 hb).resolve_left hfresh
          exact .inr ⟨hheader', hmem, hin, targets, htargets, htarget⟩
      · rintro (⟨rfl, -, -, before, hsuccs, hbmem⟩ | ⟨hheader', -, hb, before, hsuccs, hbmem⟩)
        · obtain rfl := Except.ok.inj (htargets.symm.trans hsuccs)
          refine ⟨(hlayout a).2 (.inr hmem), (hlayout _).2 (.inl rfl), _, hafter, ?_⟩
          exact List.mem_map.2 ⟨_, hbmem, if_pos rfl⟩
        · obtain rfl := Except.ok.inj (htargets.symm.trans hsuccs)
          refine ⟨(hlayout a).2 (.inr hmem), (hlayout b).2 (.inr hb), _, hafter, ?_⟩
          exact List.mem_map.2 ⟨b, hbmem, if_neg hheader'⟩
    · constructor
      · intro hedge
        exact absurd hedge.source_mem fun hin => hmem (((hlayout a).1 hin).resolve_left hane)
      · rintro (⟨-, hedge⟩ | ⟨-, hedge⟩) <;> exact absurd hedge.source_mem hmem
  · intro b
    constructor
    · rintro ⟨-, -, targets, hsuccs, hb⟩
      obtain rfl := Except.ok.inj (h.successors_new.symm.trans hsuccs)
      exact List.mem_singleton.1 hb
    · rintro rfl
      exact ⟨(hlayout _).2 (.inl rfl), (hlayout _).2 (.inr h.exit_mem), _, h.successors_new,
        List.mem_singleton_self _⟩

/-- A block that was not there had no branches to the header. -/
theorem headerSlots_block (h : Installed s p func d code q) :
    headerSlots s.loop p d.block = 0 := by
  rw [headerSlots, Program.targetsOf_of_none h.fresh]
  rfl

theorem redirected_eq_sum (h : Installed s p func d code q) (honce : p.ListedOnce func.blocks)
    (hheader : (p.block? s.loop.header).isSome) :
    d.redirected =
      ∑ b ∈ (func.blocks.filter fun b => b ∉ s.loop).toFinset, headerSlots s.loop p b := by
  rw [h.redirected_eq (h.ne_block hheader).symm fun b hb c hc i hi hi' =>
    honce b hb c hc i (Program.lists_of_endOf hi) (Program.lists_of_endOf hi')]
  -- where the layout names the new block already, it adds nothing
  refine Finset.sum_subset (fun b hb => ?_) fun b hb hnot => ?_
  · rw [List.mem_toFinset, List.mem_filter] at hb ⊢
    exact ⟨hb.1, decide_eq_true (of_decide_eq_true hb.2).2⟩
  · rw [List.mem_toFinset, List.mem_filter] at hb hnot
    have hb' := of_decide_eq_true hb.2
    by_cases hblock : b = d.block
    · rw [hblock, h.headerSlots_block]
    · exact absurd ⟨hb.1, decide_eq_true ⟨hblock, hb'⟩⟩ hnot

/-- Nothing outside the loop branches to the header any more. -/
theorem not_flowEdge_header (h : Installed s p func d code q)
    (hheader : (p.block? s.loop.header).isSome) (hmem : s.loop.header ∈ s.loop)
    {layout : List BlockRef} (hlayout : ∀ b, b ∈ layout ↔ b = d.block ∨ b ∈ func.blocks)
    (hb : b ∉ s.loop) : ¬ q.FlowEdge layout b s.loop.header := by
  rintro ⟨hlisted, -, targets, htargets, htarget⟩
  by_cases hblock : b = d.block
  · subst hblock
    obtain rfl := Except.ok.inj (h.successors_new.symm.trans htargets)
    exact h.exit_not_mem (List.mem_singleton.1 htarget ▸ hmem)
  · have hin : b ∈ func.blocks := ((hlayout b).1 hlisted).resolve_left hblock
    have houtside : isOutside s d.block b := decide_eq_true ⟨hblock, hb⟩
    obtain ⟨before, hbefore⟩ := h.readable b hin houtside
    have hafter := h.successors_outside hin houtside hbefore
    obtain rfl := Except.ok.inj (hafter.symm.trans htargets)
    obtain ⟨target, -, haim⟩ := List.mem_map.1 htarget
    rw [aim] at haim
    split at haim
    · exact h.ne_block hheader haim.symm
    · next hne => exact hne haim

end Installed

/-- The loop of a function is collapsed into the block of `d`: in `q` the function is `func'`,
which has that block in the place of the loop. -/
structure Collapsed (d : Dispatch) (s : Setting) (p : Program) (func : Func) (q : Program)
    (func' : Func) : Prop where
  fresh : p.block? d.block = none
  layout : ∀ b, b ∈ func'.blocks ↔ b = d.block ∨ b ∈ func.blocks
  /-- Outside the loop the header is replaced in every branch, slot by slot. -/
  outside : ∀ b ∈ func.blocks, b ∉ s.loop → (p.block? b).isSome → ∃ targets,
    p.successors b = .ok targets ∧ q.successors b = .ok
      (targets.map fun target => if target = s.loop.header then d.block else target)
  inside : ∀ b ∈ s.loop, ∀ targets, p.successors b = .ok targets → q.successors b = .ok targets
  leaving : q.successors d.block = .ok [s.loop.exit]
  counted : (p.block? s.loop.header).isSome → d.redirected =
    ∑ b ∈ (func.blocks.filter fun b => b ∉ s.loop).toFinset, headerSlots s.loop p b
  abandoned : (p.block? s.loop.header).isSome →
    ∀ b ∈ func'.blocks, b ∉ s.loop → ¬ q.FlowEdge func'.blocks b s.loop.header
  /-- The loop is out of reach, and the paths are those of before with each longest run of loop
  blocks replaced by the new block. -/
  paths : p.Grounded func.blocks → ∀ entry, func.entry? = some entry → entry ∉ s.loop →
    entry ≠ s.loop.exit → s.loop.Tied (p.FlowEdge func.blocks) →
    s.loop.Passable (p.FlowEdge func.blocks) →
    func'.entry? = some entry ∧ (∀ b ∈ s.loop, ¬ q.FlowReachable func'.blocks b) ∧
    ∀ visited, (∃ b, Walk (q.FlowEdge func'.blocks) entry b visited) ↔
      ∃ c others, Walk (p.FlowEdge func.blocks) entry c others ∧
        visited = s.loop.collapse d.block others

/-- Putting a block in the place of a loop collapses the loop into that block. Outside the
loop the header is replaced in every branch, slot by slot; loop blocks are as they were, and the
new block goes on to the exit. If the header is there, the replaced slots are counted and nothing
outside branches to it any more.

Let the layout and the branches of its blocks name blocks that are there: a branch that led
nowhere may lead to the new block, which takes the next reference. If moreover control enters the
loop at its header only, leaves it for its exit only and can pass it, then the loop is out of
reach of the entry, and the paths from the entry are the collapsed paths of before. -/
theorem install_collapses_loop (hinstall : (install s).apply p = (.ok d, q))
    (hfunc : p.func? s.func = some func) (honce : p.ListedOnce func.blocks)
    (hheader : s.loop.header ∈ s.loop) (hloop : ∀ b ∈ s.loop, b ∈ func.blocks) :
    ∃ func', q.func? s.func = some func' ∧ d.Collapsed s p func q func' := by
  obtain ⟨func₀, code, h⟩ := installed_of_install hinstall
  obtain rfl := Option.some.inj (hfunc.symm.trans h.lookup)
  obtain ⟨func', hfunc', hlayout, hhead⟩ := h.exists_layout
  refine ⟨func', hfunc', h.fresh, hlayout, ?_, ?_, h.successors_new, h.redirected_eq_sum honce,
    fun hsome b _ => h.not_flowEdge_header hsome hheader hlayout, ?_⟩
  · intro b hb hout hsome
    have houtside := h.isOutside_of_not_mem hsome hout
    obtain ⟨targets, htargets⟩ := h.readable b hb houtside
    exact ⟨targets, htargets, h.successors_outside hb houtside htargets⟩
  · intro b hb targets htargets
    obtain ⟨block, hblock, -⟩ := Program.successors_eq_ok_iff.1 htargets
    have hne := h.ne_block (Option.isSome_iff_exists.2 ⟨block, hblock⟩)
    exact h.successors_inside honce (hloop b hb) hne hb htargets
  · intro hground entry hentry hout hexit htied hpass
    have hcollapses := h.collapses hground hheader hloop hlayout
    have hentry' := hhead entry hentry hexit
    refine ⟨hentry', ?_, ?_⟩
    · rintro b hb ⟨entry', hhead, visited, hwalk⟩
      obtain rfl := Option.some.inj (hentry'.symm.trans hhead)
      exact hcollapses.not_mem_of_walk htied hout hwalk b hwalk.end_mem hb
    · intro visited
      constructor
      · rintro ⟨b, hwalk⟩
        have hfresh := h.ne_block (hground entry (List.mem_of_head? hentry)).1
        obtain ⟨c, others, hothers, hcollapse, -⟩ :=
          hcollapses.exists_walk htied hpass hout hfresh hwalk
        exact ⟨c, others, hothers, hcollapse⟩
      · rintro ⟨c, others, hothers, rfl⟩
        exact ⟨_, hcollapses.walk_collapse htied hout hothers⟩

end Dispatch

namespace Counting

/-- A function that counts up to its argument: block 0 leads to the header 1, which goes
round through 2 and 3 and leaves for 4. -/
def program : Program where
  funcs := #[
    { name := "count"
      params := [.i32]
      ret := .i32
      blocks := [⟨0⟩, ⟨1⟩, ⟨2⟩, ⟨3⟩, ⟨4⟩]
      external := false }]
  blocks := #[
    { name := "entry", func := ⟨0⟩, instrs := [⟨0⟩] },
    { name := "header", func := ⟨0⟩, instrs := [⟨1⟩, ⟨2⟩, ⟨3⟩] },
    { name := "body", func := ⟨0⟩, instrs := [⟨4⟩, ⟨5⟩] },
    { name := "latch", func := ⟨0⟩, instrs := [⟨6⟩, ⟨7⟩] },
    { name := "exit", func := ⟨0⟩, instrs := [⟨8⟩] }]
  instrs := #[
    ⟨some ⟨0⟩, .br ⟨1⟩, .void, none⟩,
    ⟨some ⟨1⟩, .phi [(.i32 0, ⟨0⟩), (.instr ⟨6⟩, ⟨3⟩)], .i32, some "i"⟩,
    ⟨some ⟨1⟩, .compare .slt (.instr ⟨1⟩) (.param ⟨0⟩ 0), .i1, some "more"⟩,
    ⟨some ⟨1⟩, .condBr (.instr ⟨2⟩) ⟨2⟩ ⟨4⟩, .void, none⟩,
    ⟨some ⟨2⟩, .binary .mul (.instr ⟨1⟩) (.instr ⟨1⟩), .i32, some "square"⟩,
    ⟨some ⟨2⟩, .br ⟨3⟩, .void, none⟩,
    ⟨some ⟨3⟩, .binary .add (.instr ⟨1⟩) (.i32 1), .i32, some "next"⟩,
    ⟨some ⟨3⟩, .br ⟨1⟩, .void, none⟩,
    ⟨some ⟨4⟩, .ret (some (.instr ⟨1⟩)), .void, none⟩]
  structs := #[]

def func : Func := program.funcs[0]

def loop : Loop := ⟨⟨1⟩, ⟨0⟩, ⟨4⟩, [⟨1⟩, ⟨2⟩, ⟨3⟩]⟩

/-- The second of two threads squares, the first does the rest. -/
def setting : Setting where
  func := ⟨0⟩
  loop := loop
  deps := ⟨[⟨⟨1⟩, ⟨4⟩, .register⟩]⟩
  plan := ⟨2, [⟨0, [⟨1⟩, ⟨2⟩, ⟨3⟩, ⟨6⟩, ⟨7⟩]⟩, ⟨1, [⟨4⟩, ⟨5⟩]⟩]⟩
  config := Config.standard
  loopId := 0
  threads := 2
  live := ⟨[⟨1⟩, ⟨2⟩, ⟨4⟩, ⟨6⟩], [.param ⟨0⟩ 0], [⟨1⟩]⟩
  dominance := ⟨⟨[], #[]⟩, ⟨[], #[]⟩⟩
  climbLimit := 6

theorem listedOnce : program.ListedOnce func.blocks := .of_forall (by decide)

theorem grounded : program.Grounded func.blocks := by
  unfold Program.Grounded
  decide

theorem tied : loop.Tied (program.FlowEdge func.blocks) := .of_forall (by decide)

theorem passable : loop.Passable (program.FlowEdge func.blocks) :=
  ⟨⟨1⟩, [⟨1⟩], .stay _, by decide, by decide⟩

/-- The program with an exit that branches to the block that comes into the table next. -/
def straying : Program where
  __ := program
  instrs := program.instrs.setIfInBounds 8 ⟨some ⟨4⟩, .br ⟨5⟩, .void, none⟩

def strayingSetting : Setting where
  __ := setting
  live := ⟨[⟨1⟩, ⟨2⟩, ⟨4⟩, ⟨6⟩], [.param ⟨0⟩ 0], []⟩

/-- The program with a layout that takes the block that comes into the table next for the header
of a loop. -/
def headless : Program where
  __ := program
  funcs := #[{ func with blocks := [⟨0⟩, ⟨5⟩, ⟨4⟩] }]
  instrs := program.instrs.setIfInBounds 0 ⟨some ⟨0⟩, .br ⟨5⟩, .void, none⟩

def headlessSetting : Setting where
  __ := setting
  loop := ⟨⟨5⟩, ⟨0⟩, ⟨4⟩, [⟨5⟩]⟩
  live := ⟨[], [], []⟩

end Counting

theorem Edit.exists_of_isOk {α : Type} {edit : Edit α} {p : Program}
    (h : (edit.apply p).1.isOk) : ∃ a q, edit.apply p = (.ok a, q) := by
  rcases hrun : edit.apply p with ⟨failure | a, q⟩
  · rw [hrun] at h
    cases h
  · exact ⟨a, q, rfl⟩

theorem Edit.exists_of_any {α : Type} (edit : Edit α) (p : Program) (good : α → Program → Bool)
    (h : (edit.apply p).1.toOption.any (good · (edit.apply p).2)) :
    ∃ a q, edit.apply p = (.ok a, q) ∧ good a q := by
  rcases hrun : edit.apply p with ⟨failure | a, q⟩
  · rw [hrun] at h
    cases h
  · rw [hrun] at h
    exact ⟨a, q, rfl, h⟩

namespace Dispatch

theorem install_collapses_counting :
    ∃ d q func', (install Counting.setting).apply Counting.program = (.ok d, q) ∧
      q.func? ⟨0⟩ = some func' ∧ d.redirected = 1 ∧
      (∀ b ∈ Counting.loop, ¬ q.FlowReachable func'.blocks b) ∧
      ∀ visited, (∃ b, Walk (q.FlowEdge func'.blocks) ⟨0⟩ b visited) ↔
        ∃ c others, Walk (Counting.program.FlowEdge Counting.func.blocks) ⟨0⟩ c others ∧
          visited = Counting.loop.collapse d.block others := by
  have hok : ((install Counting.setting).apply Counting.program).1.isOk := by decide +kernel
  obtain ⟨d, q, hinstall⟩ := Edit.exists_of_isOk hok
  have hfunc : Counting.program.func? ⟨0⟩ = some Counting.func := rfl
  obtain ⟨func', hfunc', hcollapsed⟩ := install_collapses_loop hinstall hfunc Counting.listedOnce
    (by decide) (by decide)
  obtain ⟨-, hreach, hwalks⟩ := hcollapsed.paths Counting.grounded ⟨0⟩ rfl (by decide) (by decide)
    Counting.tied Counting.passable
  exact ⟨d, q, func', hinstall, hfunc', hcollapsed.counted rfl, hreach, hwalks⟩

/-- A branch that led nowhere leads to the new block, and a path goes on there that had come to an
end. In the same way a header that was not there is taken for the new block. -/
theorem install_catches_strays :
    (Counting.straying.func? ⟨0⟩ = some Counting.func ∧
      Counting.straying.ListedOnce Counting.func.blocks ∧
      Counting.loop.header ∈ Counting.loop ∧ (∀ b ∈ Counting.loop, b ∈ Counting.func.blocks) ∧
      Counting.func.entry? = some ⟨0⟩ ∧ ⟨0⟩ ∉ Counting.loop ∧ ⟨0⟩ ≠ Counting.loop.exit ∧
      Counting.loop.Tied (Counting.straying.FlowEdge Counting.func.blocks) ∧
      Counting.loop.Passable (Counting.straying.FlowEdge Counting.func.blocks) ∧
      ∃ d q func', (install Counting.strayingSetting).apply Counting.straying = (.ok d, q) ∧
        q.func? ⟨0⟩ = some func' ∧
        Walk (q.FlowEdge func'.blocks) ⟨0⟩ d.block [⟨0⟩, d.block, ⟨4⟩, d.block] ∧
        ¬ ∃ c others, Walk (Counting.straying.FlowEdge Counting.func.blocks) ⟨0⟩ c others ∧
          [⟨0⟩, d.block, ⟨4⟩, d.block] = Counting.loop.collapse d.block others) ∧
    Counting.headless.ListedOnce [⟨0⟩, ⟨5⟩, ⟨4⟩] ∧ ⟨0⟩ ∉ Counting.headlessSetting.loop ∧
      ∃ d q func', (install Counting.headlessSetting).apply Counting.headless = (.ok d, q) ∧
        q.func? ⟨0⟩ = some func' ∧
        q.FlowEdge func'.blocks ⟨0⟩ Counting.headlessSetting.loop.header := by
  constructor
  · refine ⟨rfl, .of_forall (by decide), by decide, by decide, rfl, by decide, by decide,
      .of_forall (by decide), ⟨⟨1⟩, [⟨1⟩], .stay _, by decide, by decide⟩, ?_⟩
    obtain ⟨d, q, hinstall, hrun⟩ := Edit.exists_of_any (install Counting.strayingSetting)
      Counting.straying
      (fun d q => d.block = ⟨5⟩ ∧ ∃ func' ∈ q.func? ⟨0⟩, q.FlowEdge func'.blocks ⟨0⟩ ⟨5⟩ ∧
        q.FlowEdge func'.blocks ⟨5⟩ ⟨4⟩ ∧ q.FlowEdge func'.blocks ⟨4⟩ ⟨5⟩) (by decide +kernel)
    obtain ⟨hblock, func', hfunc', hin, hout, hback⟩ := of_decide_eq_true hrun
    refine ⟨d, q, func', hinstall, hfunc', ?_⟩
    rw [hblock]
    refine ⟨.step hin (.step hout (.step hback (.stay _))), ?_⟩
    rintro ⟨c, others, hwalk, hcollapse⟩
    -- the old path ends in the loop, but nothing followed the exit that it meets
    have hmem : ⟨4⟩ ∈ others := by
      have hmem : ⟨4⟩ ∈ Counting.loop.collapse ⟨5⟩ others := by
        rw [← hcollapse]
        decide
      exact (Loop.mem_of_mem_collapse hmem).resolve_left (by decide)
    have hlast : some (⟨5⟩ : BlockRef) = some (Counting.loop.image ⟨5⟩ c) := by
      have hends := congrArg List.getLast? hcollapse
      rwa [Loop.getLast?_collapse, hwalk.getLast?_eq] at hends
    obtain ⟨before, after, -, hafter, -⟩ := hwalk.cut hmem
    have hstuck : ∀ b ∈ Counting.func.blocks,
        ¬ Counting.straying.FlowEdge Counting.func.blocks ⟨4⟩ b := by decide
    cases hafter with
    | stay => exact absurd hlast (by decide)
    | step hedge => exact hstuck _ hedge.target_mem hedge
  · refine ⟨.of_forall (by decide), by decide, ?_⟩
    obtain ⟨d, q, hinstall, hrun⟩ := Edit.exists_of_any (install Counting.headlessSetting)
      Counting.headless
      (fun _ q => ∃ func' ∈ q.func? ⟨0⟩,
        q.FlowEdge func'.blocks ⟨0⟩ Counting.headlessSetting.loop.header) (by decide +kernel)
    obtain ⟨func', hfunc', hedge⟩ := of_decide_eq_true hrun
    exact ⟨d, q, func', hinstall, hfunc', hedge⟩

end Dispatch

end Decouple
