import Decouple.Proofs.Outcomes

/-!
# What the check reports

A function that passes the check is well-formed. Here is the way back: the check of a well-formed
function finds nothing (`Program.WellFormed.check_eq_ok`). There is room for one defect: a function
is *sound* if it is well-formed but for φs that give two values for one predecessor
(`Program.Sound`), and the check of a sound function reports such a φ or nothing at all
(`Program.Sound.failsOnly_check`).
-/

namespace Decouple

namespace Program

open Outcome

variable {p : Program} {f : FuncRef} {func : Func} {b : BlockRef} {block : Block} {i : InstrRef}
  {instr : Instr} {layout : List BlockRef}

/-- The instruction `i` may be listed in the block `b` of the function `f`, but if it is a φ it
may give two values for one predecessor. -/
structure SoundInstr (p : Program) (f : FuncRef) (layout : List BlockRef) (b : BlockRef)
    (i : InstrRef) (instr : Instr) : Prop where
  lookup : p.instr? i = some instr
  placed : instr.block = some b
  targets : ∀ target ∈ instr.op.successors, target ∈ layout
  preds : ∀ pair ∈ instr.op.incoming, pair.2 ∈ layout
  params : ∀ owner index, Value.param owner index ∈ instr.op.operands → owner = f

structure SoundBlock (p : Program) (f : FuncRef) (layout : List BlockRef) (b : BlockRef)
    (block : Block) : Prop where
  lookup : p.block? b = some block
  owner : block.func = f
  terminated : p.Terminated block
  instrs : ∀ i ∈ block.instrs, ∃ instr, p.SoundInstr f layout b i instr

structure Sound (p : Program) (f : FuncRef) (func : Func) : Prop where
  lookup : p.func? f = some func
  internal : ¬ func.external
  nonempty : func.blocks ≠ []
  nodup : func.blocks.Nodup
  blocks : ∀ b ∈ func.blocks, ∃ block, p.SoundBlock f func.blocks b block

theorem WellFormedInstr.sound (h : p.WellFormedInstr f layout b i instr) :
    p.SoundInstr f layout b i instr :=
  ⟨h.lookup, h.placed, h.targets, h.preds, h.params⟩

theorem WellFormedBlock.sound (h : p.WellFormedBlock f layout b block) :
    p.SoundBlock f layout b block where
  lookup := h.lookup
  owner := h.owner
  terminated := h.terminated
  instrs := by
    intro i hi
    obtain ⟨instr, hinstr⟩ := h.instrs i hi
    exact ⟨instr, hinstr.sound⟩

/-- The instruction is a φ that gives two values for one predecessor. -/
def Ambiguous (op : Op) : Prop :=
  ∃ pair ∈ op.incoming, ∃ other ∈ op.incoming, pair.2 = other.2 ∧ pair.1 ≠ other.1

def ReportsPhi (p : Program) (func : Func) (failure : Failure) : Prop :=
  ∃ b ∈ func.blocks, ∃ phi instr pred, p.Lists b phi ∧ p.instr? phi = some instr ∧
    Ambiguous instr.op ∧
    failure = .violated (.malformed func.name (.ambiguousPredecessor phi pred))

theorem firstTerminator_of_forall {is : List InstrRef}
    (h : ∀ i ∈ is, ∃ instr, p.instr? i = some instr ∧ ¬ instr.op.isTerminator) :
    p.firstTerminator is = .ok none := by
  induction is with
  | nil => rfl
  | cons i is ih =>
      obtain ⟨⟨instr, hinstr, hterm⟩, hrest⟩ := List.forall_mem_cons.1 h
      refine bind_eq_ok_iff.2 ⟨instr, instr_eq_ok_iff.2 hinstr, ?_⟩
      rw [if_neg hterm]
      exact ih hrest

/-- What the check for ambiguity finds repeats an earlier pair with another value. -/
theorem firstAmbiguous?_eq_some {before pairs : List (Value × BlockRef)} {pred : BlockRef}
    (h : firstAmbiguous? before pairs = some pred) :
    ∃ pair ∈ pairs, ∃ other ∈ before ++ pairs, pair.2 = other.2 ∧ pair.1 ≠ other.1 ∧
      pair.2 = pred := by
  induction pairs generalizing before with
  | nil => cases h
  | cons pair pairs ih =>
      unfold firstAmbiguous? at h
      split at h
      · next hclash =>
          obtain rfl := Option.some.inj h
          obtain ⟨other, hother, heq⟩ := List.any_eq_true.1 hclash
          obtain ⟨hpred, hvalue⟩ := of_decide_eq_true heq
          exact ⟨pair, List.mem_cons_self .., other, List.mem_append_left _ hother, hpred.symm,
            hvalue.symm, rfl⟩
      · obtain ⟨pair', hpair', other, hother, hfound⟩ := ih h
        refine ⟨pair', List.mem_cons_of_mem _ hpair', other, ?_, hfound⟩
        simpa using hother

theorem checkTargets_of_forall {targets : List BlockRef}
    (h : ∀ target ∈ targets, target ∈ func.blocks) :
    p.checkTargets func block targets = .ok () := by
  have hnone : (targets.find? fun target => target ∉ func.blocks) = none := by
    rw [List.find?_eq_none]
    simpa using h
  rw [checkTargets, hnone]
  rfl

theorem checkParams_of_forall {values : List Value}
    (h : ∀ owner index, Value.param owner index ∈ values → owner = f) :
    p.checkParams f func i values = .ok () := by
  induction values with
  | nil => rfl
  | cons v values ih =>
      have hrest := ih fun owner index hmem => h owner index (List.mem_cons_of_mem _ hmem)
      cases v with
      | param owner index =>
          obtain rfl := h owner index (List.mem_cons_self ..)
          simpa [checkParams] using hrest
      | _ => exact hrest

/-- A φ that names blocks of the layout is refused for its ambiguity only. -/
theorem failsOnly_checkIncoming {pairs : List (Value × BlockRef)}
    (hblocks : ∀ b ∈ func.blocks, ∃ block, p.block? b = some block)
    (h : ∀ pair ∈ pairs, pair.2 ∈ func.blocks) :
    FailsOnly (fun failure => ∃ pred,
        (∃ pair ∈ pairs, ∃ other ∈ pairs, pair.2 = other.2 ∧ pair.1 ≠ other.1) ∧
        failure = .violated (.malformed func.name (.ambiguousPredecessor i pred)))
      (p.checkIncoming func i pairs) := by
  have hnone : (pairs.find? fun pair => pair.2 ∉ func.blocks) = none := by
    rw [List.find?_eq_none]
    simpa using h
  unfold checkIncoming
  rw [hnone]
  dsimp only
  split
  · exact .ok ()
  · next pred hsome =>
      obtain ⟨pair, hpair, other, hother, hsame, hvalue, rfl⟩ := firstAmbiguous?_eq_some hsome
      obtain ⟨block, hblock⟩ := hblocks pair.2 (h pair hpair)
      rw [block_eq_ok_iff.2 hblock]
      exact .error ⟨block.name, ⟨pair, hpair, other, by simpa using hother, hsame, hvalue⟩, rfl⟩

/-- A φ that names blocks of the layout and gives one value for each is accepted. -/
theorem checkIncoming_of_forall {pairs : List (Value × BlockRef)}
    (hlayout : ∀ pair ∈ pairs, pair.2 ∈ func.blocks)
    (hclear : ∀ pair ∈ pairs, ∀ other ∈ pairs, pair.2 = other.2 → pair.1 = other.1) :
    p.checkIncoming func i pairs = .ok () := by
  have hnone : (pairs.find? fun pair => pair.2 ∉ func.blocks) = none := by
    rw [List.find?_eq_none]
    simpa using hlayout
  unfold checkIncoming
  rw [hnone]
  cases hclash : firstAmbiguous? [] pairs with
  | none => rfl
  | some pred =>
      obtain ⟨pair, hpair, other, hother, hsame, hvalue, -⟩ := firstAmbiguous?_eq_some hclash
      exact absurd (hclear pair hpair other hother hsame) hvalue

/-- An instruction that is placed where it is listed is checked for what it names and reads. -/
theorem checkInstr_eq (hfound : p.instr? i = some instr) (hplaced : instr.block = some b) :
    p.checkInstr f func b block i = (do
      p.checkTargets func block instr.op.successors
      p.checkIncoming func i instr.op.incoming
      p.checkParams f func i instr.op.operands) := by
  rw [checkInstr, instr_eq_ok_iff.2 hfound]
  exact if_neg fun hne => hne hplaced

/-- A block that belongs to the function and ends in its only terminator is checked instruction
by instruction. -/
theorem checkBlock_eq_forM (hblock : p.block? b = some block) (howner : block.func = f)
    (hterminated : p.Terminated block) :
    p.checkBlock f func b = block.instrs.forM (p.checkInstr f func b block) := by
  obtain ⟨init, last, hlist, ⟨instr, hinstr, hterm⟩, hinit⟩ := hterminated
  rw [checkBlock, block_eq_ok_iff.2 hblock]
  refine (if_neg fun hne => hne howner).trans ?_
  rw [hlist, List.getLast?_concat]
  dsimp only
  rw [instr_eq_ok_iff.2 hinstr, List.dropLast_concat, firstTerminator_of_forall hinit]
  exact if_neg (by simp [hterm])

/-- A definition that lists its blocks once is checked block by block. -/
theorem check_eq_forM (hfunc : p.func? f = some func) (hbody : ¬ func.external)
    (hnonempty : func.blocks ≠ []) (hnodup : func.blocks.Nodup) :
    p.check f = func.blocks.forM (p.checkBlock f func) := by
  rw [check, func_eq_ok_iff.2 hfunc]
  refine (if_neg hbody).trans ?_
  rw [if_neg fun hempty => hnonempty (List.isEmpty_iff.1 hempty), if_pos hnodup]

theorem SoundInstr.failsOnly_checkInstr (h : p.SoundInstr f func.blocks b i instr)
    (hblocks : ∀ b ∈ func.blocks, ∃ block, p.block? b = some block) (hb : b ∈ func.blocks)
    (hi : p.Lists b i) : FailsOnly (p.ReportsPhi func) (p.checkInstr f func b block i) := by
  rw [checkInstr_eq h.lookup h.placed]
  refine .bind_ok (checkTargets_of_forall h.targets)
    (.bind (fun failure hfailure => ?_) fun _ _ => ?_)
  · obtain ⟨pred, hclash, rfl⟩ := failsOnly_checkIncoming hblocks h.preds failure hfailure
    exact ⟨b, hb, i, instr, pred, hi, h.lookup, hclash, rfl⟩
  · rw [checkParams_of_forall h.params]
    exact .ok ()

theorem SoundBlock.failsOnly_checkBlock (h : p.SoundBlock f func.blocks b block)
    (hblocks : ∀ b ∈ func.blocks, ∃ block, p.block? b = some block) (hb : b ∈ func.blocks) :
    FailsOnly (p.ReportsPhi func) (p.checkBlock f func b) := by
  rw [checkBlock_eq_forM h.lookup h.owner h.terminated]
  refine .forM fun i hi => ?_
  obtain ⟨instr, hinstr⟩ := h.instrs i hi
  exact hinstr.failsOnly_checkInstr hblocks hb ⟨block, h.lookup, hi⟩

/-- The check of a sound function reports an ambiguous φ or nothing. -/
theorem Sound.failsOnly_check (h : p.Sound f func) :
    FailsOnly (p.ReportsPhi func) (p.check f) := by
  rw [check_eq_forM h.lookup h.internal h.nonempty h.nodup]
  refine .forM fun b hb => ?_
  obtain ⟨block, hblock⟩ := h.blocks b hb
  refine hblock.failsOnly_checkBlock (fun c hc => ?_) hb
  obtain ⟨block', hblock'⟩ := h.blocks c hc
  exact ⟨block', hblock'.lookup⟩

theorem WellFormedInstr.checkInstr_eq_ok (h : p.WellFormedInstr f func.blocks b i instr) :
    p.checkInstr f func b block i = .ok () := by
  rw [checkInstr_eq h.lookup h.placed, checkTargets_of_forall h.targets,
    checkIncoming_of_forall h.preds h.unambiguous]
  exact checkParams_of_forall h.params

theorem WellFormedBlock.checkBlock_eq_ok (h : p.WellFormedBlock f func.blocks b block) :
    p.checkBlock f func b = .ok () := by
  rw [checkBlock_eq_forM h.lookup h.owner h.terminated]
  refine forM_eq_ok_iff.2 fun i hi => ?_
  obtain ⟨instr, hinstr⟩ := h.instrs i hi
  exact hinstr.checkInstr_eq_ok

/-- The check of a well-formed function finds nothing. -/
theorem WellFormed.check_eq_ok (h : p.WellFormed f func) : p.check f = .ok () := by
  by_cases hbody : func.external
  · refine bind_eq_ok_iff.2 ⟨func, func_eq_ok_iff.2 h.lookup, ?_⟩
    rw [if_pos hbody, h.declaration hbody]
    rfl
  · rw [check_eq_forM h.lookup hbody (h.nonempty hbody) h.nodup]
    refine forM_eq_ok_iff.2 fun b hb => ?_
    obtain ⟨block, hblock⟩ := h.blocks b hb
    exact hblock.checkBlock_eq_ok

end Program

end Decouple
