import Decouple.Proofs.Checking
import Decouple.Proofs.Collapse

/-!
# The verdict of the check

The check of a function goes through its parts and stops at the first defect. It accepts the
well-formed functions and no others, and when it refuses a function, the function has the defect
that is reported: `Program.Shows` says for each kind of defect what it takes for a function to have
it.

For a report blocks and functions are looked up by reference to give their names, also such that
do not belong to the function. If the block is not there, the check breaks down over the report.
So it stops in one of two ways (`Program.Followable.failsOnly_check`): with the report of a defect,
or at the name of a block that is neither in the layout nor in the program (`Program.Breaks`).
`Program.Checkable` says that all that is looked up is there: the layouts, the lists of
instructions, the branches and the φs, and the functions whose parameters are read. Then there are
reports only (`Program.Checkable.failsOnly_check`). Whether other operands lead somewhere does not
matter to the check.
-/

namespace Decouple

def Op.namedBlocks (op : Op) : List BlockRef := op.successors ++ op.incoming.map Prod.snd

namespace Program

open Outcome

variable {p : Program} {f : FuncRef} {func : Func} {b : BlockRef} {block : Block} {i : InstrRef}
  {instr : Instr}

structure Checkable (p : Program) : Prop where
  layout : ∀ func ∈ p.funcs, ∀ b ∈ func.blocks, (p.block? b).isSome
  listed : ∀ block ∈ p.blocks, ∀ i ∈ block.instrs, (p.instr? i).isSome
  targets : ∀ instr ∈ p.instrs, ∀ b ∈ instr.op.successors, (p.block? b).isSome
  preds : ∀ instr ∈ p.instrs, ∀ pair ∈ instr.op.incoming, (p.block? pair.2).isSome
  params : ∀ instr ∈ p.instrs, ∀ owner index, .param owner index ∈ instr.op.operands →
    (p.func? owner).isSome

structure HasBlock (p : Program) (func : Func) (b : BlockRef) (block : Block) : Prop where
  mem : b ∈ func.blocks
  lookup : p.block? b = some block

structure HasInstr (p : Program) (func : Func) (b : BlockRef) (block : Block) (i : InstrRef)
    (instr : Instr) : Prop extends HasBlock p func b block where
  listed : i ∈ block.instrs
  found : p.instr? i = some instr

def Shows (p : Program) (f : FuncRef) (func : Func) : Defect → Prop
  | .declarationHasBlocks => func.external ∧ func.blocks ≠ []
  | .noBlocks => ¬ func.external ∧ func.blocks = []
  | .repeatedBlock => ¬ func.external ∧ ¬ func.blocks.Nodup
  | .foreignBlock name => ∃ b block, p.HasBlock func b block ∧ block.name = name ∧ block.func ≠ f
  | .emptyBlock name => ∃ b block, p.HasBlock func b block ∧ block.name = name ∧ block.instrs = []
  | .noTerminator name => ∃ b block last instr, p.HasInstr func b block last instr ∧
      block.name = name ∧ block.instrs.getLast? = some last ∧ ¬ instr.op.isTerminator
  | .earlyTerminator name early => ∃ b block instr, p.HasInstr func b block early instr ∧
      block.name = name ∧ early ∈ block.instrs.dropLast ∧ instr.op.isTerminator
  | .misplacedInstr i name => ∃ b block instr, p.HasInstr func b block i instr ∧
      block.name = name ∧ instr.block ≠ some b
  | .foreignTarget name targetName => ∃ b block i instr, p.HasInstr func b block i instr ∧
      block.name = name ∧ ∃ target ∈ instr.op.successors, target ∉ func.blocks ∧
        (p.block? target).map Block.name = some targetName
  | .foreignPredecessor phi predName => ∃ b block instr, p.HasInstr func b block phi instr ∧
      ∃ pair ∈ instr.op.incoming, pair.2 ∉ func.blocks ∧
        (p.block? pair.2).map Block.name = some predName
  | .ambiguousPredecessor phi predName => ∃ b block instr, p.HasInstr func b block phi instr ∧
      ∃ pair ∈ instr.op.incoming, ∃ other ∈ instr.op.incoming,
        pair.2 = other.2 ∧ pair.1 ≠ other.1 ∧ (p.block? pair.2).map Block.name = some predName
  | .foreignParam i index ownerName => ∃ b block instr, p.HasInstr func b block i instr ∧
      ∃ owner, .param owner index ∈ instr.op.operands ∧ owner ≠ f ∧
        (p.func? owner).map Func.name = some ownerName

def Reports (p : Program) (f : FuncRef) (func : Func) (failure : Failure) : Prop :=
  ∃ defect, p.Shows f func defect ∧ failure = .violated (.malformed func.name defect)

/-- What the check of the function follows leads somewhere. The blocks that its instructions name
are followed for a report only. -/
structure Followable (p : Program) (func : Func) : Prop where
  layout : ∀ b ∈ func.blocks, (p.block? b).isSome
  listed : ∀ b block, p.HasBlock func b block → ∀ i ∈ block.instrs, (p.instr? i).isSome
  params : ∀ b block i instr, p.HasInstr func b block i instr →
    ∀ owner index, .param owner index ∈ instr.op.operands → (p.func? owner).isSome

theorem Checkable.followable (hp : p.Checkable) (hfunc : p.func? f = some func) :
    p.Followable func where
  layout := hp.layout func (Array.mem_of_getElem? hfunc)
  listed _ _ hb := hp.listed _ (Array.mem_of_getElem? hb.lookup)
  params _ _ _ _ hi := hp.params _ (Array.mem_of_getElem? hi.found)

/-- The check of the function comes to the block: it has found nothing in those before. -/
structure ComesToBlock (p : Program) (f : FuncRef) (func : Func) (b : BlockRef) (block : Block) :
    Prop extends HasBlock p func b block where
  nodup : func.blocks.Nodup
  earlierBlocks : ∃ before after, func.blocks = before ++ b :: after ∧
    ∀ c ∈ before, ∃ block, p.WellFormedBlock f func.blocks c block

/-- The check of the function comes to what the instruction names. -/
structure ComesTo (p : Program) (f : FuncRef) (func : Func) (b : BlockRef) (block : Block)
    (i : InstrRef) (instr : Instr) : Prop
    extends ComesToBlock p f func b block, HasInstr p func b block i instr where
  owner : block.func = f
  terminated : p.Terminated block
  earlierInstrs : ∃ before after, block.instrs = before ++ i :: after ∧
    ∀ j ∈ before, ∃ instr, p.WellFormedInstr f func.blocks b j instr
  placed : instr.block = some b

/-- The first defect that the check comes to is that an instruction names the block `target`
outside the layout. -/
def Meets (p : Program) (f : FuncRef) (func : Func) (target : BlockRef) : Prop :=
  ∃ b block i instr, p.ComesTo f func b block i instr ∧
    (instr.op.namedBlocks.find? fun c => c ∉ func.blocks) = some target

/-- The failure is the breakdown over the name of a block that is not there. -/
def Breaks (p : Program) (f : FuncRef) (func : Func) (failure : Failure) : Prop :=
  ∃ target, p.Meets f func target ∧ p.block? target = none ∧ failure = .fault (.noBlock target)

/-- The failure reports a defect, or is a breakdown over the report. -/
def Stops (p : Program) (f : FuncRef) (func : Func) (failure : Failure) : Prop :=
  p.Reports f func failure ∨ p.Breaks f func failure

theorem stops_of_shows (defect : Defect) (h : p.Shows f func defect) :
    p.Stops f func (.violated (.malformed func.name defect)) := .inl ⟨defect, h, rfl⟩

theorem block_eq_error (h : p.block? b = none) : p.block b = .error (.fault (.noBlock b)) := by
  rw [Program.block, h]

/-- The name of the block that the check has met is looked up for the report. -/
theorem Meets.failsOnly_report {target : BlockRef} {defect : String → Defect}
    (h : p.Meets f func target) (hshows : ∀ found, p.block? target = some found →
      p.Shows f func (defect found.name)) :
    FailsOnly (p.Stops f func) (do
      throw (.violated (.malformed func.name (defect (← p.block target).name))) :
        Except Failure Unit) := by
  cases hfound : p.block? target with
  | none =>
      rw [block_eq_error hfound]
      exact .error (.inr ⟨target, h, hfound, rfl⟩)
  | some found =>
      refine .bind_ok (block_eq_ok_iff.2 hfound) (.error (stops_of_shows _ ?_))
      exact hshows found hfound

theorem find?_namedBlocks (op : Op) (q : BlockRef → Bool) :
    op.namedBlocks.find? q =
      (op.successors.find? q).or ((op.incoming.find? fun pair => q pair.2).map Prod.snd) := by
  rw [Op.namedBlocks, List.find?_append, List.find?_map]
  rfl

theorem ComesTo.failsOnly_checkTargets (h : p.ComesTo f func b block i instr) :
    FailsOnly (p.Stops f func) (p.checkTargets func block instr.op.successors) := by
  unfold checkTargets
  split
  · exact .ok ()
  · next target hfind =>
      have hforeign : target ∉ func.blocks := by simpa using List.find?_some hfind
      have hmeets : p.Meets f func target :=
        ⟨b, block, i, instr, h, by rw [find?_namedBlocks, hfind]; rfl⟩
      refine hmeets.failsOnly_report fun found hfound => ?_
      exact ⟨b, block, i, instr, h.toHasInstr, rfl, target, List.mem_of_find?_eq_some hfind,
        hforeign, by rw [hfound]; rfl⟩

theorem ComesTo.failsOnly_checkIncoming (h : p.ComesTo f func b block i instr)
    (hp : p.Followable func) (htargets : ∀ target ∈ instr.op.successors, target ∈ func.blocks) :
    FailsOnly (p.Stops f func) (p.checkIncoming func i instr.op.incoming) := by
  unfold checkIncoming
  split
  · next value pred hfind =>
      have hforeign : pred ∉ func.blocks := by simpa using List.find?_some hfind
      have hnone : (instr.op.successors.find? fun c => c ∉ func.blocks) = none := by
        rw [List.find?_eq_none]
        simpa using htargets
      have hmeets : p.Meets f func pred :=
        ⟨b, block, i, instr, h, by rw [find?_namedBlocks, hnone, hfind]; rfl⟩
      refine hmeets.failsOnly_report fun found hfound => ?_
      exact ⟨b, block, instr, h.toHasInstr, (value, pred), List.mem_of_find?_eq_some hfind,
        hforeign, by rw [hfound]; rfl⟩
  · next hnone =>
      split
      · exact .ok ()
      · next pred hclash =>
          obtain ⟨pair, hpair, other, hother, hsame, hvalue, rfl⟩ := firstAmbiguous?_eq_some hclash
          have hmem : pair.2 ∈ func.blocks := by simpa using List.find?_eq_none.1 hnone pair hpair
          obtain ⟨found, hfound⟩ := Option.isSome_iff_exists.1 (hp.layout pair.2 hmem)
          refine .bind_ok (block_eq_ok_iff.2 hfound) (.error (stops_of_shows _ ?_))
          exact ⟨b, block, instr, h.toHasInstr, pair, hpair, other, hother, hsame, hvalue,
            by rw [hfound]; rfl⟩

theorem Followable.failsOnly_checkParams (hp : p.Followable func)
    (h : p.HasInstr func b block i instr) {values : List Value}
    (hvalues : ∀ v ∈ values, v ∈ instr.op.operands) :
    FailsOnly (p.Stops f func) (p.checkParams f func i values) := by
  induction values with
  | nil => exact .ok ()
  | cons v values ih =>
      obtain ⟨hv, hrest⟩ := List.forall_mem_cons.1 hvalues
      cases v with
      | param owner index =>
          unfold checkParams
          dsimp only
          split
          · next hforeign =>
              obtain ⟨found, hfound⟩ := Option.isSome_iff_exists.1
                (hp.params b block i instr h owner index hv)
              refine .bind_ok (func_eq_ok_iff.2 hfound) (.error (stops_of_shows _ ?_))
              exact ⟨b, block, instr, h, owner, hv, hforeign, by rw [hfound]; rfl⟩
          · exact ih hrest
      | _ => exact ih hrest

theorem ComesToBlock.failsOnly_checkInstr (h : p.ComesToBlock f func b block)
    (hp : p.Followable func) (howner : block.func = f) (hterminated : p.Terminated block)
    {before after : List InstrRef} (heq : block.instrs = before ++ i :: after)
    (hbefore : ∀ j ∈ before, p.checkInstr f func b block j = .ok ()) :
    FailsOnly (p.Stops f func) (p.checkInstr f func b block i) := by
  have hi : i ∈ block.instrs := by simp [heq]
  obtain ⟨instr, hinstr⟩ := Option.isSome_iff_exists.1 (hp.listed b block h.toHasBlock i hi)
  by_cases hplaced : instr.block = some b
  · have hcomes : p.ComesTo f func b block i instr :=
      { h with
        listed := hi
        found := hinstr
        owner := howner
        terminated := hterminated
        earlierInstrs :=
          ⟨before, after, heq, fun j hj => wellFormedInstr_of_checkInstr (hbefore j hj)⟩
        placed := hplaced }
    rw [checkInstr_eq hinstr hplaced]
    refine .bind hcomes.failsOnly_checkTargets fun _ htargets => ?_
    refine .bind (hcomes.failsOnly_checkIncoming hp (checkTargets_eq_ok htargets)) fun _ _ => ?_
    exact hp.failsOnly_checkParams hcomes.toHasInstr fun _ => id
  · refine .bind_ok (instr_eq_ok_iff.2 hinstr) ?_
    dsimp only
    rw [if_pos hplaced]
    exact .error (stops_of_shows (.misplacedInstr i block.name)
      ⟨b, block, instr, ⟨h.toHasBlock, hi, hinstr⟩, rfl, hplaced⟩)

/-- The search for a terminator ends, and finds one that is in the list. -/
theorem exists_firstTerminator {is : List InstrRef} (h : ∀ i ∈ is, (p.instr? i).isSome) :
    ∃ found, p.firstTerminator is = .ok found ∧
      ∀ i ∈ found, i ∈ is ∧ ∃ instr, p.instr? i = some instr ∧ instr.op.isTerminator := by
  induction is with
  | nil => exact ⟨none, rfl, by simp⟩
  | cons i is ih =>
      obtain ⟨hi, hrest⟩ := List.forall_mem_cons.1 h
      obtain ⟨instr, hinstr⟩ := Option.isSome_iff_exists.1 hi
      by_cases hterm : instr.op.isTerminator
      · refine ⟨some i, bind_eq_ok_iff.2 ⟨instr, instr_eq_ok_iff.2 hinstr, if_pos hterm⟩, ?_⟩
        rintro j ⟨⟩
        exact ⟨List.mem_cons_self .., instr, hinstr, hterm⟩
      · obtain ⟨found, hfound, hmem⟩ := ih hrest
        refine ⟨found, bind_eq_ok_iff.2 ⟨instr, instr_eq_ok_iff.2 hinstr, ?_⟩, fun j hj => ?_⟩
        · rw [if_neg hterm, hfound]
        · exact ⟨List.mem_cons_of_mem _ (hmem j hj).1, (hmem j hj).2⟩

theorem ComesToBlock.failsOnly_checkBlock (h : p.ComesToBlock f func b block)
    (hp : p.Followable func) : FailsOnly (p.Stops f func) (p.checkBlock f func b) := by
  have hlisted := hp.listed b block h.toHasBlock
  refine .bind_ok (block_eq_ok_iff.2 h.lookup) ?_
  dsimp only
  split
  · next howner =>
      exact .error (stops_of_shows (.foreignBlock block.name) ⟨b, block, h.toHasBlock, rfl, howner⟩)
  · next howner =>
      split
      · next hnone =>
          exact .error (stops_of_shows (.emptyBlock block.name)
            ⟨b, block, h.toHasBlock, rfl, List.getLast?_eq_none_iff.1 hnone⟩)
      · next last hlast =>
          have hmem := List.mem_of_getLast? hlast
          obtain ⟨instr, hinstr⟩ := Option.isSome_iff_exists.1 (hlisted last hmem)
          refine .bind_ok (instr_eq_ok_iff.2 hinstr) ?_
          split
          · next hterm =>
              exact .error (stops_of_shows (.noTerminator block.name) ⟨b, block, last, instr,
                ⟨h.toHasBlock, hmem, hinstr⟩, rfl, hlast, by simpa using hterm⟩)
          · next hterm =>
              obtain ⟨found, hfound, hearly⟩ := exists_firstTerminator (p := p)
                fun i hi => hlisted i (List.mem_of_mem_dropLast hi)
              refine .bind_ok hfound ?_
              cases found with
              | none =>
                  refine .forM_first fun before i after heq hbefore => ?_
                  refine h.failsOnly_checkInstr hp (not_not.1 howner) ?_ heq hbefore
                  exact ⟨block.instrs.dropLast, last,
                    (List.dropLast_append_getLast? last hlast).symm,
                    ⟨instr, hinstr, by simpa using hterm⟩, firstTerminator_eq_none hfound⟩
              | some early =>
                  obtain ⟨hdrop, instr', hinstr', hterm'⟩ := hearly early rfl
                  exact .error (stops_of_shows (.earlyTerminator block.name early) ⟨b, block,
                    instr', ⟨h.toHasBlock, List.mem_of_mem_dropLast hdrop, hinstr'⟩, rfl, hdrop,
                    hterm'⟩)

/-- The check fails with the report of a defect that the function has, or over the report. -/
theorem Followable.failsOnly_check (hp : p.Followable func) (hfunc : p.func? f = some func) :
    FailsOnly (p.Stops f func) (p.check f) := by
  refine .bind_ok (func_eq_ok_iff.2 hfunc) ?_
  dsimp only
  split
  · next hexternal =>
      split
      · exact .ok ()
      · next hblocks =>
          exact .error (stops_of_shows .declarationHasBlocks
            ⟨hexternal, by simpa using hblocks⟩)
  · next hbody =>
      split
      · next hempty =>
          exact .error (stops_of_shows .noBlocks ⟨hbody, List.isEmpty_iff.1 hempty⟩)
      · split
        · next hnodup =>
            refine .forM_first fun before b after heq hbefore => ?_
            obtain ⟨block, hblock⟩ := Option.isSome_iff_exists.1 (hp.layout b (by simp [heq]))
            have h : p.ComesToBlock f func b block :=
              { mem := by simp [heq], lookup := hblock, nodup := hnodup, earlierBlocks :=
                ⟨before, after, heq, fun c hc => wellFormedBlock_of_checkBlock (hbefore c hc)⟩ }
            exact h.failsOnly_checkBlock hp
        · next hrepeated =>
            exact .error (stops_of_shows .repeatedBlock ⟨hbody, hrepeated⟩)

/-- The check fails with the report of a defect that the function has. -/
theorem Checkable.failsOnly_check (hp : p.Checkable) (hfunc : p.func? f = some func) :
    FailsOnly (p.Reports f func) (p.check f) := by
  intro failure hfailure
  rcases (hp.followable hfunc).failsOnly_check hfunc failure hfailure with hreports | hbreaks
  · exact hreports
  · obtain ⟨target, ⟨b, block, i, instr, h, hfind⟩, hnone, -⟩ := hbreaks
    have hmem := List.mem_of_find?_eq_some hfind
    have hinstr : instr ∈ p.instrs := Array.mem_of_getElem? h.found
    have hsome : (p.block? target).isSome := by
      rcases List.mem_append.1 hmem with hmem | hmem
      · exact hp.targets instr hinstr target hmem
      · obtain ⟨pair, hpair, rfl⟩ := List.mem_map.1 hmem
        exact hp.preds instr hinstr pair hpair
    rw [hnone] at hsome
    cases hsome

theorem wellFormed_iff (hfunc : p.func? f = some func) :
    p.WellFormed f func ↔ (func.external ∧ func.blocks = []) ∨
      (¬ func.external ∧ func.blocks ≠ [] ∧ func.blocks.Nodup ∧
        ∀ b ∈ func.blocks, ∃ block, p.WellFormedBlock f func.blocks b block) := by
  constructor
  · intro h
    by_cases hexternal : func.external
    · exact .inl ⟨hexternal, h.declaration hexternal⟩
    · exact .inr ⟨hexternal, h.nonempty hexternal, h.nodup, h.blocks⟩
  · rintro (⟨hexternal, hempty⟩ | ⟨hbody, hnonempty, hnodup, hblocks⟩)
    · exact ⟨hfunc, fun _ => hempty, fun hbody => absurd hexternal hbody, by simp [hempty],
        by simp [hempty]⟩
    · exact ⟨hfunc, fun hexternal => absurd hexternal hbody, fun _ => hnonempty, hnodup, hblocks⟩

theorem check_eq_ok_iff (hfunc : p.func? f = some func) :
    p.check f = .ok () ↔ p.WellFormed f func := by
  refine ⟨fun h => ?_, WellFormed.check_eq_ok⟩
  obtain ⟨func', hwell⟩ := wellFormed_of_check h
  obtain rfl := Option.some.inj (hwell.lookup.symm.trans hfunc)
  exact hwell

/-- The check accepts the well-formed functions, and refuses any other with a defect that it
has. -/
theorem check_decides_wellFormed (hp : p.Checkable) (hfunc : p.func? f = some func) :
    (p.check f = .ok () ↔ (func.external ∧ func.blocks = []) ∨
      (¬ func.external ∧ func.blocks ≠ [] ∧ func.blocks.Nodup ∧
        ∀ b ∈ func.blocks, ∃ block, p.WellFormedBlock f func.blocks b block)) ∧
    (p.check f ≠ .ok () → ∃ defect, p.Shows f func defect ∧
      p.check f = .error (.violated (.malformed func.name defect))) := by
  refine ⟨(check_eq_ok_iff hfunc).trans (wellFormed_iff hfunc), fun hrefused => ?_⟩
  cases hcheck : p.check f with
  | ok => exact absurd hcheck hrefused
  | error failure =>
      obtain ⟨defect, hshows, rfl⟩ := hp.failsOnly_check hfunc failure hcheck
      exact ⟨defect, hshows, rfl⟩

end Program

namespace Counting

/-- The φ of the header, with a second pair for the entry. -/
def restarted (n : Int) : Instr :=
  ⟨some ⟨1⟩, .phi [(.i32 0, ⟨0⟩), (.instr ⟨6⟩, ⟨3⟩), (.i32 n, ⟨0⟩)], .i32, some "i"⟩

/-- The function that counts from 0, and also from `n`. -/
def startingAlsoAt (n : Int) : Program :=
  { program with instrs := program.instrs.setIfInBounds 1 (restarted n) }

theorem checkable_startingAlsoAt (n : Int) : (startingAlsoAt n).Checkable where
  layout := by simp [startingAlsoAt, program, Program.block?]
  listed := by simp [startingAlsoAt, program, Program.instr?]
  targets := by simp [startingAlsoAt, restarted, program, Op.successors, Program.block?]
  preds := by
    simp [startingAlsoAt, restarted, program, Op.incoming, Program.block?, or_imp, forall_and]
  params := by
    simp [startingAlsoAt, restarted, program, Op.operands, Value.i32, Program.func?]

end Counting

/-- To give a value twice does no harm, and of two values it is the φ that is reported. -/
theorem Program.check_decides_wellFormed_counting :
    (∀ b ∈ Counting.func.blocks, ∃ block,
      (Counting.startingAlsoAt 0).WellFormedBlock ⟨0⟩ Counting.func.blocks b block) ∧
    (Counting.startingAlsoAt 1).check ⟨0⟩ =
      .error (.violated (.malformed "count" (.ambiguousPredecessor ⟨1⟩ "entry"))) ∧
    (Counting.startingAlsoAt 1).Shows ⟨0⟩ Counting.func (.ambiguousPredecessor ⟨1⟩ "entry") := by
  have haccepted : (Counting.startingAlsoAt 0).check ⟨0⟩ = .ok () := by decide +kernel
  have hrefused : (Counting.startingAlsoAt 1).check ⟨0⟩ =
      .error (.violated (.malformed "count" (.ambiguousPredecessor ⟨1⟩ "entry"))) := by
    decide +kernel
  obtain ⟨hiff, -⟩ := check_decides_wellFormed (Counting.checkable_startingAlsoAt 0)
    (show (Counting.startingAlsoAt 0).func? ⟨0⟩ = some Counting.func from rfl)
  obtain ⟨-, hreport⟩ := check_decides_wellFormed (Counting.checkable_startingAlsoAt 1)
    (show (Counting.startingAlsoAt 1).func? ⟨0⟩ = some Counting.func from rfl)
  refine ⟨?_, hrefused, ?_⟩
  · obtain ⟨hexternal, -⟩ | ⟨-, -, -, hblocks⟩ := hiff.1 haccepted
    · cases hexternal
    · exact hblocks
  · obtain ⟨defect, hshows, heq⟩ := hreport (by rw [hrefused]; simp)
    rw [hrefused] at heq
    simp only [Except.error.injEq, Failure.violated, Failure.rejected.injEq,
      Rejection.invariant.injEq, Violation.malformed.injEq] at heq
    exact heq.2 ▸ hshows

end Decouple
