import Decouple.Proofs.Verdicts

/-!
# Names of blocks outside the layout

An instruction may name a block that is not in the layout of its function: a block of another
function, or one that the program does not have at all. The check never accepts this. It reports
the first defect it comes to, with one exception. A report of a foreign block gives the block's
name, and where the block is not there, the check breaks down
(`Program.check_stops_at_foreign_names`).
-/

namespace Decouple

namespace Program

open Outcome

variable {p : Program} {f : FuncRef} {func : Func} {b : BlockRef} {block : Block} {i : InstrRef}
  {instr : Instr} {target : BlockRef}

/-- In a well-formed function only blocks of the layout are named. -/
theorem WellFormed.mem_of_named (h : p.WellFormed f func) (hi : p.HasInstr func b block i instr)
    (htarget : target ∈ instr.op.namedBlocks) : target ∈ func.blocks := by
  obtain ⟨block', hblock⟩ := h.blocks b hi.mem
  obtain rfl := Option.some.inj (hblock.lookup.symm.trans hi.lookup)
  obtain ⟨instr', hinstr⟩ := hblock.instrs i hi.listed
  obtain rfl := Option.some.inj (hinstr.lookup.symm.trans hi.found)
  rcases List.mem_append.1 htarget with htarget | htarget
  · exact hinstr.targets target htarget
  · obtain ⟨pair, hpair, rfl⟩ := List.mem_map.1 htarget
    exact hinstr.preds pair hpair

/-- The check of an instruction breaks down over the first foreign block that it names, if there
is no such block. -/
theorem checkInstr_eq_error (hfound : p.instr? i = some instr) (hplaced : instr.block = some b)
    (hfirst : (instr.op.namedBlocks.find? fun c => c ∉ func.blocks) = some target)
    (hnone : p.block? target = none) :
    p.checkInstr f func b block i = .error (.fault (.noBlock target)) := by
  rw [checkInstr_eq hfound hplaced]
  rw [find?_namedBlocks] at hfirst
  cases htargets : instr.op.successors.find? fun c => c ∉ func.blocks with
  | some first =>
      rw [htargets] at hfirst
      obtain rfl : first = target := Option.some.inj hfirst
      rw [checkTargets, htargets]
      dsimp only
      rw [block_eq_error hnone]
      rfl
  | none =>
      rw [htargets, Option.none_or] at hfirst
      obtain ⟨pair, hpair, rfl⟩ := Option.map_eq_some_iff.1 hfirst
      rw [checkTargets, htargets, checkIncoming, hpair]
      dsimp only
      rw [block_eq_error hnone]
      rfl

/-- The check breaks down over the first foreign block that it comes to, if there is no such
block. -/
theorem Meets.check_eq_error (h : p.Meets f func target) (hfunc : p.func? f = some func)
    (hbody : ¬ func.external) (hnone : p.block? target = none) :
    p.check f = .error (.fault (.noBlock target)) := by
  obtain ⟨b, block, i, instr, h, hfirst⟩ := h
  obtain ⟨before, after, heq, hbefore⟩ := h.earlierBlocks
  obtain ⟨before', after', heq', hbefore'⟩ := h.earlierInstrs
  rw [check_eq_forM hfunc hbody (List.ne_nil_of_mem h.mem) h.nodup]
  refine forM_eq_error_iff.2 ⟨before, b, after, heq, fun c hc => ?_, ?_⟩
  · obtain ⟨block', hblock⟩ := hbefore c hc
    exact hblock.checkBlock_eq_ok
  · rw [checkBlock_eq_forM h.lookup h.owner h.terminated]
    refine forM_eq_error_iff.2 ⟨before', i, after', heq', fun j hj => ?_, ?_⟩
    · obtain ⟨instr', hinstr⟩ := hbefore' j hj
      exact hinstr.checkInstr_eq_ok
    · exact checkInstr_eq_error h.found h.placed hfirst hnone

/-- **A function that names a block outside its layout is reported, unless the check comes first to
the name of a block that is not there.** Then, and only then, the check breaks down over it. In
every other case it reports a defect that the function has. -/
theorem check_stops_at_foreign_names (hfunc : p.func? f = some func) (hbody : ¬ func.external)
    (hp : p.Followable func)
    (hforeign : ∃ b block i instr, p.HasInstr func b block i instr ∧
      ∃ target ∈ instr.op.namedBlocks, target ∉ func.blocks) :
    (∀ target, p.check f = .error (.fault (.noBlock target)) ↔
      p.Meets f func target ∧ p.block? target = none) ∧
    ((∀ target, p.Meets f func target → (p.block? target).isSome) →
      ∃ defect, p.Shows f func defect ∧
        p.check f = .error (.violated (.malformed func.name defect))) := by
  have hstops := hp.failsOnly_check hfunc
  constructor
  · intro target
    refine ⟨fun hfault => ?_, fun ⟨hmeets, hnone⟩ => hmeets.check_eq_error hfunc hbody hnone⟩
    rcases hstops _ hfault with ⟨defect, -, heq⟩ | ⟨target', hmeets, hnone, heq⟩
    · cases heq
    · cases heq
      exact ⟨hmeets, hnone⟩
  · intro hthere
    cases hcheck : p.check f with
    | ok =>
        obtain ⟨b, block, i, instr, hi, target, htarget, houtside⟩ := hforeign
        exact absurd (((check_eq_ok_iff hfunc).1 hcheck).mem_of_named hi htarget) houtside
    | error failure =>
        rcases hstops failure hcheck with ⟨defect, hshows, rfl⟩ | ⟨target, hmeets, hnone, -⟩
        · exact ⟨defect, hshows, rfl⟩
        · have hsome := hthere target hmeets
          rw [hnone] at hsome
          cases hsome

end Program

namespace Counting

/-- The function that counts, but from the latch control goes to `target`. The program has one
more block, which is in no layout. -/
def leadingTo (target : BlockRef) : Program :=
  { program with
    blocks := program.blocks.push { name := "spare", func := ⟨0⟩, instrs := [] }
    instrs := program.instrs.setIfInBounds 7 ⟨some ⟨3⟩, .br target, .void, none⟩ }

theorem followable_leadingTo (target : BlockRef) : (leadingTo target).Followable func where
  layout := by simp [leadingTo, func, program, Program.block?]
  listed := by
    have hall : ∀ block ∈ (leadingTo target).blocks, ∀ i ∈ block.instrs,
        ((leadingTo target).instr? i).isSome := by
      simp [leadingTo, program, Program.instr?]
    intro b block hb
    exact hall block (Array.mem_of_getElem? hb.lookup)
  params := by
    have hall : ∀ instr ∈ (leadingTo target).instrs, ∀ owner index,
        .param owner index ∈ instr.op.operands → ((leadingTo target).func? owner).isSome := by
      simp [leadingTo, program, Op.operands, Value.i32, Program.func?]
    intro b block i instr hi
    exact hall instr (Array.mem_of_getElem? hi.found)

theorem hasInstr_leadingTo (target : BlockRef) :
    (leadingTo target).HasInstr func ⟨3⟩ { name := "latch", func := ⟨0⟩, instrs := [⟨6⟩, ⟨7⟩] }
      ⟨7⟩ ⟨some ⟨3⟩, .br target, .void, none⟩ :=
  ⟨⟨by decide, rfl⟩, by decide, rfl⟩

end Counting

/-- From a branch to block 9, which the program does not have, the check breaks down, and a branch
to block 5 is reported by the block's name. -/
theorem Program.check_stops_at_foreign_names_counting :
    (Counting.leadingTo ⟨9⟩).check ⟨0⟩ = .error (.fault (.noBlock ⟨9⟩)) ∧
    (Counting.leadingTo ⟨9⟩).Meets ⟨0⟩ Counting.func ⟨9⟩ ∧
    (Counting.leadingTo ⟨5⟩).check ⟨0⟩ =
      .error (.violated (.malformed "count" (.foreignTarget "latch" "spare"))) ∧
    (Counting.leadingTo ⟨5⟩).Shows ⟨0⟩ Counting.func (.foreignTarget "latch" "spare") := by
  have hforeign : ∀ target ∉ Counting.func.blocks, ∃ b block i instr,
      (Counting.leadingTo target).HasInstr Counting.func b block i instr ∧
        ∃ target ∈ instr.op.namedBlocks, target ∉ Counting.func.blocks :=
    fun target houtside => ⟨_, _, _, _, Counting.hasInstr_leadingTo target, target,
      List.mem_cons_self .., houtside⟩
  have hbreak : (Counting.leadingTo ⟨9⟩).check ⟨0⟩ = .error (.fault (.noBlock ⟨9⟩)) := by
    decide +kernel
  have hreport : (Counting.leadingTo ⟨5⟩).check ⟨0⟩ =
      .error (.violated (.malformed "count" (.foreignTarget "latch" "spare"))) := by
    decide +kernel
  obtain ⟨hiff, -⟩ := check_stops_at_foreign_names (p := Counting.leadingTo ⟨9⟩) (f := ⟨0⟩) rfl
    (by decide) (Counting.followable_leadingTo ⟨9⟩) (hforeign ⟨9⟩ (by decide))
  obtain ⟨hiff', hdefect⟩ := check_stops_at_foreign_names (p := Counting.leadingTo ⟨5⟩) (f := ⟨0⟩)
    rfl (by decide) (Counting.followable_leadingTo ⟨5⟩) (hforeign ⟨5⟩ (by decide))
  refine ⟨hbreak, ((hiff ⟨9⟩).1 hbreak).1, hreport, ?_⟩
  obtain ⟨defect, hshows, heq⟩ := hdefect fun target hmeets => by
    by_contra hnone
    have hfault := (hiff' target).2 ⟨hmeets, Option.not_isSome_iff_eq_none.1 hnone⟩
    rw [hreport] at hfault
    cases hfault
  rw [hreport] at heq
  simp only [Except.error.injEq, Failure.violated, Failure.rejected.injEq,
    Rejection.invariant.injEq, Violation.malformed.injEq] at heq
  exact heq.2 ▸ hshows

/-- A branch to a block that the program does not have is no report but a breakdown. -/
theorem Program.check_breaks_leading_nowhere :
    (Counting.leadingTo ⟨9⟩).Followable Counting.func ∧ ⟨9⟩ ∉ Counting.func.blocks ∧
    (Counting.leadingTo ⟨9⟩).HasInstr Counting.func ⟨3⟩
      { name := "latch", func := ⟨0⟩, instrs := [⟨6⟩, ⟨7⟩] } ⟨7⟩
      ⟨some ⟨3⟩, .br ⟨9⟩, .void, none⟩ ∧
    (Counting.leadingTo ⟨9⟩).check ⟨0⟩ = .error (.fault (.noBlock ⟨9⟩)) :=
  ⟨Counting.followable_leadingTo ⟨9⟩, by decide, Counting.hasInstr_leadingTo ⟨9⟩,
    by decide +kernel⟩

end Decouple
