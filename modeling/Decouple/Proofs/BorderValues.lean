import Decouple.Proofs.Outcomes
import Decouple.Liveness

/-!
# What the three lists of a loop hold

`Liveness.ofLoop` goes through the instructions of a loop twice. Its lists are described
here without an order: the defined instructions are those of the loop with a result, the
live-outs are those of the loop that are read outside of it (`Program.Escapes`), and the
live-ins are the results and parameters that the loop reads and does not define.

A reader is found through the use map, which has an entry for every instruction of the
table (`UseMap.mem_readers_ofProgram_iff`).
-/

namespace Decouple

open Outcome

namespace UseMap

variable {uses : UseMap} {i j : InstrRef} {v w : Value}

theorem readers_enter :
    (uses.enter i v).readers w =
      if v.isVariable ∧ w = v ∧ (uses.readers v).getLast? ≠ some i then uses.readers w ++ [i]
      else uses.readers w := by
  unfold enter
  by_cases hnew : v.isVariable ∧ (uses.readers v).getLast? ≠ some i
  · rw [if_pos hnew]
    by_cases hw : w = v
    · subst hw
      rw [if_pos ⟨hnew.1, rfl, hnew.2⟩]
      simp [readers]
    · have hne : compare v w ≠ .eq := fun h => hw (Std.LawfulEqOrd.eq_of_compare h).symm
      rw [if_neg fun h => hw h.2.1]
      simp [readers, Std.TreeMap.getElem?_insert, hne]
  · rw [if_neg hnew, if_neg fun h => hnew ⟨h.1, h.2.2⟩]

theorem mem_readers_enter_iff :
    j ∈ (uses.enter i v).readers w ↔ j ∈ uses.readers w ∨ v.isVariable ∧ w = v ∧ j = i := by
  rw [readers_enter]
  split
  · next hnew => simp [hnew.1, hnew.2.1]
  · next hold =>
      constructor
      · exact .inl
      · rintro (hj | ⟨hv, rfl, rfl⟩)
        · exact hj
        · exact List.mem_of_getLast? (not_not.1 fun hlast => hold ⟨hv, rfl, hlast⟩)

theorem mem_readers_enterInstr_iff {instr : Instr} :
    j ∈ (uses.enterInstr i instr).readers w ↔
      j ∈ uses.readers w ∨ w.isVariable ∧ w ∈ instr.op.operands ∧ j = i := by
  unfold enterInstr
  induction instr.op.operands generalizing uses with
  | nil => simp
  | cons v operands ih =>
      rw [List.foldl_cons, ih, mem_readers_enter_iff, List.mem_cons]
      constructor
      · rintro ((hj | ⟨hv, rfl, rfl⟩) | ⟨hw, hmem, rfl⟩)
        · exact .inl hj
        · exact .inr ⟨hv, .inl rfl, rfl⟩
        · exact .inr ⟨hw, .inr hmem, rfl⟩
      · rintro (hj | ⟨hw, rfl | hmem, rfl⟩)
        · exact .inl (.inl hj)
        · exact .inl (.inr ⟨hw, rfl, rfl⟩)
        · exact .inr ⟨hw, hmem, rfl⟩

theorem mem_readers_foldl_iff {entries : List (Instr × Nat)} :
    j ∈ (entries.foldl (fun uses (instr, k) => uses.enterInstr ⟨k⟩ instr) uses).readers w ↔
      j ∈ uses.readers w ∨
        ∃ instr, (instr, j.index) ∈ entries ∧ w.isVariable ∧ w ∈ instr.op.operands := by
  induction entries generalizing uses with
  | nil => simp
  | cons entry entries ih =>
      obtain ⟨instr, k⟩ := entry
      rw [List.foldl_cons, ih, mem_readers_enterInstr_iff]
      constructor
      · rintro ((hj | ⟨hw, hmem, rfl⟩) | ⟨instr', hentry, hw⟩)
        · exact .inl hj
        · exact .inr ⟨instr, List.mem_cons_self .., hw, hmem⟩
        · exact .inr ⟨instr', List.mem_cons_of_mem _ hentry, hw⟩
      · rintro (hj | ⟨instr', hentry, hw, hmem⟩)
        · exact .inl (.inl hj)
        · rcases List.mem_cons.1 hentry with heq | hentry
          · obtain ⟨rfl, hindex⟩ := Prod.mk.inj heq
            exact .inl (.inr ⟨hw, hmem, InstrRef.ext hindex⟩)
          · exact .inr ⟨instr', hentry, hw, hmem⟩

/-- The readers of a result or a parameter are the instructions of the table that have it
as an operand. -/
theorem mem_readers_ofProgram_iff {p : Program} :
    j ∈ (ofProgram p).readers w ↔
      w.isVariable ∧ ∃ instr, p.instr? j = some instr ∧ w ∈ instr.op.operands := by
  unfold ofProgram
  rw [mem_readers_foldl_iff]
  have hempty : (∅ : UseMap).readers w = [] := by simp [readers]
  simp only [hempty, List.not_mem_nil, false_or, List.mem_zipIdx_iff_getElem?,
    Array.getElem?_toList]
  constructor
  · rintro ⟨instr, hj, hw, hmem⟩
    exact ⟨hw, instr, hj, hmem⟩
  · rintro ⟨hw, instr, hj, hmem⟩
    exact ⟨instr, hj, hw, hmem⟩

end UseMap

/-- The result of `i` is read by an instruction that is placed outside the loop. -/
def Program.Escapes (p : Program) (loop : Loop) (i : InstrRef) : Prop :=
  ∃ reader instr b, p.instr? reader = some instr ∧ .instr i ∈ instr.op.operands ∧
    instr.block = some b ∧ b ∉ loop

namespace Liveness

variable {p : Program} {loop : Loop} {live live' : Liveness} {i : InstrRef}

theorem escapes_eq_ok {readers : List InstrRef} {escaping : Bool}
    (h : escapes p loop i readers = .ok escaping) :
    escaping ↔ ∃ reader ∈ readers, ∃ instr b, p.instr? reader = some instr ∧
      instr.block = some b ∧ b ∉ loop := by
  induction readers generalizing escaping with
  | nil =>
      obtain rfl := pure_eq_ok_iff.1 h
      simp
  | cons reader readers ih =>
      unfold escapes at h
      obtain ⟨instr, hinstr, h⟩ := bind_eq_ok_iff.1 h
      rw [Program.instr_eq_ok_iff] at hinstr
      split at h
      · obtain ⟨_, -, hthrow⟩ := bind_eq_ok_iff.1 h
        cases hthrow
      · next b hb =>
          obtain ⟨rest, hrest, h⟩ := bind_eq_ok_iff.1 h
          obtain rfl := pure_eq_ok_iff.1 h
          rw [Bool.or_eq_true, ih hrest, decide_eq_true_iff]
          constructor
          · rintro (hout | ⟨reader', hmem, hreader'⟩)
            · exact ⟨reader, List.mem_cons_self .., instr, b, hinstr, hb, hout⟩
            · exact ⟨reader', List.mem_cons_of_mem _ hmem, hreader'⟩
          · rintro ⟨reader', hmem, instr', b', hinstr', hb', hout⟩
            rcases List.mem_cons.1 hmem with rfl | hmem
            · obtain rfl := Option.some.inj (hinstr.symm.trans hinstr')
              obtain rfl := Option.some.inj (hb.symm.trans hb')
              exact .inl hout
            · exact .inr ⟨reader', hmem, instr', b', hinstr', hb', hout⟩

/-- Going through a loop block by block is going through all its instructions. -/
theorem overLoop_eq_ok {step : Liveness → InstrRef → Except Failure Liveness}
    (h : overLoop p loop step live = .ok live') :
    (p.listedIn loop.blocks).foldlM step live = .ok live' := by
  unfold overLoop at h
  generalize loop.blocks = blocks at h ⊢
  induction blocks generalizing live with
  | nil => exact h
  | cons b blocks ih =>
      rw [List.foldlM_cons] at h
      obtain ⟨between, hb, hrest⟩ := bind_eq_ok_iff.1 h
      obtain ⟨block, hblock, hfold⟩ := bind_eq_ok_iff.1 hb
      rw [Program.block_eq_ok_iff] at hblock
      have hhead : p.listedIn (b :: blocks) = block.instrs ++ p.listedIn blocks := by
        simp [Program.listedIn, hblock]
      rw [hhead, List.foldlM_append]
      exact bind_eq_ok_iff.2 ⟨between, hfold, ih hrest⟩

/-- The blocks of a loop that is gone through are there. -/
theorem block?_of_overLoop {step : Liveness → InstrRef → Except Failure Liveness}
    (h : overLoop p loop step live = .ok live') :
    ∀ b ∈ loop.blocks, ∃ block, p.block? b = some block := by
  unfold overLoop at h
  generalize loop.blocks = blocks at h ⊢
  induction blocks generalizing live with
  | nil => simp
  | cons b blocks ih =>
      rw [List.foldlM_cons] at h
      obtain ⟨between, hb, hrest⟩ := bind_eq_ok_iff.1 h
      obtain ⟨block, hblock, -⟩ := bind_eq_ok_iff.1 hb
      exact List.forall_mem_cons.2 ⟨⟨block, Program.block_eq_ok_iff.1 hblock⟩, ih hrest⟩

/-- The readers in the use map tell whether an instruction is read outside the loop. -/
theorem escapes_readers_iff {escaping : Bool}
    (h : escapes p loop i ((UseMap.ofProgram p).readers (.instr i)) = .ok escaping) :
    escaping ↔ p.Escapes loop i := by
  rw [escapes_eq_ok h]
  constructor
  · rintro ⟨reader, hmem, instr, b, hreader, hb, hout⟩
    obtain ⟨-, instr', hreader', hoperand⟩ := UseMap.mem_readers_ofProgram_iff.1 hmem
    obtain rfl := Option.some.inj (hreader.symm.trans hreader')
    exact ⟨reader, instr, b, hreader, hoperand, hb, hout⟩
  · rintro ⟨reader, instr, b, hreader, hoperand, hb, hout⟩
    exact ⟨reader, UseMap.mem_readers_ofProgram_iff.2 ⟨rfl, instr, hreader, hoperand⟩, instr, b,
      hreader, hb, hout⟩

theorem addInstr_spec (h : addInstr p (UseMap.ofProgram p) loop live i = .ok live') :
    live'.liveIn = live.liveIn ∧
      (∀ j, j ∈ live'.defined ↔
        j ∈ live.defined ∨ j = i ∧ ∃ instr, p.instr? j = some instr ∧ instr.hasResult) ∧
      ∀ j, j ∈ live'.liveOut ↔ j ∈ live.liveOut ∨ j = i ∧ p.Escapes loop j := by
  unfold addInstr at h
  obtain ⟨instr, hinstr, h⟩ := bind_eq_ok_iff.1 h
  rw [Program.instr_eq_ok_iff] at hinstr
  obtain ⟨escaping, hescaping, h⟩ := bind_eq_ok_iff.1 h
  obtain rfl := pure_eq_ok_iff.1 h
  have hescapes := escapes_readers_iff hescaping
  refine ⟨rfl, ?_, ?_⟩
  · intro j
    by_cases hresult : instr.hasResult
    · simp only [hresult, if_true, List.mem_append, List.mem_singleton]
      refine or_congr_right ⟨?_, And.left⟩
      rintro rfl
      exact ⟨rfl, instr, hinstr, hresult⟩
    · simp only [hresult]
      refine ⟨.inl, ?_⟩
      rintro (hj | ⟨rfl, instr', hinstr', hresult'⟩)
      · exact hj
      · obtain rfl := Option.some.inj (hinstr.symm.trans hinstr')
        exact absurd hresult' hresult
  · intro j
    by_cases htrue : escaping
    · simp only [htrue, if_true, List.mem_append, List.mem_singleton]
      refine or_congr_right ⟨?_, And.left⟩
      rintro rfl
      exact ⟨rfl, hescapes.1 htrue⟩
    · simp only [htrue]
      refine ⟨.inl, ?_⟩
      rintro (hj | ⟨rfl, hj⟩)
      · exact hj
      · exact absurd (hescapes.2 hj) htrue

/-- The first pass: definitions and live-outs. -/
theorem addInstrs_spec {is : List InstrRef}
    (h : is.foldlM (addInstr p (UseMap.ofProgram p) loop) live = .ok live') :
    live'.liveIn = live.liveIn ∧
      (∀ j, j ∈ live'.defined ↔
        j ∈ live.defined ∨ j ∈ is ∧ ∃ instr, p.instr? j = some instr ∧ instr.hasResult) ∧
      ∀ j, j ∈ live'.liveOut ↔ j ∈ live.liveOut ∨ j ∈ is ∧ p.Escapes loop j := by
  induction is generalizing live with
  | nil =>
      obtain rfl := pure_eq_ok_iff.1 h
      simp
  | cons i is ih =>
      rw [List.foldlM_cons] at h
      obtain ⟨between, hi, hrest⟩ := bind_eq_ok_iff.1 h
      obtain ⟨hin, hdefined, hout⟩ := addInstr_spec hi
      obtain ⟨hin', hdefined', hout'⟩ := ih hrest
      refine ⟨hin'.trans hin, ?_, ?_⟩
      · intro j
        rw [hdefined', hdefined, List.mem_cons, or_and_right, or_assoc]
      · intro j
        rw [hout', hout, List.mem_cons, or_and_right, or_assoc]

/-- The instructions that are entered are there. -/
theorem instr?_of_addInstrs {uses : UseMap} {is : List InstrRef}
    (h : is.foldlM (addInstr p uses loop) live = .ok live') :
    ∀ i ∈ is, ∃ instr, p.instr? i = some instr := by
  induction is generalizing live with
  | nil => simp
  | cons i is ih =>
      rw [List.foldlM_cons] at h
      obtain ⟨between, hi, hrest⟩ := bind_eq_ok_iff.1 h
      unfold addInstr at hi
      obtain ⟨instr, hinstr, -⟩ := bind_eq_ok_iff.1 hi
      exact List.forall_mem_cons.2 ⟨⟨instr, Program.instr_eq_ok_iff.1 hinstr⟩, ih hrest⟩

def Foreign (live : Liveness) (v : Value) : Prop := ∀ i, v = .instr i → i ∉ live.defined

theorem addOperand_spec (live : Liveness) (u : Value) :
    (addOperand live u).defined = live.defined ∧ (addOperand live u).liveOut = live.liveOut ∧
      ∀ v, v ∈ (addOperand live u).liveIn ↔
        v ∈ live.liveIn ∨ v = u ∧ u.isVariable ∧ live.Foreign u := by
  have hforeign : (u.instr?.any fun i => i ∈ live.defined) = false ↔ live.Foreign u := by
    cases u <;> simp [Value.instr?, Foreign]
  unfold addOperand
  by_cases hadd : u.isVariable ∧
      !(u.instr?.any fun i => i ∈ live.defined) ∧ u ∉ live.liveIn
  · obtain ⟨hvariable, hinside, hnew⟩ := hadd
    simp only [hvariable, hinside, hnew, not_false_eq_true, and_self, if_true]
    refine ⟨trivial, trivial, ?_⟩
    intro v
    rw [List.mem_append, List.mem_singleton]
    refine or_congr_right ⟨fun hv => ⟨hv, trivial, ?_⟩, And.left⟩
    exact hforeign.1 (by simpa using hinside)
  · rw [if_neg hadd]
    refine ⟨rfl, rfl, ?_⟩
    intro v
    refine ⟨.inl, ?_⟩
    rintro (hv | ⟨rfl, hvariable, hout⟩)
    · exact hv
    · by_contra hnew
      exact hadd ⟨hvariable, by simp [hforeign.2 hout], hnew⟩

theorem addOperand_foldl_spec (live : Liveness) (operands : List Value) :
    (operands.foldl addOperand live).defined = live.defined ∧
      (operands.foldl addOperand live).liveOut = live.liveOut ∧
      ∀ v, v ∈ (operands.foldl addOperand live).liveIn ↔
        v ∈ live.liveIn ∨ v ∈ operands ∧ v.isVariable ∧ live.Foreign v := by
  induction operands generalizing live with
  | nil => simp
  | cons u operands ih =>
      obtain ⟨hdefined, hout, hin⟩ := addOperand_spec live u
      obtain ⟨hdefined', hout', hin'⟩ := ih (addOperand live u)
      refine ⟨hdefined'.trans hdefined, hout'.trans hout, ?_⟩
      intro v
      have hforeign : (addOperand live u).Foreign v ↔ live.Foreign v := by
        rw [Foreign, Foreign, hdefined]
      rw [List.foldl_cons, hin', hin, hforeign, List.mem_cons, or_and_right, or_assoc]
      refine or_congr_right (or_congr_left ⟨?_, ?_⟩)
      · rintro ⟨rfl, h⟩
        exact ⟨rfl, h⟩
      · rintro ⟨rfl, h⟩
        exact ⟨rfl, h⟩

/-- The second pass: live-ins. -/
theorem addOperands_spec {is : List InstrRef}
    (h : is.foldlM (addOperands p) live = .ok live') :
    live'.defined = live.defined ∧ live'.liveOut = live.liveOut ∧
      ∀ v, v ∈ live'.liveIn ↔ v ∈ live.liveIn ∨ v.isVariable ∧ live.Foreign v ∧
        ∃ j ∈ is, ∃ instr, p.instr? j = some instr ∧ v ∈ instr.op.operands := by
  induction is generalizing live with
  | nil =>
      obtain rfl := pure_eq_ok_iff.1 h
      simp
  | cons i is ih =>
      rw [List.foldlM_cons] at h
      obtain ⟨between, hi, hrest⟩ := bind_eq_ok_iff.1 h
      unfold addOperands at hi
      obtain ⟨instr, hinstr, hfold⟩ := bind_eq_ok_iff.1 hi
      rw [Program.instr_eq_ok_iff] at hinstr
      obtain rfl := pure_eq_ok_iff.1 hfold
      obtain ⟨hdefined, hout, hin⟩ := addOperand_foldl_spec live instr.op.operands
      obtain ⟨hdefined', hout', hin'⟩ := ih hrest
      refine ⟨hdefined'.trans hdefined, hout'.trans hout, ?_⟩
      intro v
      have hforeign : (instr.op.operands.foldl addOperand live).Foreign v ↔ live.Foreign v := by
        rw [Foreign, Foreign, hdefined]
      rw [hin', hin, hforeign]
      constructor
      · rintro ((hv | ⟨hmem, hvariable, hout⟩) | ⟨hvariable, hout, j, hj, hread⟩)
        · exact .inl hv
        · exact .inr ⟨hvariable, hout, i, List.mem_cons_self .., instr, hinstr, hmem⟩
        · exact .inr ⟨hvariable, hout, j, List.mem_cons_of_mem _ hj, hread⟩
      · rintro (hv | ⟨hvariable, hout, j, hj, instr', hinstr', hmem⟩)
        · exact .inl (.inl hv)
        · rcases List.mem_cons.1 hj with rfl | hj
          · obtain rfl := Option.some.inj (hinstr.symm.trans hinstr')
            exact .inl (.inr ⟨hmem, hvariable, hout⟩)
          · exact .inr ⟨hvariable, hout, j, hj, instr', hinstr', hmem⟩

theorem nodup_addOperand (h : live.liveIn.Nodup) (u : Value) :
    (addOperand live u).liveIn.Nodup := by
  unfold addOperand
  dsimp only
  split
  · next hadd =>
      refine List.nodup_append.2 ⟨h, by simp, fun v hv w hw => ?_⟩
      rintro rfl
      exact hadd.2.2 (List.mem_singleton.1 hw ▸ hv)
  · exact h

theorem nodup_foldl_addOperand (h : live.liveIn.Nodup) (operands : List Value) :
    (operands.foldl addOperand live).liveIn.Nodup := by
  induction operands generalizing live with
  | nil => exact h
  | cons u operands ih => exact ih (nodup_addOperand h u)

/-- A live-in is entered once. -/
theorem nodup_addOperands {is : List InstrRef} (hnodup : live.liveIn.Nodup)
    (h : is.foldlM (addOperands p) live = .ok live') : live'.liveIn.Nodup := by
  induction is generalizing live with
  | nil =>
      obtain rfl := pure_eq_ok_iff.1 h
      exact hnodup
  | cons i is ih =>
      rw [List.foldlM_cons] at h
      obtain ⟨between, hi, hrest⟩ := bind_eq_ok_iff.1 h
      unfold addOperands at hi
      obtain ⟨instr, -, hfold⟩ := bind_eq_ok_iff.1 hi
      obtain rfl := pure_eq_ok_iff.1 hfold
      exact ih (nodup_foldl_addOperand hnodup instr.op.operands) hrest

structure Describes (live : Liveness) (p : Program) (loop : Loop) : Prop where
  mem_defined_iff : ∀ i, i ∈ live.defined ↔ i ∈ p.listedIn loop.blocks ∧
    ∃ instr, p.instr? i = some instr ∧ instr.hasResult
  mem_liveOut_iff : ∀ i, i ∈ live.liveOut ↔ i ∈ p.listedIn loop.blocks ∧ p.Escapes loop i
  mem_liveIn_iff : ∀ v, v ∈ live.liveIn ↔ v.isVariable ∧ live.Foreign v ∧
    ∃ j ∈ p.listedIn loop.blocks, ∃ instr, p.instr? j = some instr ∧ v ∈ instr.op.operands
  nodup_liveIn : live.liveIn.Nodup
  block? : ∀ b ∈ loop, ∃ block, p.block? b = some block
  instr? : ∀ i ∈ p.listedIn loop.blocks, ∃ instr, p.instr? i = some instr

theorem describes_of_ofLoop (h : ofLoop p loop = .ok live) : live.Describes p loop := by
  unfold ofLoop at h
  obtain ⟨between, hfirst, hsecond⟩ := bind_eq_ok_iff.1 h
  obtain ⟨hin, hdefined, hout⟩ := addInstrs_spec (overLoop_eq_ok hfirst)
  obtain ⟨hdefined', hout', hin'⟩ := addOperands_spec (overLoop_eq_ok hsecond)
  constructor
  · intro i
    rw [hdefined', hdefined]
    simp
  · intro i
    rw [hout', hout]
    simp
  · intro v
    rw [hin', hin, Foreign, Foreign, hdefined']
    simp
  · refine nodup_addOperands ?_ (overLoop_eq_ok hsecond)
    rw [hin]
    exact List.nodup_nil
  · exact block?_of_overLoop hfirst
  · exact instr?_of_addInstrs (overLoop_eq_ok hfirst)

end Liveness

end Decouple
