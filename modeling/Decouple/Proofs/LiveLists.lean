import Decouple.Proofs.BorderValues
import Decouple.Proofs.Checking
import Decouple.Proofs.Collapse

/-!
# The three lists of a loop, in order

`Liveness.Describes` says what the lists of a loop hold. Here they are given as lists
(`Liveness.InOrder`): the defined instructions and the live-outs are picked from the instructions
of the loop as they come, and the live-ins are the first reads of what the loop does not define.

The lists are computed unless an instruction of the loop is read by one that no block holds
(`Program.ReadUnplaced`), and then that is reported. Both answers presuppose that the references
of the loop lead somewhere (`Program.Covers`): a reference into nothing may be followed before
the reader without a block is met.
-/

namespace Decouple

open Outcome

namespace Program

/-- The blocks of the loop are there, and so are the instructions that they list. -/
def Covers (p : Program) (loop : Loop) : Prop :=
  (∀ b ∈ loop, ∃ block, p.block? b = some block) ∧
    ∀ i ∈ p.listedIn loop.blocks, ∃ instr, p.instr? i = some instr

/-- The result of `i` is read by an instruction that no block holds. -/
def ReadUnplaced (p : Program) (i : InstrRef) : Prop :=
  ∃ reader instr, p.instr? reader = some instr ∧ .instr i ∈ instr.op.operands ∧
    instr.block = none

def yields (p : Program) (i : InstrRef) : Bool := (p.instr? i).any Instr.hasResult

def operandsOf (p : Program) (is : List InstrRef) : List Value :=
  is.flatMap fun i => ((p.instr? i).map fun instr => instr.op.operands).getD []

instance (p : Program) (loop : Loop) (i : InstrRef) : Decidable (p.Escapes loop i) :=
  decidable_of_iff (∃ instr ∈ p.instrs.toList, .instr i ∈ instr.op.operands ∧
      ∃ b ∈ instr.block, b ∉ loop) <| by
    constructor
    · rintro ⟨instr, hinstr, hoperand, b, hb, hout⟩
      obtain ⟨k, hk⟩ := List.getElem?_of_mem hinstr
      exact ⟨⟨k⟩, instr, b, Array.getElem?_toList.symm.trans hk, hoperand, hb, hout⟩
    · rintro ⟨reader, instr, b, hreader, hoperand, hb, hout⟩
      exact ⟨instr, Array.mem_toList_iff.2 (Array.mem_of_getElem? hreader), hoperand, b, hb, hout⟩

end Program

namespace Liveness

variable {p : Program} {loop : Loop} {live : Liveness} {i : InstrRef}

/-- The values among `operands` that vary and that no instruction of `defined` yields, each where
it comes first. -/
def firstReads (defined : List InstrRef) (operands : List Value) : List Value :=
  (operands.filter fun v => v.isVariable ∧ v ∉ defined.map .instr).eraseDups

structure InOrder (live : Liveness) (p : Program) (loop : Loop) : Prop where
  defined_eq : live.defined = (p.listedIn loop.blocks).filter p.yields
  liveOut_eq : live.liveOut = (p.listedIn loop.blocks).filter fun i => p.Escapes loop i
  liveIn_eq : live.liveIn = firstReads live.defined (p.operandsOf (p.listedIn loop.blocks))

/-! ### The first pass -/

/-- If all readers are placed, it is known whether one of them is outside. -/
theorem exists_escapes {readers : List InstrRef}
    (h : ∀ reader ∈ readers, ∃ instr, p.instr? reader = some instr ∧ instr.block ≠ none) :
    ∃ escaping, escapes p loop i readers = .ok escaping := by
  induction readers with
  | nil => exact ⟨false, rfl⟩
  | cons reader readers ih =>
      obtain ⟨⟨instr, hinstr, hplaced⟩, hrest⟩ := List.forall_mem_cons.1 h
      obtain ⟨b, hb⟩ := Option.ne_none_iff_exists'.1 hplaced
      obtain ⟨escaping, hescaping⟩ := ih hrest
      refine ⟨decide (b ∉ loop) || escaping, ?_⟩
      simp [escapes, Program.instr_eq_ok_iff.2 hinstr, hb, hescaping, bind, Except.bind, pure,
        Except.pure]

/-- All readers are gone through, so one without a block is found wherever it stands. -/
theorem escapes_eq_malformedUse {readers : List InstrRef} {self : Instr}
    (hself : p.instr? i = some self)
    (hthere : ∀ reader ∈ readers, ∃ instr, p.instr? reader = some instr)
    (h : ∃ reader ∈ readers, ∃ instr, p.instr? reader = some instr ∧ instr.block = none) :
    ∃ name, escapes p loop i readers = .error (.rejected (.malformedUse name)) := by
  induction readers with
  | nil =>
      obtain ⟨reader, hreader, -⟩ := h
      exact absurd hreader List.not_mem_nil
  | cons reader readers ih =>
      obtain ⟨⟨instr, hinstr⟩, hrest⟩ := List.forall_mem_cons.1 hthere
      have hlookup := Program.instr_eq_ok_iff.2 hinstr
      cases hblock : instr.block with
      | none =>
          have hname := Program.instr_eq_ok_iff.2 hself
          refine ⟨self.name.getD ("v" ++ toString i.index), ?_⟩
          simp [escapes, hlookup, hblock, Program.valueName, hname, bind, Except.bind, pure,
            Except.pure, throw, throwThe, MonadExceptOf.throw]
      | some b =>
          obtain ⟨name, hname⟩ := ih hrest <| by
            obtain ⟨reader', hmem, instr', hinstr', hnone⟩ := h
            rcases List.mem_cons.1 hmem with rfl | hmem
            · obtain rfl := Option.some.inj (hinstr.symm.trans hinstr')
              rw [hblock] at hnone
              cases hnone
            · exact ⟨reader', hmem, instr', hinstr', hnone⟩
          exact ⟨name, by simp [escapes, hlookup, hblock, hname, bind, Except.bind]⟩

theorem mem_readers_iff {reader : InstrRef} :
    reader ∈ (UseMap.ofProgram p).readers (.instr i) ↔
      ∃ instr, p.instr? reader = some instr ∧ .instr i ∈ instr.op.operands := by
  rw [UseMap.mem_readers_ofProgram_iff]
  simp [Value.isVariable]

theorem addInstr_eq_malformedUse {self : Instr} (hself : p.instr? i = some self)
    (h : p.ReadUnplaced i) (live : Liveness) :
    ∃ name, addInstr p (UseMap.ofProgram p) loop live i =
      .error (.rejected (.malformedUse name)) := by
  obtain ⟨reader, instr, hreader, hoperand, hnone⟩ := h
  obtain ⟨name, hname⟩ := @escapes_eq_malformedUse p loop i
    ((UseMap.ofProgram p).readers (.instr i)) self hself
    (fun reader hmem => (mem_readers_iff.1 hmem).imp fun _ h => h.1)
    ⟨reader, mem_readers_iff.2 ⟨instr, hreader, hoperand⟩, instr, hreader, hnone⟩
  refine ⟨name, ?_⟩
  simp [addInstr, Program.instr_eq_ok_iff.2 hself, hname, bind, Except.bind]

theorem addInstr_eq_ok {self : Instr} (hself : p.instr? i = some self)
    (h : ¬ p.ReadUnplaced i) (live : Liveness) :
    addInstr p (UseMap.ofProgram p) loop live i =
      .ok { live with
        defined := live.defined ++ [i].filter p.yields
        liveOut := live.liveOut ++ [i].filter fun i => p.Escapes loop i } := by
  have hplaced : ∀ reader ∈ (UseMap.ofProgram p).readers (.instr i),
      ∃ instr, p.instr? reader = some instr ∧ instr.block ≠ none := by
    intro reader hmem
    obtain ⟨instr, hreader, hoperand⟩ := mem_readers_iff.1 hmem
    exact ⟨instr, hreader, fun hnone => h ⟨reader, instr, hreader, hoperand, hnone⟩⟩
  obtain ⟨escaping, hescaping⟩ := @exists_escapes p loop i _ hplaced
  have hiff := escapes_readers_iff hescaping
  have hyields : p.yields i = self.hasResult := by simp [Program.yields, hself]
  have hok : addInstr p (UseMap.ofProgram p) loop live i = .ok { live with
      defined := if self.hasResult then live.defined ++ [i] else live.defined
      liveOut := if escaping then live.liveOut ++ [i] else live.liveOut } := by
    simp [addInstr, Program.instr_eq_ok_iff.2 hself, hescaping, bind, Except.bind, pure,
      Except.pure]
  rw [hok]
  congr 2
  · cases hresult : self.hasResult <;> simp [hyields, hresult]
  · cases escaping <;> simp [← hiff]

theorem addInstrs_eq_malformedUse {is : List InstrRef}
    (hthere : ∀ i ∈ is, ∃ instr, p.instr? i = some instr) (h : ∃ i ∈ is, p.ReadUnplaced i)
    (live : Liveness) :
    ∃ name, is.foldlM (addInstr p (UseMap.ofProgram p) loop) live =
      .error (.rejected (.malformedUse name)) := by
  induction is generalizing live with
  | nil =>
      obtain ⟨i, hi, -⟩ := h
      exact absurd hi List.not_mem_nil
  | cons i is ih =>
      obtain ⟨⟨self, hself⟩, hrest⟩ := List.forall_mem_cons.1 hthere
      rw [List.foldlM_cons]
      by_cases hunplaced : p.ReadUnplaced i
      · obtain ⟨name, hname⟩ := addInstr_eq_malformedUse hself hunplaced live
        exact ⟨name, by rw [hname]; rfl⟩
      · rw [addInstr_eq_ok hself hunplaced]
        refine ih hrest ?_ _
        obtain ⟨j, hj, hunplaced'⟩ := h
        rcases List.mem_cons.1 hj with rfl | hj
        · exact absurd hunplaced' hunplaced
        · exact ⟨j, hj, hunplaced'⟩

/-- The first pass picks the defined instructions and the live-outs as they come. -/
theorem addInstrs_eq_ok {is : List InstrRef}
    (hthere : ∀ i ∈ is, ∃ instr, p.instr? i = some instr) (h : ∀ i ∈ is, ¬ p.ReadUnplaced i)
    (live : Liveness) :
    is.foldlM (addInstr p (UseMap.ofProgram p) loop) live =
      .ok { live with
        defined := live.defined ++ is.filter p.yields
        liveOut := live.liveOut ++ is.filter fun i => p.Escapes loop i } := by
  induction is generalizing live with
  | nil => simp [pure, Except.pure]
  | cons i is ih =>
      obtain ⟨⟨self, hself⟩, hrest⟩ := List.forall_mem_cons.1 hthere
      obtain ⟨hi, his⟩ := List.forall_mem_cons.1 h
      have hcons : i :: is = [i] ++ is := rfl
      rw [List.foldlM_cons, addInstr_eq_ok hself hi]
      refine (ih hrest his _).trans ?_
      rw [hcons, List.filter_append, List.filter_append, List.append_assoc, List.append_assoc]

/-! ### The second pass -/

theorem eraseDups_append_singleton {α : Type} [DecidableEq α] (xs : List α) (x : α) :
    (xs ++ [x]).eraseDups = if x ∈ xs then xs.eraseDups else xs.eraseDups ++ [x] := by
  rw [List.eraseDups_append]
  by_cases hx : x ∈ xs <;> simp [List.removeAll, hx, List.eraseDups_cons]

theorem firstReads_append_singleton (defined : List InstrRef) (operands : List Value) (v : Value) :
    firstReads defined (operands ++ [v]) =
      if v.isVariable ∧ v ∉ defined.map .instr ∧ v ∉ firstReads defined operands then
        firstReads defined operands ++ [v]
      else
        firstReads defined operands := by
  unfold firstReads
  rw [List.filter_append]
  by_cases hpick : v.isVariable ∧ v ∉ defined.map .instr
  · rw [List.filter_singleton, decide_eq_true hpick, cond_true, eraseDups_append_singleton]
    simp only [hpick, not_false_eq_true, true_and, List.mem_eraseDups, ite_not]
  · rw [List.filter_singleton, decide_eq_false hpick, cond_false, List.append_nil,
      if_neg fun h => hpick ⟨h.1, h.2.1⟩]

theorem addOperand_eq {defined liveOut : List InstrRef} (operands : List Value) (v : Value) :
    addOperand ⟨defined, firstReads defined operands, liveOut⟩ v =
      ⟨defined, firstReads defined (operands ++ [v]), liveOut⟩ := by
  have hinside : (v.instr?.any fun i => i ∈ defined) = decide (v ∈ defined.map .instr) := by
    cases v <;> simp [Value.instr?]
  rw [firstReads_append_singleton]
  simp only [addOperand, hinside, Bool.not_eq_true', decide_eq_false_iff_not]
  split <;> rfl

theorem foldl_addOperand_eq {defined liveOut : List InstrRef} (operands new : List Value) :
    new.foldl addOperand ⟨defined, firstReads defined operands, liveOut⟩ =
      ⟨defined, firstReads defined (operands ++ new), liveOut⟩ := by
  induction new generalizing operands with
  | nil => simp
  | cons v new ih =>
      rw [List.foldl_cons, addOperand_eq, ih, List.append_assoc, List.singleton_append]

/-- The second pass enters a live-in where it is first read. -/
theorem addOperands_eq_ok {defined liveOut is : List InstrRef}
    (hthere : ∀ i ∈ is, ∃ instr, p.instr? i = some instr) (operands : List Value) :
    is.foldlM (addOperands p) ⟨defined, firstReads defined operands, liveOut⟩ =
      .ok ⟨defined, firstReads defined (operands ++ p.operandsOf is), liveOut⟩ := by
  induction is generalizing operands with
  | nil => simp [Program.operandsOf, pure, Except.pure]
  | cons i is ih =>
      obtain ⟨⟨instr, hinstr⟩, hrest⟩ := List.forall_mem_cons.1 hthere
      have hadd : addOperands p ⟨defined, firstReads defined operands, liveOut⟩ i =
          .ok ⟨defined, firstReads defined (operands ++ instr.op.operands), liveOut⟩ := by
        simp [addOperands, Program.instr_eq_ok_iff.2 hinstr, foldl_addOperand_eq, bind, Except.bind,
          pure, Except.pure]
      have hoperands : p.operandsOf (i :: is) = instr.op.operands ++ p.operandsOf is := by
        simp [Program.operandsOf, hinstr]
      rw [List.foldlM_cons, hadd, hoperands, ← List.append_assoc]
      exact ih hrest _

/-! ### Both passes -/

theorem overLoop_eq {step : Liveness → InstrRef → Except Failure Liveness}
    (h : ∀ b ∈ loop, ∃ block, p.block? b = some block) (live : Liveness) :
    overLoop p loop step live = (p.listedIn loop.blocks).foldlM step live := by
  have hblocks : ∀ b ∈ loop.blocks, ∃ block, p.block? b = some block := h
  unfold overLoop
  generalize loop.blocks = blocks at hblocks ⊢
  induction blocks generalizing live with
  | nil => rfl
  | cons b blocks ih =>
      obtain ⟨⟨block, hblock⟩, hrest⟩ := List.forall_mem_cons.1 hblocks
      have hhead : p.listedIn (b :: blocks) = block.instrs ++ p.listedIn blocks := by
        simp [Program.listedIn, hblock]
      rw [List.foldlM_cons, Program.block_eq_ok_iff.2 hblock, hhead, List.foldlM_append]
      exact bind_congr fun between => ih between hrest

/-- A loop with an instruction that is read by one without a block is refused. -/
theorem ofLoop_eq_malformedUse (hcovers : p.Covers loop)
    (h : ∃ i ∈ p.listedIn loop.blocks, p.ReadUnplaced i) :
    ∃ name, ofLoop p loop = .error (.rejected (.malformedUse name)) := by
  obtain ⟨name, hname⟩ := @addInstrs_eq_malformedUse p loop _ hcovers.2 h ⟨[], [], []⟩
  refine ⟨name, ?_⟩
  rw [ofLoop, overLoop_eq hcovers.1, hname]
  rfl

/-- The lists of any other loop are computed. -/
theorem exists_ofLoop (hcovers : p.Covers loop)
    (h : ∀ i ∈ p.listedIn loop.blocks, ¬ p.ReadUnplaced i) :
    ∃ live, ofLoop p loop = .ok live ∧ live.InOrder p loop := by
  have hfirst := @addInstrs_eq_ok p loop _ hcovers.2 h ⟨[], [], []⟩
  have hsecond := @addOperands_eq_ok p ((p.listedIn loop.blocks).filter p.yields)
    ((p.listedIn loop.blocks).filter fun i => p.Escapes loop i) _ hcovers.2 []
  rw [List.nil_append] at hsecond
  refine ⟨⟨_, firstReads _ _, _⟩, ?_, rfl, rfl, rfl⟩
  rw [ofLoop, overLoop_eq hcovers.1, hfirst]
  exact (overLoop_eq hcovers.1 _).trans hsecond

theorem covers_of_ofLoop (h : ofLoop p loop = .ok live) : p.Covers loop :=
  ⟨(describes_of_ofLoop h).block?, (describes_of_ofLoop h).instr?⟩

theorem inOrder_of_ofLoop (h : ofLoop p loop = .ok live) : live.InOrder p loop := by
  have hcovers := covers_of_ofLoop h
  obtain ⟨live', hlive', horder⟩ := exists_ofLoop hcovers fun i hi hunplaced => by
    obtain ⟨name, hname⟩ := ofLoop_eq_malformedUse hcovers ⟨i, hi, hunplaced⟩
    cases h.symm.trans hname
  obtain rfl := Except.ok.inj (h.symm.trans hlive')
  exact horder

theorem InOrder.nodup_liveOut (h : live.InOrder p loop) (hnodup : (p.listedIn loop.blocks).Nodup) :
    live.liveOut.Nodup :=
  h.liveOut_eq ▸ hnodup.filter _

theorem InOrder.nodup_defined (h : live.InOrder p loop) (hnodup : (p.listedIn loop.blocks).Nodup) :
    live.defined.Nodup :=
  h.defined_eq ▸ hnodup.filter _

/-! ### Loops with references into nothing -/

/-- What stops the computation of the lists: a reference into nothing, or an instruction of the
loop that is read by one without a block. -/
def Stops (p : Program) (loop : Loop) (failure : Failure) : Prop :=
  (∃ fault, failure = .fault fault) ∨
    (∃ name, failure = .rejected (.malformedUse name)) ∧
      ∃ i ∈ p.listedIn loop.blocks, p.ReadUnplaced i

theorem failsOnly_block (b : BlockRef) : FailsOnly (Stops p loop) (p.block b) := by
  unfold Program.block
  split
  · exact FailsOnly.ok _
  · exact FailsOnly.error (.inl ⟨_, rfl⟩)

theorem failsOnly_instr (i : InstrRef) : FailsOnly (Stops p loop) (p.instr i) := by
  unfold Program.instr
  split
  · exact FailsOnly.ok _
  · exact FailsOnly.error (.inl ⟨_, rfl⟩)

theorem failsOnly_escapes (hi : i ∈ p.listedIn loop.blocks) {readers : List InstrRef}
    (h : ∀ reader ∈ readers, reader ∈ (UseMap.ofProgram p).readers (.instr i)) :
    FailsOnly (Stops p loop) (escapes p loop i readers) := by
  induction readers with
  | nil => exact FailsOnly.ok false
  | cons reader readers ih =>
      obtain ⟨hreader, hrest⟩ := List.forall_mem_cons.1 h
      refine FailsOnly.bind (failsOnly_instr reader) fun instr hinstr => ?_
      rw [Program.instr_eq_ok_iff] at hinstr
      obtain ⟨instr', hinstr', hoperand⟩ := mem_readers_iff.1 hreader
      obtain rfl := Option.some.inj (hinstr.symm.trans hinstr')
      cases hblock : instr.block with
      | none =>
          refine FailsOnly.bind (FailsOnly.bind (failsOnly_instr i) fun _ _ => FailsOnly.ok _) ?_
          intro name _
          exact FailsOnly.error
            (.inr ⟨⟨name, rfl⟩, i, hi, reader, instr, hinstr, hoperand, hblock⟩)
      | some b => exact FailsOnly.bind (ih hrest) fun _ _ => FailsOnly.ok _

theorem failsOnly_overLoop {step : Liveness → InstrRef → Except Failure Liveness}
    (h : ∀ i ∈ p.listedIn loop.blocks, ∀ live, FailsOnly (Stops p loop) (step live i))
    (live : Liveness) : FailsOnly (Stops p loop) (overLoop p loop step live) := by
  refine FailsOnly.foldlM (fun b hb live => ?_) live
  refine FailsOnly.bind (failsOnly_block b) fun block hblock => ?_
  refine FailsOnly.foldlM (fun i hi => ?_) live
  exact h i (Program.mem_listedIn_iff.2 ⟨b, hb, block, Program.block_eq_ok_iff.1 hblock, hi⟩)

theorem failsOnly_ofLoop : FailsOnly (Stops p loop) (ofLoop p loop) := by
  refine FailsOnly.bind (failsOnly_overLoop (fun i hi live => ?_) _) fun between _ =>
    failsOnly_overLoop (fun i _ live => ?_) _
  · refine FailsOnly.bind (failsOnly_instr i) fun _ _ => ?_
    exact FailsOnly.bind (failsOnly_escapes hi fun _ => id) fun _ _ => FailsOnly.ok _
  · exact FailsOnly.bind (failsOnly_instr i) fun _ _ => FailsOnly.ok _

/-- A loop whose references lead somewhere is refused exactly if one of its instructions is read by
one without a block, and otherwise it has its lists, in order and without repetitions. For any
other loop there are no lists. -/
theorem ofLoop_lists_in_order (p : Program) (loop : Loop)
    (hnodup : (p.listedIn loop.blocks).Nodup) :
    (p.Covers loop →
      ((∃ name, ofLoop p loop = .error (.rejected (.malformedUse name))) ↔
        ∃ i ∈ p.listedIn loop.blocks, p.ReadUnplaced i) ∧
      ((¬ ∃ i ∈ p.listedIn loop.blocks, p.ReadUnplaced i) →
        ∃ live, ofLoop p loop = .ok live ∧ live.InOrder p loop ∧ live.defined.Nodup ∧
          live.liveOut.Nodup ∧ live.liveIn.Nodup ∧ ∀ i ∈ live.defined, .instr i ∉ live.liveIn)) ∧
    (¬ p.Covers loop → ∃ failure, ofLoop p loop = .error failure ∧ Stops p loop failure) := by
  constructor
  · intro hcovers
    have hlists (hplaced : ¬ ∃ i ∈ p.listedIn loop.blocks, p.ReadUnplaced i) :=
      exists_ofLoop hcovers fun i hi hunplaced => hplaced ⟨i, hi, hunplaced⟩
    refine ⟨⟨fun ⟨name, hname⟩ => ?_, ofLoop_eq_malformedUse hcovers⟩, fun hplaced => ?_⟩
    · by_contra hplaced
      obtain ⟨live, hlive, -⟩ := hlists hplaced
      cases hlive.symm.trans hname
    · obtain ⟨live, hlive, horder⟩ := hlists hplaced
      have hdescribes := describes_of_ofLoop hlive
      refine ⟨live, hlive, horder, horder.nodup_defined hnodup, horder.nodup_liveOut hnodup,
        hdescribes.nodup_liveIn, fun i hi hin => ?_⟩
      exact ((hdescribes.mem_liveIn_iff _).1 hin).2.1 i rfl hi
  · intro hnot
    cases hlive : ofLoop p loop with
    | ok live => exact absurd (covers_of_ofLoop hlive) hnot
    | error failure => exact ⟨failure, rfl, failsOnly_ofLoop failure hlive⟩

end Liveness

/-! A loop of one block, which lists a reference that is not taken before an instruction that is
read by one without a block. -/

namespace Torn

/-- Block 0 leads to the header 1, which goes round and leaves for 2. Reference 7 is not taken,
and no block holds instruction 4. -/
def program : Program where
  funcs := #[
    { name := "tear"
      params := []
      ret := .i32
      blocks := [⟨0⟩, ⟨1⟩, ⟨2⟩]
      external := false }]
  blocks := #[
    { name := "entry", func := ⟨0⟩, instrs := [⟨0⟩] },
    { name := "header", func := ⟨0⟩, instrs := [⟨7⟩, ⟨1⟩, ⟨2⟩] },
    { name := "exit", func := ⟨0⟩, instrs := [⟨3⟩] }]
  instrs := #[
    ⟨some ⟨0⟩, .br ⟨1⟩, .void, none⟩,
    ⟨some ⟨1⟩, .compare .slt (.i32 0) (.i32 3), .i1, some "more"⟩,
    ⟨some ⟨1⟩, .condBr (.instr ⟨1⟩) ⟨1⟩ ⟨2⟩, .void, none⟩,
    ⟨some ⟨2⟩, .ret (some (.i32 0)), .void, none⟩,
    ⟨none, .cast (.instr ⟨1⟩), .i32, none⟩]
  structs := #[]

def loop : Loop := ⟨⟨1⟩, ⟨0⟩, ⟨2⟩, [⟨1⟩]⟩

end Torn

namespace Liveness

theorem ofLoop_lists_in_order_counting :
    (Counting.program.listedIn Counting.loop.blocks).Nodup ∧
    Counting.program.Covers Counting.loop ∧
    (∃ live, ofLoop Counting.program Counting.loop = .ok live ∧
      live.InOrder Counting.program Counting.loop ∧ live.liveOut = [⟨1⟩] ∧ live.liveIn.Nodup) ∧
    (Torn.program.listedIn Torn.loop.blocks).Nodup ∧ ¬ Torn.program.Covers Torn.loop ∧
    ∃ failure, ofLoop Torn.program Torn.loop = .error failure ∧
      Stops Torn.program Torn.loop failure := by
  have hnodup : (Counting.program.listedIn Counting.loop.blocks).Nodup := by decide
  have hcovers : Counting.program.Covers Counting.loop :=
    @covers_of_ofLoop _ _ Counting.setting.live (by decide +kernel)
  have hblocks : ∀ instr ∈ Counting.program.instrs.toList, instr.block ≠ none := by decide
  have hplaced : ¬ ∃ i ∈ Counting.program.listedIn Counting.loop.blocks,
      Counting.program.ReadUnplaced i := by
    rintro ⟨i, -, reader, instr, hreader, -, hnone⟩
    exact hblocks instr (Array.mem_toList_iff.2 (Array.mem_of_getElem? hreader)) hnone
  have hnodup' : (Torn.program.listedIn Torn.loop.blocks).Nodup := by decide
  have hcovers' : ¬ Torn.program.Covers Torn.loop := by
    rintro ⟨-, hinstrs⟩
    obtain ⟨instr, hinstr⟩ := hinstrs ⟨7⟩ (by decide)
    cases hinstr
  obtain ⟨live, hlive, horder, -, -, hin, -⟩ :=
    ((ofLoop_lists_in_order _ _ hnodup).1 hcovers).2 hplaced
  refine ⟨hnodup, hcovers, ⟨live, hlive, horder, ?_, hin⟩, hnodup', hcovers',
    (ofLoop_lists_in_order _ _ hnodup').2 hcovers'⟩
  rw [horder.liveOut_eq]
  decide

/-- The reader without a block is not reported, because the reference into nothing is followed
first. -/
theorem ofLoop_breaks_off_torn :
    (Torn.program.listedIn Torn.loop.blocks).Nodup ∧
    (∃ i ∈ Torn.program.listedIn Torn.loop.blocks, Torn.program.ReadUnplaced i) ∧
    ofLoop Torn.program Torn.loop = .error (.fault (.noInstr ⟨7⟩)) := by
  refine ⟨by decide, ⟨⟨1⟩, by decide, ⟨4⟩, _, rfl, ?_, rfl⟩, by decide +kernel⟩
  decide

end Liveness

end Decouple
