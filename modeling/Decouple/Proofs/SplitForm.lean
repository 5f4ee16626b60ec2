import Decouple.Proofs.Availability
import Decouple.Proofs.Checking
import Decouple.Proofs.Outputs
import Decouple.Proofs.SplitChanges
import Decouple.Proofs.WorkerFlow

/-!
# Splitting keeps functions well-formed

After a split the function is as well-formed as before. The frame says how its old instructions
differ from what they were, and none of it does harm (`Loop.Frame.wellFormed`): branches and φs
have the new block to name, which is in the layout, and a φ of the exit had at most one pair from
the loop. The new block runs straight code (`StraightCode`) and goes to the exit.

A worker is sound (`Splitter.sound_of_split`). Its entry and its exit run straight code too, and
its other blocks are copies (`Worker.Body.exists_soundBlock`): they keep the terminator at the end,
name blocks of the worker, and read no parameter, since every parameter that the loop reads is a
live-in. But two predecessors of a φ may have the same block to stand for them, and then the copy of
the φ may be ambiguous.

So the check of the function finds nothing after the split, and that of a worker reports an
ambiguous φ if anything (`Splitter.split_keeps_structure`).
-/

namespace Decouple

namespace Op

theorem isTerminator_mapIncoming (f : BlockRef → BlockRef) (op : Op) :
    (op.mapIncoming f).isTerminator = op.isTerminator := by
  cases op <;> rfl

theorem incoming_of_isTerminator {op : Op} (h : op.isTerminator) : op.incoming = [] := by
  cases op with
  | phi => cases h
  | _ => rfl

end Op

/-- If the value is a parameter, then one of the function `f`. -/
def Value.IsOwn (f : FuncRef) (v : Value) : Prop :=
  ∀ owner index, v = .param owner index → owner = f

namespace Value.IsOwn

variable {f : FuncRef}

theorem int (n : Int) (ty : Ty) : IsOwn f (.int n ty) := fun _ _ heq => nomatch heq

theorem null : IsOwn f .null := fun _ _ heq => nomatch heq

theorem func (g : FuncRef) : IsOwn f (.func g) := fun _ _ heq => nomatch heq

theorem instr (i : InstrRef) : IsOwn f (.instr i) := fun _ _ heq => nomatch heq

theorem param (index : Nat) : IsOwn f (.param f index) :=
  fun _ _ heq => (Value.param.inj heq).1.symm

end Value.IsOwn

/-- The code neither ends a block nor has a φ, and all that it reads is `good`. -/
def StraightCode (good : Value → Prop) (code : List (Op × Ty)) : Prop :=
  ∀ op ty, (op, ty) ∈ code → ¬ op.isTerminator ∧ ¬ op.isPhi ∧ ∀ v ∈ op.operands, good v

namespace StraightCode

variable {good : Value → Prop} {code more : List (Op × Ty)} {layout : StructRef}
  {base : InstrRef} {next : Nat}

theorem nil : StraightCode good [] := by
  intro op ty hmem
  exact absurd hmem List.not_mem_nil

theorem cons {op : Op} {ty : Ty} (hterm : op.isTerminator = false) (hphi : op.isPhi = false)
    (hop : ∀ v ∈ op.operands, good v) (hcode : StraightCode good code) :
    StraightCode good ((op, ty) :: code) := by
  intro op' ty' hmem
  rcases List.mem_cons.1 hmem with heq | hmem
  · obtain ⟨rfl, rfl⟩ := Prod.mk.inj heq
    exact ⟨Bool.eq_false_iff.1 hterm, Bool.eq_false_iff.1 hphi, hop⟩
  · exact hcode op' ty' hmem

theorem append (h : StraightCode good code) (h' : StraightCode good more) :
    StraightCode good (code ++ more) :=
  fun op ty hmem => (List.mem_append.1 hmem).elim (h op ty) (h' op ty)

theorem storeCode {fields : List (Value × Nat)} (hbase : good (.instr base))
    (hfields : ∀ field ∈ fields, good field.1)
    (hnew : ∀ k, next ≤ k → k < next + 2 * fields.length → good (.instr ⟨k⟩)) :
    StraightCode good (storeCode layout base next fields) := by
  induction fields generalizing next with
  | nil => exact nil
  | cons field fields ih =>
      obtain ⟨hfield, hfields⟩ := List.forall_mem_cons.1 hfields
      rw [List.length_cons] at hnew
      have haddr := hnew next (Nat.le_refl _) (by omega)
      refine cons rfl rfl ?_ (cons rfl rfl ?_
        (ih hfields fun k hle hlt => hnew k (by omega) (by omega)))
      · simpa [Op.operands] using hbase
      · simpa [Op.operands] using ⟨hfield, haddr⟩

theorem loadCode {k : Nat} {types : List Ty} (hbase : good (.instr base))
    (hnew : ∀ j, next ≤ j → j < next + 2 * types.length → good (.instr ⟨j⟩)) :
    StraightCode good (loadCode layout base next k types) := by
  induction types generalizing next k with
  | nil => exact nil
  | cons ty types ih =>
      rw [List.length_cons] at hnew
      have haddr := hnew next (Nat.le_refl _) (by omega)
      refine cons rfl rfl ?_ (cons rfl rfl ?_
        (ih fun j hle hlt => hnew j (by omega) (by omega)))
      · simpa [Op.operands] using hbase
      · simpa [Op.operands] using haddr

theorem callCode {dispatch : FuncRef} {shared : InstrRef} {thread : Nat} {workers : List FuncRef}
    (hfunc : ∀ f, good (.func f)) (hint : ∀ n ty, good (.int n ty))
    (hshared : good (.instr shared)) :
    StraightCode good (callCode dispatch shared thread workers) := by
  induction workers generalizing thread with
  | nil => exact nil
  | cons worker workers ih =>
      refine cons rfl rfl ?_ ih
      simpa [Op.operands] using ⟨hfunc dispatch, hint _ _, hfunc worker, hshared⟩

theorem entryCode {exchange : Exchange} {hook? : Option FuncRef} {func : FuncRef} {types : List Ty}
    (hfunc : ∀ f, good (.func f)) (hparam : good (.param func 0))
    (hnew : ∀ i ∈ newRefs next (entryCode exchange hook? func next types).length,
      good (.instr i)) :
    StraightCode good (entryCode exchange hook? func next types) := by
  have hhook : StraightCode good (hookCode hook?) := by
    cases hook? with
    | none => exact nil
    | some hook =>
        exact cons rfl rfl (by simpa [Op.operands] using hfunc hook) nil
  have hrefs (k : Nat) (hle : next ≤ k)
      (hlt : k < next + ((hookCode hook?).length + 1 + 2 * types.length)) : good (.instr ⟨k⟩) := by
    refine hnew ⟨k⟩ (mem_newRefs_iff.2 ⟨hle, ?_⟩)
    rwa [length_entryCode]
  refine append hhook (cons rfl rfl (by simpa [Op.operands] using hparam)
    (loadCode ?_ fun j hle hlt => ?_))
  · exact hrefs _ (Nat.le_add_right _ _) (by omega)
  · simp only [argPtrAt] at hle hlt
    exact hrefs j (by omega) (by omega)

theorem exitCode {exchange : Exchange} {argPtr : InstrRef} {fields : List (Value × Nat)}
    (hargPtr : good (.instr argPtr)) (hfields : ∀ field ∈ fields, good field.1)
    (hnew : ∀ i ∈ newRefs next (exitCode exchange argPtr next fields).length, good (.instr i)) :
    StraightCode good (exitCode exchange argPtr next fields) := by
  cases fields with
  | nil => exact nil
  | cons field fields =>
      have hrefs (k : Nat) (hle : next ≤ k) (hlt : k < next + 1 + 2 * (field :: fields).length) :
          good (.instr ⟨k⟩) := by
        refine hnew ⟨k⟩ (mem_newRefs_iff.2 ⟨hle, ?_⟩)
        have hlength : (Decouple.exitCode exchange argPtr next (field :: fields)).length =
            2 * (field :: fields).length + 1 := by
          simp [Decouple.exitCode, length_storeCode]
        rw [hlength]
        simp only
        omega
      refine cons rfl rfl (by simpa [Op.operands] using hargPtr)
        (storeCode ?_ hfields fun k hle hlt => ?_)
      · exact hrefs next (Nat.le_refl _) (by omega)
      · exact hrefs k (by omega) (by omega)

/-- The code of the block in the place of a loop is straight up to its last branch. -/
theorem replacementCode {exchange : Exchange} {init dispatch join : FuncRef}
    {workers : List FuncRef} {liveIn : List Value} {types : List Ty} {exit : BlockRef}
    (hfunc : ∀ f, good (.func f)) (hint : ∀ n ty, good (.int n ty)) (hinstr : ∀ i, good (.instr i))
    (hliveIn : ∀ v ∈ liveIn, good v) :
    ∃ ops, StraightCode good ops ∧
      replacementCode exchange init dispatch join workers liveIn types exit next =
        ops ++ [(.br exit, .void)] := by
  refine ⟨_, ?_, rfl⟩
  refine append (append (cons rfl rfl (by simp [Op.operands])
    (storeCode (hinstr _) ?_ fun _ _ _ => hinstr _)) ?_) ?_
  · intro field hfield
    exact hliveIn field.1 (List.fst_mem_of_mem_zipIdx hfield)
  · refine append (cons rfl rfl ?_ (cons rfl rfl ?_ (callCode hfunc hint (hinstr _))))
      (cons rfl rfl ?_ nil)
    · simpa [Op.operands] using hfunc init
    · simpa [Op.operands] using hinstr _
    · simpa [Op.operands] using hfunc join
  · cases types with
    | nil => exact nil
    | cons ty types =>
        exact cons rfl rfl (by simpa [Op.operands] using hinstr _)
          (loadCode (hinstr _) fun _ _ _ => hinstr _)

end StraightCode

namespace Worker

variable {q : Program} {f : FuncRef} {b : BlockRef} {layout : List BlockRef} {start : Nat}
  {code : List (Op × Ty)} {last : InstrRef} {final : Op}

theorem Runs.exists_of_mem (h : Runs q b start code last final) {i : InstrRef}
    (hi : i ∈ newRefs start code.length) :
    ∃ op ty name, (op, ty) ∈ code ∧ q.instr? i = some { block := some b, op, ty, name } := by
  obtain ⟨hle, hlt⟩ := mem_newRefs_iff.1 hi
  obtain ⟨k, hk⟩ := Nat.exists_eq_add_of_le hle
  obtain rfl : i = ⟨start + k⟩ := InstrRef.ext hk
  obtain ⟨⟨op, ty⟩, hget⟩ : ∃ entry, code[k]? = some entry :=
    ⟨_, List.getElem?_eq_getElem (show k < code.length by simp only at hlt; omega)⟩
  obtain ⟨name, hinstr⟩ := h.code k op ty hget
  exact ⟨op, ty, name, List.mem_of_getElem? hget, hinstr⟩

/-- A block that runs straight code and then goes to blocks of the function is well-formed. -/
theorem Runs.wellFormedBlock (h : Runs q b start code last final)
    (howner : ∀ block, q.block? b = some block → block.func = f)
    (hcode : StraightCode (Value.IsOwn f) code) (hfinal : final.isTerminator)
    (htargets : ∀ target ∈ final.successors, target ∈ layout)
    (hparams : ∀ v ∈ final.operands, v.IsOwn f) :
    ∃ block, q.WellFormedBlock f layout b block := by
  obtain ⟨block, hblock, hlist⟩ := h.listed
  obtain ⟨finalName, hlast⟩ := h.final
  have hstraight : ∀ i ∈ newRefs start code.length, ∃ instr,
      q.WellFormedInstr f layout b i instr ∧ ¬ instr.op.isTerminator := by
    intro i hi
    obtain ⟨op, ty, name, hmem, hinstr⟩ := h.exists_of_mem hi
    obtain ⟨hterm, hphi, hown⟩ := hcode op ty hmem
    refine ⟨_, ⟨hinstr, rfl, ?_, ?_, ?_, fun owner index hmem => hown _ hmem owner index rfl⟩,
      hterm⟩
    · simp [Op.successors_of_not_isTerminator hterm]
    · simp [Op.incoming_of_not_isPhi hphi]
    · simp [Op.incoming_of_not_isPhi hphi]
  refine ⟨block, hblock, howner block hblock, ⟨_, _, hlist, ⟨_, hlast, hfinal⟩, ?_⟩, ?_⟩
  · intro i hi
    obtain ⟨instr, hwell, hterm⟩ := hstraight i hi
    exact ⟨instr, hwell.lookup, hterm⟩
  · intro i hi
    rw [hlist] at hi
    rcases List.mem_append.1 hi with hi | hi
    · obtain ⟨instr, hwell, -⟩ := hstraight i hi
      exact ⟨instr, hwell⟩
    · obtain rfl := List.mem_singleton.1 hi
      refine ⟨_, hlast, rfl, htargets, ?_, ?_,
        fun owner index hmem => hparams _ hmem owner index rfl⟩
      · simp [Op.incoming_of_isTerminator hfinal]
      · simp [Op.incoming_of_isTerminator hfinal]

end Worker

namespace Revision

variable (r : Revision) (op : Op)

theorem isTerminator_apply : (r.apply op).isTerminator = op.isTerminator := by
  rw [apply, Op.isTerminator_mapOperands, Op.isTerminator_mapIncoming,
    Op.isTerminator_mapSuccessors]

theorem successors_apply : (r.apply op).successors = op.successors.map r.successor := by
  simp [apply]

theorem operands_apply : (r.apply op).operands = op.operands.map r.operand := by
  simp [apply]

theorem incoming_apply :
    (r.apply op).incoming = op.incoming.map fun pair => (r.operand pair.1, r.pred pair.2) := by
  simp [apply, Op.incoming_mapOperands]

end Revision

namespace Loop

open Program

variable {loop : Loop} {p q : Program} {f : FuncRef} {func : Func} {outs : List InstrRef}
  {i : InstrRef} {instr : Instr} {b : BlockRef} {layout : List BlockRef} {r : Revision}

/-- A block of a well-formed function is not the next one to come. -/
theorem not_mem_of_wellFormed (h : p.WellFormed f func) : ⟨p.blocks.size⟩ ∉ func.blocks := by
  intro hmem
  obtain ⟨block, hblock⟩ := h.blocks _ hmem
  exact Nat.lt_irrefl _ (Array.getElem?_eq_some_iff.1 hblock.lookup).1

/-- A revision does no harm to a well-formed instruction if the exit has no φ with two pairs from
the loop. -/
theorem Retouches.wellFormedInstr (h : loop.Retouches p f outs q i r)
    (hwell : p.WellFormedInstr f func.blocks b i instr) (hfresh : ⟨p.blocks.size⟩ ∉ func.blocks)
    (hphis : p.Lists loop.exit i → instr.op.incoming.countP (fun pair => pair.2 ∈ loop) ≤ 1)
    (hold : ∀ b ∈ func.blocks, b ∈ layout) (hnew : ⟨p.blocks.size⟩ ∈ layout)
    (hlookup : q.instr? i = some { instr with op := r.apply instr.op }) :
    q.WellFormedInstr f layout b i { instr with op := r.apply instr.op } where
  lookup := hlookup
  placed := hwell.placed
  targets := by
    intro target htarget
    rw [Revision.successors_apply] at htarget
    obtain ⟨target, hmem, rfl⟩ := List.mem_map.1 htarget
    rcases h.successor target with hkept | ⟨-, hmoved⟩
    · exact hkept.symm ▸ hold target (hwell.targets target hmem)
    · exact hmoved.symm ▸ hnew
  preds := by
    intro pair hpair
    rw [Revision.incoming_apply] at hpair
    obtain ⟨pair, hmem, rfl⟩ := List.mem_map.1 hpair
    rcases h.pred pair.2 with hkept | ⟨-, -, hmoved⟩
    · exact hkept.symm ▸ hold pair.2 (hwell.preds pair hmem)
    · exact hmoved.symm ▸ hnew
  unambiguous := by
    intro pair hpair other hother heq
    rw [Revision.incoming_apply] at hpair hother
    obtain ⟨pair, hmem, rfl⟩ := List.mem_map.1 hpair
    obtain ⟨other, hmem', rfl⟩ := List.mem_map.1 hother
    -- no old block is the new one, so both pairs are kept or both come from the loop
    have hne : ∀ pair ∈ instr.op.incoming, pair.2 ≠ ⟨p.blocks.size⟩ :=
      fun pair hpair heq => hfresh (heq ▸ hwell.preds pair hpair)
    rcases h.pred pair.2 with hkept | ⟨hexit, hin, hmoved⟩ <;>
      rcases h.pred other.2 with hkept' | ⟨hexit', hin', hmoved'⟩
    · exact congrArg r.operand (hwell.unambiguous pair hmem other hmem'
        (hkept.symm.trans (heq.trans hkept')))
    · exact absurd (hkept.symm.trans (heq.trans hmoved')) (hne pair hmem)
    · exact absurd (hkept'.symm.trans (heq.symm.trans hmoved)) (hne other hmem')
    · rw [eq_of_countP_le_one (hphis hexit) hmem hmem' (decide_eq_true hin) (decide_eq_true hin')]
  params := by
    intro owner index hmem
    rw [Revision.operands_apply] at hmem
    obtain ⟨v, hv, heq⟩ := List.mem_map.1 hmem
    rcases h.operand v with hkept | ⟨out, -, load, -, hload, -⟩
    · exact hwell.params owner index (hkept.symm.trans heq ▸ hv)
    · cases hload.symm.trans heq

namespace Frame

/-- What an instruction of the function is in the frame. -/
theorem exists_wellFormedInstr (h : loop.Frame p f outs q)
    (hwell : p.WellFormedInstr f func.blocks b i instr) (hfresh : ⟨p.blocks.size⟩ ∉ func.blocks)
    (hphis : p.Lists loop.exit i → instr.op.incoming.countP (fun pair => pair.2 ∈ loop) ≤ 1)
    (hold : ∀ b ∈ func.blocks, b ∈ layout) (hnew : ⟨p.blocks.size⟩ ∈ layout) :
    ∃ instr', q.WellFormedInstr f layout b i instr' ∧
      instr'.op.isTerminator = instr.op.isTerminator := by
  rcases h.instrs i instr hwell.lookup with hkept | ⟨r, hr, hrevised⟩
  · exact ⟨instr, ⟨hkept, hwell.placed, fun t ht => hold t (hwell.targets t ht),
      fun pair hpair => hold pair.2 (hwell.preds pair hpair), hwell.unambiguous, hwell.params⟩, rfl⟩
  · exact ⟨_, hr.wellFormedInstr hwell hfresh hphis hold hnew hrevised,
      r.isTerminator_apply instr.op⟩

/-- A block of the function stays well-formed in the frame, in a layout with the new block. -/
theorem exists_wellFormedBlock (h : loop.Frame p f outs q) (hwell : p.WellFormed f func)
    (hphis : ∀ i, p.Lists loop.exit i → ∃ instr, p.instr? i = some instr ∧
      instr.op.incoming.countP (fun pair => pair.2 ∈ loop) ≤ 1)
    (hold : ∀ b ∈ func.blocks, b ∈ layout) (hnew : ⟨p.blocks.size⟩ ∈ layout)
    (hb : b ∈ func.blocks) : ∃ block, q.WellFormedBlock f layout b block := by
  obtain ⟨block, hblock⟩ := hwell.blocks b hb
  have hinstr : ∀ i ∈ block.instrs, ∀ instr, p.instr? i = some instr → ∃ instr',
      q.WellFormedInstr f layout b i instr' ∧
        instr'.op.isTerminator = instr.op.isTerminator := by
    intro i hi instr hlookup
    obtain ⟨instr', hwellInstr⟩ := hblock.instrs i hi
    obtain rfl := Option.some.inj (hlookup.symm.trans hwellInstr.lookup)
    refine h.exists_wellFormedInstr hwellInstr (not_mem_of_wellFormed hwell) (fun hexit => ?_)
      hold hnew
    obtain ⟨instr', hsame, hcount⟩ := hphis i hexit
    exact Option.some.inj (hsame.symm.trans hlookup) ▸ hcount
  obtain ⟨init, last, hlist, ⟨closing, hclosing, hterm⟩, hinit⟩ := hblock.terminated
  refine ⟨block, h.blocks b block hblock.lookup, hblock.owner,
    ⟨init, last, hlist, ?_, fun i hi => ?_⟩, fun i hi => ?_⟩
  · obtain ⟨instr', hinstr', hsame⟩ := hinstr last (by simp [hlist]) closing hclosing
    exact ⟨instr', hinstr'.lookup, hsame.trans hterm⟩
  · obtain ⟨instr, hlookup, hterm⟩ := hinit i hi
    obtain ⟨instr', hinstr', hsame⟩ := hinstr i (by simp [hlist, hi]) instr hlookup
    exact ⟨instr', hinstr'.lookup, hsame ▸ hterm⟩
  · obtain ⟨instr, hwellInstr⟩ := hblock.instrs i hi
    obtain ⟨instr', hinstr', -⟩ := hinstr i hi instr hwellInstr.lookup
    exact ⟨instr', hinstr'⟩

/-- The function stays well-formed in the frame if the new block is. -/
theorem wellFormed (h : loop.Frame p f outs q) (hwell : p.WellFormed f func)
    (hphis : ∀ i, p.Lists loop.exit i → ∃ instr, p.instr? i = some instr ∧
      instr.op.incoming.countP (fun pair => pair.2 ∈ loop) ≤ 1)
    (hblock : ∀ layout, loop.exit ∈ layout →
      ∃ block, q.WellFormedBlock f layout ⟨p.blocks.size⟩ block) :
    ∃ func', q.WellFormed f func' := by
  obtain ⟨func', before, after, hfunc', hlayout, -, hlookup⟩ := h.layout
  obtain rfl := Option.some.inj (hwell.lookup.symm.trans hfunc')
  have hperm : (before ++ ⟨p.blocks.size⟩ :: loop.exit :: after).Perm
      (⟨p.blocks.size⟩ :: func.blocks) := hlayout ▸ List.perm_middle
  refine ⟨_, hlookup, fun hexternal => ?_, by simp,
    hperm.nodup_iff.2 (List.nodup_cons.2 ⟨not_mem_of_wellFormed hwell, hwell.nodup⟩),
    fun b hb => ?_⟩
  · rw [hwell.declaration hexternal] at hlayout
    simp at hlayout
  · rcases List.mem_cons.1 (hperm.mem_iff.1 hb) with rfl | hb
    · exact hblock _ (by simp)
    · exact h.exists_wellFormedBlock hwell hphis
        (fun b hb => hperm.mem_iff.2 (List.mem_cons_of_mem _ hb)) (by simp) hb

end Frame

end Loop

namespace Worker

variable {s : Setting} {p q : Program} {f : FuncRef} {func wfunc : Func} {workers : List Worker}
  {blocks : List BlockRef} {here : BlockRef → List (InstrRef × InstrRef)} {σ : Renaming}
  {w : Worker} {b copy : BlockRef} {pair : InstrRef × InstrRef}

section Linked

variable {exchange : Exchange} {hook? : Option FuncRef} {types : List Ty}
  {fields : List (Value × Nat)} {start start' : Nat}

/-- What the worker reads instead of a live-in is loaded in its entry, and what it reads instead of
another value is a copy. -/
theorem Linked.cases_of_substitution (h : Linked s exchange hook? types fields start start' w q)
    {v u : Value}
    (hu : (w.substitution s.live.liveIn (argPtrAt hook? start))[v]? = some u) :
    (v ∈ s.live.liveIn ∧
      ∃ i ∈ newRefs start (entryCode exchange hook? w.func start types).length, u = .instr i) ∨
    (v ∉ s.live.liveIn ∧ ∃ pair ∈ w.copies, v = .instr pair.1 ∧ u = .instr pair.2) := by
  by_cases hv : v ∈ s.live.liveIn
  · obtain ⟨k, hk, hlookup⟩ := loadRenaming_of_mem hv
    refine .inl ⟨hv, _, ?_, Option.some.inj (hu.symm.trans hlookup)⟩
    have hlt : k < types.length := by
      rw [Program.length_of_valueTypes h.types_eq]
      exact (List.getElem?_eq_some_iff.1 hk).1
    rw [mem_newRefs_iff, length_entryCode, argPtrAt]
    simp only
    omega
  · rw [substitution, loadRenaming_of_not_mem hv] at hu
    exact .inr ⟨hv, exists_of_copyRenaming hu⟩

theorem Linked.exists_of_mem_fields (h : Linked s exchange hook? types fields start start' w q)
    {field : Value × Nat} (hfield : field ∈ fields) : ∃ i, field.1 = .instr i := by
  obtain ⟨out, -, hvalue, -⟩ := exists_of_forall₂_of_mem h.stored hfield
  rcases h.cases_of_substitution hvalue with ⟨-, i, -, hi⟩ | ⟨-, pair, -, -, hpair⟩
  · exact ⟨i, hi⟩
  · exact ⟨pair.2, hpair⟩

theorem Linked.wellFormedBlock_entry (h : Linked s exchange hook? types fields start start' w q)
    (howner : ∀ block, q.block? w.entry = some block → block.func = w.func)
    {layout : List BlockRef}
    (hlayout : ∀ b copy : BlockRef, w.blockMap[b]? = some copy → copy ∈ layout) :
    ∃ block, q.WellFormedBlock w.func layout w.entry block := by
  obtain ⟨header, last, hheader, hruns⟩ := h.entry
  refine hruns.wellFormedBlock howner (.entryCode ?_ ?_ ?_) rfl ?_ (by simp [Op.operands])
  · exact .func
  · exact .param 0
  · exact fun i _ => .instr i
  · simpa [Op.successors] using hlayout _ header hheader

theorem Linked.wellFormedBlock_exit (h : Linked s exchange hook? types fields start start' w q)
    (howner : ∀ block, q.block? w.exit = some block → block.func = w.func)
    (layout : List BlockRef) : ∃ block, q.WellFormedBlock w.func layout w.exit block := by
  obtain ⟨last, hruns⟩ := h.exit
  refine hruns.wellFormedBlock howner (.exitCode ?_ (fun field hfield => ?_) ?_) rfl
    (by simp [Op.successors]) ?_
  · exact .instr _
  · obtain ⟨i, hi⟩ := h.exists_of_mem_fields hfield
    exact hi ▸ .instr i
  · exact fun i _ => .instr i
  · simpa [Op.operands] using Value.IsOwn.null

end Linked

namespace Body

/-- A copy reads no parameter, since every parameter that the loop reads is a live-in. -/
theorem isOwn_rename (h : Body s p blocks here σ w q) (hlive : s.live.Describes p s.loop)
    {i : InstrRef} {instr : Instr} (hi : i ∈ p.listedIn s.loop.blocks)
    (hinstr : p.instr? i = some instr) {v : Value} (hv : v ∈ instr.op.operands) :
    (σ.rename v).IsOwn w.func := by
  obtain ⟨_, _, _, _, _, _, _, -, -, -, -, -, hloaded⟩ := h.ends
  intro owner index heq
  rw [Renaming.rename] at heq
  by_cases hin : v ∈ s.live.liveIn
  · obtain ⟨e, -, he⟩ := hloaded v hin
    rw [he] at heq
    cases heq
  · cases hu : σ[v]? with
    | none =>
        rw [hu, Option.getD_none] at heq
        subst heq
        have hforeign : s.live.Foreign (.param owner index) := fun _ hparam => by cases hparam
        exact absurd ((hlive.mem_liveIn_iff _).2 ⟨rfl, hforeign, i, hi, instr, hinstr, hv⟩) hin
    | some u =>
        obtain ⟨_, -, pair, -, -, rfl⟩ := h.renamed v u hin hu
        rw [hu] at heq
        cases heq

/-- A copy is sound: the blocks that it names stand for blocks that the loop names. -/
theorem exists_soundInstr (h : Body s p blocks here σ w q)
    (hinto : Splitter.SplitInto s p func workers q) (hwell : p.WellFormed f func)
    (hloop : ∀ b ∈ s.loop, b ∈ func.blocks) (hwfunc : q.func? w.func = some wfunc)
    (hb : b ∈ blocks) (hcopy : w.blockMap[b]? = some copy) (hpair : pair ∈ here b) :
    ∃ instr instr', p.instr? pair.1 = some instr ∧
      q.SoundInstr w.func wfunc.blocks copy pair.2 instr' ∧
      instr'.op.isTerminator = instr.op.isTerminator := by
  obtain ⟨block, hblock⟩ := hwell.blocks b (hloop b (h.mem_loop hb))
  have hlisted : pair.1 ∈ p.listedIn s.loop.blocks := by
    have hmem : pair.1 ∈ block.instrs.filter (takes s p w.thread) :=
      h.sources b hb block hblock.lookup ▸ List.mem_map_of_mem hpair
    exact Program.mem_listedIn_iff.2
      ⟨b, h.mem_loop hb, block, hblock.lookup, (List.mem_filter.1 hmem).1⟩
  obtain ⟨entry, hentry⟩ : ∃ entry, func.blocks.head? = some entry :=
    Option.isSome_iff_exists.1 (by simpa using List.ne_nil_of_mem hinto.exit_mem)
  obtain ⟨instr, name, hinstr, hplaced, hlookup⟩ := h.copies b hb copy hcopy pair hpair
  refine ⟨instr, _, hinstr, ⟨hlookup, rfl, ?_, ?_, ?_⟩, ?_⟩
  · intro target htarget
    rw [Op.successors_mapOperands, copied, Op.successors_mapIncoming,
      Op.successors_mapSuccessors] at htarget
    obtain ⟨t, ht, rfl⟩ := List.mem_map.1 htarget
    obtain ⟨-, c, hc, -⟩ := copyOfTarget_eq_ok hinto.postDom (hplaced.targets t ht)
    exact h.mem_layout hwfunc hc
  · intro named hnamed
    rw [Op.incoming_mapOperands, copied, Op.incoming_mapIncoming, Op.incoming_mapSuccessors,
      List.map_map] at hnamed
    obtain ⟨source, hsource, rfl⟩ := List.mem_map.1 hnamed
    obtain ⟨c, hc, -⟩ := copyOfPred_eq_ok hinto.dom hentry (hplaced.preds source hsource)
    exact h.mem_layout hwfunc hc
  · intro owner index hmem
    rw [Op.operands_mapOperands, operands_copied] at hmem
    obtain ⟨v, hv, heq⟩ := List.mem_map.1 hmem
    exact h.isOwn_rename hinto.live hlisted hinstr hv owner index heq
  · rw [Op.isTerminator_mapOperands, copied, Op.isTerminator_mapIncoming,
      Op.isTerminator_mapSuccessors]

/-- A copied block is sound: the terminator is copied for every thread, and it stays at the end. -/
theorem exists_soundBlock (h : Body s p blocks here σ w q)
    (hinto : Splitter.SplitInto s p func workers q) (hwell : p.WellFormed f func)
    (hloop : ∀ b ∈ s.loop, b ∈ func.blocks) (hwfunc : q.func? w.func = some wfunc)
    (howner : ∀ block, q.block? copy = some block → block.func = w.func)
    (hb : b ∈ blocks) (hcopy : w.blockMap[b]? = some copy) :
    ∃ block, q.SoundBlock w.func wfunc.blocks copy block := by
  obtain ⟨block, hblock⟩ := hwell.blocks b (hloop b (h.mem_loop hb))
  obtain ⟨block', hblock', hlist'⟩ := h.listed b hb copy hcopy
  obtain ⟨init, last, hlist, ⟨closing, hclosing, hterm⟩, hinit⟩ := hblock.terminated
  have htakes : takes s p w.thread last = true := by simp [takes, hclosing, hterm]
  have hsources := h.sources b hb block hblock.lookup
  rw [hlist, List.filter_append, List.filter_singleton, htakes, cond_true] at hsources
  obtain ⟨pairs, ends, hhere, hpairs, hends⟩ := List.map_eq_append_iff.1 hsources
  obtain ⟨final, rfl, rfl⟩ := List.map_eq_singleton_iff.1 hends
  have hsound : ∀ pair ∈ here b, ∃ instr instr', p.instr? pair.1 = some instr ∧
      q.SoundInstr w.func wfunc.blocks copy pair.2 instr' ∧
      instr'.op.isTerminator = instr.op.isTerminator :=
    fun pair hpair => h.exists_soundInstr hinto hwell hloop hwfunc hb hcopy hpair
  refine ⟨block', hblock', howner block' hblock',
    ⟨pairs.map Prod.snd, final.2, by simp [hlist', hhere], ?_, ?_⟩, ?_⟩
  · obtain ⟨instr, instr', hinstr, hinstr', hsame⟩ := hsound final (by simp [hhere])
    obtain rfl := Option.some.inj (hclosing.symm.trans hinstr)
    exact ⟨instr', hinstr'.lookup, hsame.trans hterm⟩
  · intro i hi
    obtain ⟨pair, hpair, rfl⟩ := List.mem_map.1 hi
    obtain ⟨instr, instr', hinstr, hinstr', hsame⟩ := hsound pair (by simp [hhere, hpair])
    have hmem : pair.1 ∈ init := (List.mem_filter.1 (hpairs ▸ List.mem_map_of_mem hpair)).1
    obtain ⟨source, hsource, hnot⟩ := hinit pair.1 hmem
    obtain rfl := Option.some.inj (hsource.symm.trans hinstr)
    exact ⟨instr', hinstr'.lookup, hsame ▸ hnot⟩
  · intro i hi
    rw [hlist'] at hi
    obtain ⟨pair, hpair, rfl⟩ := List.mem_map.1 hi
    obtain ⟨-, instr', -, hinstr', -⟩ := hsound pair hpair
    exact ⟨instr', hinstr'⟩

end Body

end Worker

namespace Splitter

open Outcome

variable {p q : Program} {f : FuncRef} {func : Func} {loop : Loop} {deps : Dependences}
  {plan : Plan} {splitter splitter' : Splitter} {result : Split} {s : Setting} {d : Dispatch}
  {code : List (Op × Ty)} {between : Program}

namespace Passes

/-- The block in the place of the loop is well-formed. -/
theorem exists_wellFormedBlock (h : Passes s p func d code between q result)
    (hwell : p.WellFormed s.func func) (hloop : ∀ b ∈ s.loop, b ∈ func.blocks)
    (layout : List BlockRef) (hexit : s.loop.exit ∈ layout) :
    ∃ block, q.WellFormedBlock s.func layout ⟨p.blocks.size⟩ block := by
  obtain ⟨init, dispatch, join, types, -, hcode⟩ := h.installed.code_eq
  have hliveIn : ∀ v ∈ s.live.liveIn, v.IsOwn s.func := by
    intro v hv owner index heq
    obtain ⟨-, -, i, hi, instr, hinstr, hoperand⟩ := (h.live.mem_liveIn_iff v).1 hv
    obtain ⟨b, hb, hlists⟩ := Program.mem_listedIn_iff.1 hi
    obtain ⟨instr', hinstr'⟩ := hwell.instr_of_lists (hloop b hb) hlists
    obtain rfl := Option.some.inj (hinstr.symm.trans hinstr'.lookup)
    exact hinstr'.params owner index (heq ▸ hoperand)
  obtain ⟨ops, hstraight, hops⟩ : ∃ ops, StraightCode (Value.IsOwn s.func) ops ∧
      code = ops ++ [(.br s.loop.exit, .void)] := by
    rw [hcode]
    exact StraightCode.replacementCode .func .int .instr hliveIn
  subst hops
  have hblock := h.larger.block?_kept h.installed.block?_new
  -- no block lists a reference that was not taken before, so that nothing is renamed
  have hinstr : ∀ k op ty, (ops ++ [(.br s.loop.exit, .void)])[k]? = some (op, ty) → ∃ name,
      q.instr? ⟨p.instrs.size + k⟩ = some { block := some d.block, op, ty, name } := by
    intro k op ty hk
    obtain ⟨name, hname⟩ := h.installed.instr?_new k op ty hk
    rw [Dispatch.count_outside_eq_zero] at hname
    · exact ⟨name, h.larger.instr?_kept hname⟩
    · rintro b hb - hlists
      obtain ⟨instr, hinstr⟩ := hwell.instr_of_lists hb hlists
      have hlt := (Array.getElem?_eq_some_iff.1 hinstr.lookup).1
      simp only at hlt
      omega
  have hruns : Worker.Runs q ⟨p.blocks.size⟩ p.instrs.size ops ⟨p.instrs.size + ops.length⟩
      (.br s.loop.exit) := by
    rw [← h.installed.block_eq]
    refine ⟨⟨_, hblock, ?_⟩, fun k op ty hk => hinstr k op ty ?_, ?_⟩
    · rw [List.length_append, newRefs_add]
      rfl
    · rw [List.getElem?_append_left (List.getElem?_eq_some_iff.1 hk).1, hk]
    · exact hinstr ops.length _ _ List.getElem?_concat_length
  refine hruns.wellFormedBlock (fun block hblock' => ?_) hstraight rfl ?_ (by simp [Op.operands])
  · rw [h.installed.block_eq] at hblock
    obtain rfl := Option.some.inj (hblock.symm.trans hblock')
    rfl
  · simpa [Op.successors] using hexit

end Passes

/-- The workers are sound functions. -/
theorem sound_of_split (hwell : p.WellFormed f func) (hnodup : loop.blocks.Nodup)
    (hloop : ∀ b ∈ loop, b ∈ func.blocks)
    (h : splitter.split p f loop deps plan = (.ok result, splitter', q)) :
    ∀ w ∈ result.workers, ∃ wfunc, q.Sound w.func wfunc := by
  intro w hw
  obtain ⟨-, wfunc, hwfunc, hbody⟩ := isNewBody_of_split h w hw
  obtain ⟨s, rfl, rfl, -, rfl, hinto⟩ := splitInto_of_split hwell hnodup hloop h
  obtain ⟨blocks, here, σ, hwritten⟩ := hinto.exists_body hw
  obtain ⟨s', func', d, code, between, -, -, -, hpasses⟩ := passes_of_split h
  obtain ⟨_, -, -, hook?, types, fields, start, start', hlinked⟩ :=
    exists_of_forall₂_of_mem hpasses.workers hw
  obtain ⟨wfunc', hwfunc', harranged⟩ := hwritten.layout
  obtain rfl := Option.some.inj (hwfunc.symm.trans hwfunc')
  have howner : ∀ b ∈ wfunc.blocks, ∀ block, q.block? b = some block → block.func = w.func := by
    intro b hb block hblock
    obtain ⟨block', hblock', hfunc⟩ := houses_of_split h w hw wfunc hwfunc b hb
    exact Option.some.inj (hblock'.symm.trans hblock) ▸ hfunc
  refine ⟨wfunc, hwfunc, hbody, List.ne_nil_of_mem harranged.exit_mem, harranged.nodup, ?_⟩
  intro c hc
  rcases harranged.cases hc with rfl | rfl | ⟨b, hb, hcopy⟩
  · obtain ⟨block, hblock⟩ := hlinked.wellFormedBlock_entry (howner _ hc)
      fun _ _ hmap => hwritten.mem_layout hwfunc hmap
    exact ⟨block, hblock.sound⟩
  · obtain ⟨block, hblock⟩ := hlinked.wellFormedBlock_exit (howner _ hc) wfunc.blocks
    exact ⟨block, hblock.sound⟩
  · exact hwritten.exists_soundBlock hinto hwell hloop hwfunc (howner c hc) hb hcopy

/-- After a split the function passes the check as before, and the check of a worker reports an
ambiguous φ or nothing. -/
theorem split_keeps_structure
    (h : splitter.split p f loop deps plan = (.ok result, splitter', q))
    (hfunc : p.func? f = some func) (hcheck : p.check f = .ok ()) (hnodup : loop.blocks.Nodup)
    (hloop : ∀ b ∈ loop, b ∈ func.blocks) :
    q.check f = .ok () ∧ result.workers.length = plan.threads ∧
      ∀ w ∈ result.workers, ∃ wfunc, q.func? w.func = some wfunc ∧ ¬ wfunc.external ∧
        (q.check w.func = .ok () ∨
          ∃ failure, q.check w.func = .error failure ∧ q.ReportsPhi wfunc failure) := by
  obtain ⟨func', hwell⟩ := Program.wellFormed_of_check hcheck
  obtain rfl := Option.some.inj (hfunc.symm.trans hwell.lookup)
  obtain ⟨s, rfl, rfl, -, rfl, hinto⟩ := splitInto_of_split hwell hnodup hloop h
  refine ⟨?_, ?_, fun w hw => ?_⟩
  · have hanswer : IsAnswer (.ok result) := fun fault hfault => nomatch hfault
    rcases evolves_of_split hanswer h with rfl | ⟨live, -, hevolves⟩
    · exact hcheck
    · rcases Loop.frame_of_evolves hevolves with rfl | hframe
      · exact hcheck
      · obtain ⟨s', func', d, code, between, hfunc', hloop', -, hpasses⟩ := passes_of_split h
        obtain rfl := Option.some.inj (hfunc.symm.trans (hfunc' ▸ hpasses.installed.lookup))
        obtain ⟨func', hwell'⟩ := hframe.wellFormed hwell hinto.exitPhis fun layout hexit =>
          hfunc' ▸ hpasses.exists_wellFormedBlock (hfunc'.symm ▸ hwell) (hloop'.symm ▸ hloop)
            layout (hloop'.symm ▸ hexit)
        exact hwell'.check_eq_ok
  · simpa using congrArg List.length hinto.map_thread
  · obtain ⟨wfunc, hsound⟩ := sound_of_split hwell hnodup hloop h w hw
    refine ⟨wfunc, hsound.lookup, hsound.internal, ?_⟩
    cases hresult : q.check w.func with
    | ok => exact .inl rfl
    | error failure => exact .inr ⟨failure, rfl, hsound.failsOnly_check failure hresult⟩

/-- The function that counts passes the check after its split, also if the split makes none. -/
theorem split_keeps_structure_counting :
    ∃ result splitter' q,
      (ofConfig { Config.standard with verify := false }).split Counting.program ⟨0⟩ Counting.loop
        Counting.setting.deps Counting.setting.plan = (.ok result, splitter', q) ∧
      Counting.program.check ⟨0⟩ = .ok () ∧ q.check ⟨0⟩ = .ok () ∧ result.workers.length = 2 ∧
      ∀ w ∈ result.workers, ∃ wfunc, q.func? w.func = some wfunc ∧ ¬ wfunc.external ∧
        (q.check w.func = .ok () ∨
          ∃ failure, q.check w.func = .error failure ∧ q.ReportsPhi wfunc failure) := by
  have hok : ((ofConfig { Config.standard with verify := false }).split Counting.program ⟨0⟩
      Counting.loop Counting.setting.deps Counting.setting.plan).1.isOk = true := by
    decide +kernel
  obtain ⟨result, splitter', q, hsplit⟩ := exists_of_isOk hok
  have hcheck : Counting.program.check ⟨0⟩ = .ok () := by decide +kernel
  have hfunc : Counting.program.func? ⟨0⟩ = some Counting.func := rfl
  exact ⟨result, splitter', q, hsplit, hcheck,
    split_keeps_structure hsplit hfunc hcheck (by decide) (by decide)⟩

end Splitter

end Decouple
