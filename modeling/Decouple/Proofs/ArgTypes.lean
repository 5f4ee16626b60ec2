import Decouple.Proofs.Code
import Decouple.Proofs.Splitting

/-!
# The types of live-ins hold good

When the structure of the arguments is declared it gets a field for each live-in, of the type
that the live-in has (`Exchange.Fits`). A worker that loads a live-in finds that field, and the
live-in still has the type (`Worker.steady_loadArgs`), since no step between the two changes a
type. Thus no loop is refused for the type of a live-in (`Splitter.calm_split`), and splitting a
loop leaves all types as they were (`Splitter.steady_splitIn`).
-/

namespace Decouple

open Outcome Edit Steady

variable {extra : Failure → Prop}

namespace Program

variable (p : Program)

theorem calm_firstTerminator (is : List InstrRef) : Calm extra (p.firstTerminator is) := by
  induction is with
  | nil => simp [firstTerminator]
  | cons i is ih => simp [firstTerminator, ih]

theorem calm_checkTargets (func : Func) (block : Block) (targets : List BlockRef) :
    Calm extra (p.checkTargets func block targets) := by
  unfold checkTargets
  split <;> simp

theorem calm_checkIncoming (func : Func) (i : InstrRef) (incoming : List (Value × BlockRef)) :
    Calm extra (p.checkIncoming func i incoming) := by
  unfold checkIncoming
  split
  · simp
  · split <;> simp

theorem calm_checkParams (f : FuncRef) (func : Func) (i : InstrRef) (values : List Value) :
    Calm extra (p.checkParams f func i values) := by
  induction values with
  | nil => simp [checkParams]
  | cons v values ih => cases v <;> simp [checkParams, ih]

theorem calm_checkInstr (f : FuncRef) (func : Func) (b : BlockRef) (block : Block)
    (i : InstrRef) : Calm extra (p.checkInstr f func b block i) := by
  simp [checkInstr, calm_checkTargets, calm_checkIncoming, calm_checkParams]

theorem calm_checkBlock (f : FuncRef) (func : Func) (b : BlockRef) :
    Calm extra (p.checkBlock f func b) := by
  refine FailsOnly.bind (p.calm_block b) fun block _ =>
    FailsOnly.ite_iff.2 ⟨fun _ => by simp, fun _ => ?_⟩
  split
  · simp
  · refine FailsOnly.bind (p.calm_instr _) fun instr _ =>
      FailsOnly.ite_iff.2 ⟨fun _ => by simp, fun _ => ?_⟩
    refine FailsOnly.bind (p.calm_firstTerminator _) fun early? _ => ?_
    split
    · simp
    · exact FailsOnly.forM fun i _ => p.calm_checkInstr f func b block i

theorem calm_check (f : FuncRef) : Calm extra (p.check f) := by
  simp [check, FailsOnly.forM, calm_checkBlock]

theorem calm_typeText (ty : Ty) : Calm extra (p.typeText ty) := by
  cases ty <;> simp [typeText]

theorem calm_valueText (v : Value) : Calm extra (p.valueText v) := by
  cases v <;> simp [valueText, calm_typeText]

theorem calm_opText (ty : Ty) (op : Op) : Calm extra (p.opText ty op) := by
  unfold opText
  split <;> simp [valuesText, labelText, FailsOnly.mapM, calm_valueText, calm_typeText]

theorem calm_instrText (i : InstrRef) : Calm extra (p.instrText i) := by
  simp [instrText, calm_opText]

theorem calm_funcText (f : FuncRef) : Calm extra (p.funcText f) := by
  simp [funcText, blockText, FailsOnly.mapM, calm_typeText, calm_instrText]

end Program

theorem Setting.calm_log (s : Setting) (p : Program) (f : FuncRef) : Calm extra (s.log p f) :=
  FailsOnly.ite_iff.2 ⟨fun _ => FailsOnly.map_iff.2 (p.calm_funcText f), fun _ => FailsOnly.ok ()⟩

namespace Liveness

variable (p : Program) (loop : Loop)

theorem calm_escapes (i : InstrRef) (readers : List InstrRef) :
    Calm (·.isEarly) (escapes p loop i readers) := by
  induction readers with
  | nil => simp [escapes]
  | cons reader readers ih =>
      refine FailsOnly.bind (p.calm_instr reader) fun instr _ => ?_
      split <;> simp [ih]

theorem calm_overLoop {step : Liveness → InstrRef → Except Failure Liveness}
    (hstep : ∀ live i, Calm extra (step live i)) (live : Liveness) :
    Calm extra (overLoop p loop step live) := by
  refine FailsOnly.foldlM (fun b _ live => ?_) live
  simp [FailsOnly.foldlM, hstep]

theorem calm_ofLoop : Calm (·.isEarly) (ofLoop p loop) := by
  simp [ofLoop, calm_overLoop, addInstr, addOperands, calm_escapes]

end Liveness

namespace Dominance

theorem calm_settled (parents? : Option (Array (Option Nat))) : Calm extra (settled parents?) := by
  unfold settled
  split <;> simp

theorem calm_ofFunc (p : Program) (f : FuncRef) : Calm extra (ofFunc p f) := by
  simp [ofFunc, FlowGraph.ofFunc, FailsOnly.mapM, domTree, postDomTree, calm_settled]

end Dominance

namespace Exchange

variable {exchange : Exchange} {liveIn : List Value} {liveOut : List InstrRef} {p q : Program}

theorem calm_field (k : Nat) : Calm extra (field k) := by
  simp [field]

/-- The structures have a field for each value that is exchanged, of the type that the value
has in the program, and the outputs come last in the arguments. -/
structure Fits (exchange : Exchange) (liveIn : List Value) (liveOut : List InstrRef)
    (p : Program) : Prop where
  outField_eq : exchange.outField = liveIn.length
  args : ∃ name types, p.valueTypes liveIn = .ok types ∧
    p.structTy? exchange.args = some { name, fields := types ++ [.struct exchange.outs] }
  outs : ∃ name types, p.valueTypes (liveOut.map .instr) = .ok types ∧
    p.structTy? exchange.outs = some { name, fields := types }

theorem Fits.keep (h : exchange.Fits liveIn liveOut p) (hkeeps : p.KeepsTypes q) :
    exchange.Fits liveIn liveOut q := by
  obtain ⟨name, types, htypes, hargs⟩ := h.args
  obtain ⟨name', types', htypes', houts⟩ := h.outs
  exact ⟨h.outField_eq,
    ⟨name, types, hkeeps.valueTypes_eq_ok htypes, hkeeps.structTy? _ _ hargs⟩,
    ⟨name', types', hkeeps.valueTypes_eq_ok htypes', hkeeps.structTy? _ _ houts⟩⟩

theorem steady_declare (loopId : Nat) : Steady extra (declare loopId liveIn liveOut) p := by
  refine get_bind (answer_bind (by simp) fun outTypes _ => ?_)
  refine bind_forall (steady_addStruct _ _) fun outs _ => ?_
  refine answer_bind (by simp) fun argTypes _ => answer_bind (calm_field _) fun outField _ => ?_
  exact bind_forall (steady_addStruct _ _) fun args _ => of_pure _

theorem structTy?_of_addStruct {name : String} {fields : List Ty} {layout : StructRef}
    (h : (addStruct name fields).apply p = (.ok layout, q)) :
    q.structTy? layout = some { name, fields } := by
  obtain ⟨rfl, rfl⟩ := addStruct_eq_ok h
  exact Array.getElem?_push_size

theorem fits_of_declare {loopId : Nat}
    (h : (declare loopId liveIn liveOut).apply p = (.ok exchange, q)) :
    exchange.Fits liveIn liveOut q := by
  unfold declare at h
  rw [get_bind_eq_ok_iff] at h
  obtain ⟨outTypes, p', hlookup, h⟩ := apply_bind_eq_ok_iff.1 h
  obtain ⟨hout, rfl⟩ := liftM_eq_ok_iff.1 hlookup
  obtain ⟨outs, p₁, houts, h⟩ := apply_bind_eq_ok_iff.1 h
  obtain ⟨argTypes, p', hlookup, h⟩ := apply_bind_eq_ok_iff.1 h
  obtain ⟨hin, rfl⟩ := liftM_eq_ok_iff.1 hlookup
  obtain ⟨outField, p', hlookup, h⟩ := apply_bind_eq_ok_iff.1 h
  obtain ⟨hfield, rfl⟩ := liftM_eq_ok_iff.1 hlookup
  obtain ⟨args, p₂, hargs, h⟩ := apply_bind_eq_ok_iff.1 h
  obtain ⟨rfl, rfl⟩ := pure_eq_ok_iff.1 h
  have hkeeps := Steady.kept (steady_addStruct _ _) houts
  have hkeeps' := Steady.kept (steady_addStruct _ _) hargs
  have hlookup := hkeeps'.structTy? _ _ (structTy?_of_addStruct houts)
  have hkeeps := hkeeps.trans hkeeps'
  exact ⟨(field_eq_ok hfield).trans (Program.length_of_valueTypes hin),
    ⟨_, argTypes, hkeeps.valueTypes_eq_ok hin, structTy?_of_addStruct hargs⟩,
    ⟨_, outTypes, hkeeps.valueTypes_eq_ok hout, hlookup⟩⟩

end Exchange

namespace Dispatch

variable {p q : Program} (s : Setting) (exchange : Exchange) (block : BlockRef)

theorem calm_checkExitPhis (p : Program) (loop : Loop) (is : List InstrRef) :
    Calm (·.isEarly) (checkExitPhis p loop is) := by
  induction is with
  | nil => simp [checkExitPhis]
  | cons i is ih => simp [checkExitPhis, ih]

theorem calm_exitPosition (p : Program) : Calm (·.isEarly) (exitPosition p s) := by
  refine FailsOnly.ite_iff.2 ⟨fun _ => ?_, fun _ => ?_⟩
  · simp
  · refine FailsOnly.bind (p.calm_func s.func) fun func _ => ?_
    split <;> simp [calm_checkExitPhis]

theorem calm_instrsOf (p : Program) (blocks : List BlockRef) : Calm extra (instrsOf p blocks) := by
  simp [instrsOf, FailsOnly.mapM]

theorem steady_redirectBlock (b : BlockRef) : Steady extra (redirectBlock s block b) p := by
  refine get_bind (answer_bind (by simp) fun last? _ => ?_)
  split
  · exact of_pure 0
  · refine answer_bind (by simp) fun instr hinstr => ?_
    have hlookup := Program.instr_eq_ok_iff.1 hinstr
    exact bind_forall (steady_setInstr hlookup rfl) fun _ _ => of_pure _

theorem steady_redirect (blocks : List BlockRef) : Steady extra (redirect s block blocks) p := by
  induction blocks generalizing p with
  | nil => exact of_pure 0
  | cons b blocks ih =>
      unfold redirect
      split
      · refine bind_forall (steady_redirectBlock s block b) fun _ _ => ?_
        exact bind_forall ih fun _ _ => of_pure _
      · refine bind_forall (of_pure 0) fun _ _ => ?_
        exact bind_forall ih fun _ _ => of_pure _

theorem steady_retarget (is : List InstrRef) : Steady extra (retarget s block is) p :=
  Steady.forM fun i _ => steady_changeInstr i fun _ => rfl

theorem steady_addWorker (thread : Nat) : Steady extra (addWorker s thread) p := by
  refine get_bind ?_
  split
  · exact of_throw (by simp)
  · exact steady_addFunc _

theorem steady_storeArgs (argPtr : InstrRef) (k : Nat) (values : List Value) :
    Steady extra (storeArgs exchange block argPtr k values) p := by
  induction values generalizing p k with
  | nil => exact of_pure ()
  | cons v values ih =>
      refine get_bind (answer_bind (by simp) fun name _ => ?_)
      refine answer_bind (Exchange.calm_field k) fun n _ => ?_
      refine bind_forall steady_appendInstr fun addr _ => ?_
      exact bind_forall steady_appendInstr fun _ _ => ih (k + 1)

theorem steady_callWorkers (dispatch : FuncRef) (shared : InstrRef) (thread : Nat)
    (workers : List FuncRef) :
    Steady extra (callWorkers block dispatch shared thread workers) p := by
  induction workers generalizing p thread with
  | nil => exact of_pure ()
  | cons worker workers ih => exact bind_forall steady_appendInstr fun _ _ => ih (thread + 1)

theorem steady_runWorkers (argPtr : InstrRef) (workers : List FuncRef) :
    Steady extra (runWorkers s block argPtr workers) p := by
  refine bind_forall (steady_requireFunc _ _ _) fun init _ => ?_
  refine bind_forall (steady_requireFunc _ _ _) fun dispatch _ => ?_
  refine bind_forall (steady_requireFunc _ _ _) fun join _ => ?_
  refine bind_forall steady_appendInstr fun _ _ => ?_
  refine bind_forall steady_appendInstr fun shared _ => ?_
  refine bind_forall (steady_callWorkers block dispatch shared 0 workers) fun _ _ => ?_
  exact bind_forall steady_appendInstr fun _ _ => of_pure _

theorem steady_loadOuts (outPtr : InstrRef) (k : Nat) (outs : List InstrRef) (σ : Renaming) :
    Steady extra (loadOuts exchange block outPtr k outs σ) p := by
  induction outs generalizing p k σ with
  | nil => exact of_pure σ
  | cons i outs ih =>
      refine get_bind (answer_bind (by simp) fun name _ => answer_bind (by simp) fun ty _ => ?_)
      refine answer_bind (Exchange.calm_field k) fun n _ => ?_
      refine bind_forall steady_appendInstr fun addr _ => ?_
      exact bind_forall steady_appendInstr fun loaded _ => ih (k + 1) _

theorem steady_unpackOuts (argPtr : InstrRef) :
    Steady extra (unpackOuts s exchange block argPtr) p := by
  refine bind_forall steady_appendInstr fun outPtr _ => ?_
  refine bind_forall (steady_loadOuts exchange block outPtr 0 _ ∅) fun σ _ => ?_
  refine get_bind (answer_bind (by simp) fun func _ => ?_)
  refine answer_bind (calm_instrsOf _ _) fun is _ => ?_
  exact bind_forall (σ.steady_apply is) fun _ _ => of_pure _

/-- The code of the new block, once the structures are declared. -/
theorem steady_code (workers : List FuncRef) (redirected : Nat) : Steady extra (do
    let argPtr ← Edit.appendInstr block (.alloca (.struct exchange.args)) .ptr "argstruct"
    storeArgs exchange block argPtr 0 s.live.liveIn
    runWorkers s block argPtr workers
    unless s.live.liveOut.isEmpty do
      unpackOuts s exchange block argPtr
    let _ ← Edit.appendInstr block (.br s.loop.exit) .void none
    return { block, workers, exchange, redirected : Dispatch }) p := by
  refine bind_forall steady_appendInstr fun argPtr _ => ?_
  refine bind_forall (steady_storeArgs exchange block argPtr 0 _) fun _ _ => ?_
  refine bind_forall (steady_runWorkers s block argPtr workers) fun _ _ => ?_
  have hend (q : Program) : Steady extra (do
      let _ ← Edit.appendInstr block (.br s.loop.exit) .void none
      return { block, workers, exchange, redirected : Dispatch }) q :=
    bind_forall steady_appendInstr fun _ _ => of_pure _
  dsimp only
  split
  · exact hend _
  · exact bind_forall (steady_unpackOuts s exchange block argPtr) fun _ _ => hend _

/-- Once there is a place for the new block, nothing is refused for an early reason. -/
theorem steady_install (hposition : Calm extra (exitPosition p s)) :
    Steady extra (install s) p := by
  refine get_bind (answer_bind hposition fun position _ => ?_)
  refine bind_forall (steady_insertBlock _ _ _) fun block _ => ?_
  refine get_bind (answer_bind (by simp) fun func _ => ?_)
  refine bind_forall (steady_redirect s block _) fun redirected _ => ?_
  refine get_bind (answer_bind (by simp) fun exit _ => ?_)
  refine bind_forall (steady_retarget s block _) fun _ _ => ?_
  refine bind_forall (Steady.mapM (fun _ => True) trivial
    (fun thread _ _ => steady_addWorker s thread) fun _ _ _ _ _ _ _ => trivial) fun workers _ => ?_
  refine bind_forall (Exchange.steady_declare _) fun exchange _ => ?_
  exact steady_code s exchange block workers redirected

variable {s}

theorem fits_of_install {d : Dispatch} (h : (install s).apply p = (.ok d, q)) :
    d.exchange.Fits s.live.liveIn s.live.liveOut q := by
  unfold install at h
  rw [get_bind_eq_ok_iff] at h
  obtain ⟨position, _, -, h⟩ := apply_bind_eq_ok_iff.1 h
  obtain ⟨block, _, -, h⟩ := apply_bind_eq_ok_iff.1 h
  rw [get_bind_eq_ok_iff] at h
  obtain ⟨func, _, -, h⟩ := apply_bind_eq_ok_iff.1 h
  obtain ⟨redirected, _, -, h⟩ := apply_bind_eq_ok_iff.1 h
  rw [get_bind_eq_ok_iff] at h
  obtain ⟨exit, _, -, h⟩ := apply_bind_eq_ok_iff.1 h
  obtain ⟨_, _, -, h⟩ := apply_bind_eq_ok_iff.1 h
  obtain ⟨workers, _, -, h⟩ := apply_bind_eq_ok_iff.1 h
  obtain ⟨exchange, declared, hdeclare, h⟩ := apply_bind_eq_ok_iff.1 h
  have hkeeps := Steady.kept (steady_code s exchange block workers redirected) h
  obtain ⟨argPtr, _, -, h⟩ := apply_bind_eq_ok_iff.1 h
  obtain ⟨_, _, -, h⟩ := apply_bind_eq_ok_iff.1 h
  obtain ⟨_, _, -, h⟩ := apply_bind_eq_ok_iff.1 h
  obtain ⟨_, _, -, h⟩ := unless_bind_eq_ok h
  obtain ⟨_, _, -, h⟩ := apply_bind_eq_ok_iff.1 h
  obtain ⟨rfl, rfl⟩ := pure_eq_ok_iff.1 h
  exact (Exchange.fits_of_declare hdeclare).keep hkeeps

end Dispatch

namespace Worker

variable {p : Program} {s : Setting} {exchange : Exchange} {w : Worker}

theorem calm_vacantFunc (p : Program) (d : Dispatch) (thread : Nat) :
    Calm extra (vacantFunc p d thread) := by
  unfold vacantFunc
  split <;> simp

theorem calm_concernedBlocks (p : Program) (s : Setting) (thread : Nat) :
    Calm extra (concernedBlocks p s thread) := by
  simp [concernedBlocks, placesOf, FailsOnly.mapM]

theorem calm_copyOf (blockMap : Std.TreeMap BlockRef BlockRef) (b : BlockRef) :
    Calm extra (copyOf blockMap b) := by
  unfold copyOf
  split <;> simp

theorem calm_copyOfTarget (hastray : ∀ failure : Failure, failure.isAstray → extra failure)
    (blockMap : Std.TreeMap BlockRef BlockRef) (target : BlockRef) :
    Calm extra (copyOfTarget s blockMap target) := by
  unfold copyOfTarget
  split
  · exact FailsOnly.error (.inr (hastray _ rfl))
  · split
    · simp
    · exact FailsOnly.error (.inr (hastray _ rfl))

theorem calm_copyOfPred (hastray : ∀ failure : Failure, failure.isAstray → extra failure)
    (blockMap : Std.TreeMap BlockRef BlockRef) (pred : BlockRef) :
    Calm extra (copyOfPred s blockMap pred) := by
  unfold copyOfPred
  split
  · simp
  · exact FailsOnly.error (.inr (hastray _ rfl))

/-- An operation is copied calmly if all blocks that it names are. -/
theorem calm_copyOp {blockMap : Std.TreeMap BlockRef BlockRef} {op : Op}
    (htargets : ∀ t ∈ op.successors, Calm extra (copyOfTarget s blockMap t))
    (hpreds : ∀ pair ∈ op.incoming, Calm extra (copyOfPred s blockMap pair.2)) :
    Calm extra (copyOp s blockMap op) := by
  unfold copyOp
  split
  · next op' failure hchange =>
      obtain ⟨target, hmem, htarget⟩ := Op.changeSuccessors_eq_some hchange
      exact FailsOnly.error (htargets target hmem failure htarget)
  · next op' hchange =>
      obtain ⟨rfl, -⟩ := Op.changeSuccessors_eq_none hchange
      rw [← Op.incoming_mapSuccessors (Op.changed (copyOfTarget s blockMap))] at hpreds
      unfold Op.traverseIncoming
      split
      · next incoming heq =>
          rw [heq] at hpreds
          refine FailsOnly.map_iff.2 (FailsOnly.mapM fun pair hpair => ?_)
          exact FailsOnly.map_iff.2 (hpreds pair hpair)
      · simp

theorem calm_isCopied (p : Program) (s : Setting) (thread : Nat) (b : BlockRef) (i : InstrRef)
    (instr : Instr) : Calm extra (isCopied p s thread b i instr) := by
  unfold isCopied
  split
  · simp
  · split <;> simp

theorem steady_addCopies (f : FuncRef) (thread : Nat) (blocks : List BlockRef)
    (blockMap : Std.TreeMap BlockRef BlockRef) :
    Steady extra (addCopies f thread blocks blockMap) p := by
  induction blocks generalizing p blockMap with
  | nil => exact of_pure blockMap
  | cons b blocks ih =>
      refine get_bind (answer_bind (by simp) fun block _ => ?_)
      exact bind_forall (steady_appendBlock f _) fun copy _ => ih _

theorem steady_addSkeleton (s : Setting) (f : FuncRef) (thread : Nat) (blocks : List BlockRef) :
    Steady extra (addSkeleton s f thread blocks) p := by
  refine bind_forall (steady_appendBlock f _) fun entry _ => ?_
  refine bind_forall (steady_addCopies f thread blocks ∅) fun copied _ => ?_
  refine bind_forall (steady_appendBlock f _) fun exit _ => ?_
  refine answer_bind (calm_copyOf _ _) fun header _ => ?_
  refine bind_forall steady_appendInstr fun _ _ => ?_
  exact bind_forall steady_appendInstr fun _ _ => of_pure _

theorem steady_copyInstrs {b copy : BlockRef} {is : List InstrRef}
    (hcopy : ∀ i ∈ is, ∀ q instr, p.KeepsInstrs q → q.instr? i = some instr →
      Calm extra (copyOp s w.blockMap instr.op)) :
    Steady extra (copyInstrs s w b copy is) p := by
  induction is generalizing p with
  | nil => exact of_pure []
  | cons i is ih =>
      obtain ⟨hfirst, hrest⟩ := List.forall_mem_cons.1 hcopy
      refine get_bind (answer_bind (by simp) fun instr hinstr => ?_)
      refine answer_bind (calm_isCopied _ _ _ _ _ _) fun taken _ => ?_
      split
      · have hcalm := hfirst p instr (.refl p) (Program.instr_eq_ok_iff.1 hinstr)
        refine answer_bind hcalm fun op _ => ?_
        refine bind steady_appendInstr fun clone q hclone _ => ?_
        have hkeeps := Program.KeepsInstrs.of_appendInstr hclone
        refine bind_forall (ih fun j hj r instr' hr => ?_) fun _ _ => of_pure _
        exact hrest j hj r instr' (hkeeps.trans hr)
      · exact ih hrest

theorem steady_copyBlocks (hastray : ∀ failure : Failure, failure.isAstray → extra failure)
    (blocks : List BlockRef) : Steady extra (copyBlocks s w blocks) p := by
  induction blocks generalizing p with
  | nil => exact of_pure []
  | cons b blocks ih =>
      refine answer_bind (calm_copyOf _ _) fun copy _ => ?_
      refine get_bind (answer_bind (by simp) fun block _ => ?_)
      have hcopy (op : Op) : Calm extra (copyOp s w.blockMap op) :=
        calm_copyOp (fun t _ => calm_copyOfTarget hastray _ t) fun pair _ =>
          calm_copyOfPred hastray _ pair.2
      refine bind_forall (steady_copyInstrs fun _ _ _ _ _ _ => hcopy _) fun copied _ => ?_
      exact bind_forall ih fun _ _ => of_pure _

/-- A live-in is loaded from a field of the type that it has. -/
theorem steady_loadArgs {entry : BlockRef} {argPtr : InstrRef} {k : Nat} {values : List Value}
    {σ : Renaming} {structTy : StructTy} {types rest : List Ty}
    (hargs : p.structTy? exchange.args = some structTy) (htypes : p.valueTypes values = .ok types)
    (hfields : structTy.fields.drop k = types ++ rest) :
    Steady extra (loadArgs exchange entry argPtr k values σ) p := by
  induction values generalizing p k types σ with
  | nil => exact of_pure σ
  | cons v values ih =>
      obtain ⟨ty, types, hty, hrest, rfl⟩ :=
        List.forall₂_cons_left_iff.1 (mapM_eq_ok_iff.1 htypes)
      have hfield : structTy.fields[k]? = some ty := by
        rw [← List.head?_drop, hfields]
        rfl
      have hnext : structTy.fields.drop (k + 1) = types ++ rest := by
        rw [← List.tail_drop, hfields]
        rfl
      refine get_bind (answer_bind (by simp) fun name _ => ?_)
      refine answer_bind (by simp) fun structTy' hstruct => ?_
      obtain rfl := Option.some.inj
        ((Program.structTy_eq_ok_iff.1 hstruct).symm.trans hargs)
      rw [hfield]
      refine answer_bind (Exchange.calm_field k) fun n _ => ?_
      refine bind steady_insertBeforeEnd fun addr p₁ _ hkeeps₁ => ?_
      refine bind steady_insertBeforeEnd fun loaded p₂ _ hkeeps₂ => ?_
      have hkeeps := hkeeps₁.trans hkeeps₂
      refine get_bind (answer_bind (by simp) fun declared hdeclared => ?_)
      obtain rfl := Except.ok.inj ((hkeeps.valueType_eq_ok hty).symm.trans hdeclared)
      rw [if_neg fun hne => hne rfl]
      exact ih (hkeeps.structTy? _ _ hargs)
        (hkeeps.valueTypes_eq_ok (mapM_eq_ok_iff.2 hrest)) hnext

theorem steady_unpackArgs {liveOut : List InstrRef} {σ : Renaming}
    (hfits : exchange.Fits s.live.liveIn liveOut p) :
    Steady extra (unpackArgs s exchange w σ) p := by
  have hload (q : Program) (hkeeps : p.KeepsTypes q) : Steady extra (do
      let param ← (← get).paramValue w.func 0
      let argPtr ← Edit.insertBeforeEnd w.entry (.cast param) .ptr "args"
      let σ ← loadArgs exchange w.entry argPtr 0 s.live.liveIn σ
      return (argPtr, σ) : Edit (InstrRef × Renaming)) q := by
    refine get_bind (answer_bind (by simp) fun param _ => ?_)
    refine bind steady_insertBeforeEnd fun argPtr r _ hkeeps' => ?_
    obtain ⟨name, types, htypes, hargs⟩ := (hfits.keep (hkeeps.trans hkeeps')).args
    have hfields : (types ++ [Ty.struct exchange.outs]).drop 0 = types ++ [.struct exchange.outs] :=
      List.drop_zero
    exact bind_forall (steady_loadArgs hargs htypes hfields) fun _ _ => of_pure _
  unfold unpackArgs
  dsimp only
  split
  · exact hload p (.refl p)
  · refine bind (steady_requireFunc _ _ _) fun hook q _ hkeeps => ?_
    refine bind steady_insertBeforeEnd fun _ r _ hkeeps' => ?_
    exact hload r (hkeeps.trans hkeeps')

theorem steady_storeEach (σ : Renaming) (outPtr : InstrRef) (owned : List (InstrRef × Nat)) :
    Steady extra (storeEach exchange w σ outPtr owned) p := by
  induction owned generalizing p with
  | nil => exact of_pure []
  | cons out owned ih =>
      refine get_bind (answer_bind (by simp) fun name _ => ?_)
      split
      · exact of_throw (by simp)
      · refine answer_bind (Exchange.calm_field _) fun n _ => ?_
        refine bind_forall steady_insertBeforeEnd fun addr _ => ?_
        refine bind_forall steady_insertBeforeEnd fun store _ => ?_
        exact bind_forall ih fun _ _ => of_pure _

theorem steady_storeOuts (σ : Renaming) (argPtr : InstrRef) :
    Steady extra (storeOuts s exchange w σ argPtr) p := by
  unfold storeOuts
  split
  · exact of_pure []
  · exact bind_forall steady_insertBeforeEnd fun outPtr _ => steady_storeEach σ outPtr _

/-- A worker is written in a program that the structures fit, if its blocks can be copied. -/
theorem steady_build_of_copyBlocks {d : Dispatch} {liveOut : List InstrRef} {thread : Nat}
    (hfits : d.exchange.Fits s.live.liveIn liveOut p)
    (hcopy : ∀ f blocks w q, vacantFunc p d thread = .ok f →
      concernedBlocks p s thread = .ok blocks →
      (addSkeleton s f thread blocks).apply p = (.ok w, q) →
      Steady extra (copyBlocks s w blocks) q) :
    Steady extra (build s d thread) p := by
  refine get_bind (answer_bind (calm_vacantFunc _ _ _) fun f hf => ?_)
  refine get_bind (answer_bind (calm_concernedBlocks _ _ _) fun blocks hblocks => ?_)
  refine bind (steady_addSkeleton s f thread blocks) fun w p₁ hw hkeeps₁ => ?_
  refine bind (hcopy f blocks w p₁ hf hblocks hw) fun copies p₂ _ hkeeps₂ => ?_
  refine bind_forall (steady_unpackArgs (hfits.keep (hkeeps₁.trans hkeeps₂))) fun unpacked _ => ?_
  obtain ⟨argPtr, σ⟩ := unpacked
  refine bind_forall (σ.steady_apply _) fun _ _ => ?_
  refine bind_forall (steady_storeOuts σ argPtr) fun _ p₅ => ?_
  exact get_bind (answer_bind (s.calm_log p₅ f) fun _ _ => of_pure _)

/-- A worker is written without trouble about types in a program that the structures fit. -/
theorem steady_build {d : Dispatch} {liveOut : List InstrRef} (thread : Nat)
    (hastray : ∀ failure : Failure, failure.isAstray → extra failure)
    (hfits : d.exchange.Fits s.live.liveIn liveOut p) : Steady extra (build s d thread) p :=
  steady_build_of_copyBlocks hfits fun _ blocks _ _ _ _ _ => steady_copyBlocks hastray blocks

end Worker

namespace Splitter

variable {p q : Program} {splitter splitter' : Splitter} {f : FuncRef} {loop : Loop}
  {deps : Dependences} {plan : Plan}

theorem calm_checkPlace (p : Program) (f : FuncRef) (func : Func) (role : LoopRole)
    (b : BlockRef) : Calm extra (checkPlace p f func role b) := by
  simp [checkPlace]

theorem calm_checkRequest (config : Config) (p : Program) (f : FuncRef) (loop : Loop)
    (plan : Plan) : Calm extra (checkRequest config p f loop plan) := by
  simp [checkRequest, FailsOnly.forM, calm_checkPlace]

theorem calm_checkOwned (p : Program) (plan : Plan) (outs : List InstrRef) :
    Calm (·.isEarly) (checkOwned p plan outs) := by
  induction outs with
  | nil => simp [checkOwned]
  | cons i outs ih => simp [checkOwned, ih]

theorem calm_setting (config : Config) (loopId : Nat) (p : Program) (f : FuncRef) (loop : Loop)
    (deps : Dependences) (plan : Plan) :
    Calm (·.isEarly) (setting config loopId p f loop deps plan) := by
  simp [setting, Liveness.calm_ofLoop, calm_checkOwned, Dominance.calm_ofFunc]

/-- A loop is split, if there is a place for the new block and the workers can be written. -/
theorem steady_splitIn_of_mapM {s : Setting}
    (hposition : Calm extra (Dispatch.exitPosition p s))
    (hbuild : ∀ d q, (Dispatch.install s).apply p = (.ok d, q) →
      Steady extra ((List.range s.threads).mapM (Worker.build s d)) q) :
    Steady extra (splitIn s) p := by
  refine bind (Dispatch.steady_install s hposition) fun d p₁ hinstall _ => ?_
  refine bind_forall (hbuild d p₁ hinstall) fun workers p₂ => ?_
  dsimp only
  split
  · refine get_bind (answer_bind (FailsOnly.forM fun f _ => p₂.calm_check f) fun _ _ => ?_)
    exact get_bind (answer_bind (s.calm_log p₂ s.func) fun _ _ => of_pure _)
  · exact get_bind (answer_bind (s.calm_log p₂ s.func) fun _ _ => of_pure _)

theorem steady_splitIn_of_exitPosition {s : Setting}
    (hposition : Calm extra (Dispatch.exitPosition p s))
    (hastray : ∀ failure : Failure, failure.isAstray → extra failure) :
    Steady extra (splitIn s) p := by
  refine steady_splitIn_of_mapM hposition fun d p₁ hinstall => ?_
  exact Steady.mapM (d.exchange.Fits s.live.liveIn s.live.liveOut)
    (Dispatch.fits_of_install hinstall)
    (fun thread _ hfits => Worker.steady_build thread hastray hfits)
    fun _ _ _ _ hfits _ hkeeps => hfits.keep hkeeps

theorem steady_splitIn (s : Setting) :
    Steady (fun failure => failure.isEarly ∨ failure.isAstray) (splitIn s) p :=
  steady_splitIn_of_exitPosition ((Dispatch.calm_exitPosition s p).allow fun _ => .inl)
    fun _ => .inr

/-- Why a loop is refused, if splitting it in its setting is steady. -/
theorem isCommon_or_of_split {failure : Failure}
    (hsteady : ∀ s, checkRequest splitter.config p f loop plan = .ok () →
      setting splitter.config splitter.numbered p f loop deps plan = .ok s →
      Steady extra (splitIn s) p)
    (hearly : ∀ failure : Failure, failure.isEarly → extra failure)
    (h : splitter.split p f loop deps plan = (.error failure, splitter', q)) :
    failure.isCommon ∨ extra failure := by
  rcases split_cases h with ⟨failure', hrefused, heq, -⟩ | ⟨hrequest, ⟨-, heq, -⟩ | ⟨-, hrun⟩⟩
  · obtain rfl := Except.error.inj heq
    exact calm_checkRequest _ _ _ _ _ failure hrefused
  · obtain rfl := Except.error.inj heq
    exact .inl rfl
  · have hsplit := answer_bind ((calm_setting _ _ p f loop deps plan).allow hearly) fun s hs =>
      hsteady s hrequest hs
    exact hsplit.calm failure q hrun

/-- No loop is refused because of the type of a live-in. -/
theorem calm_split {failure : Failure}
    (h : splitter.split p f loop deps plan = (.error failure, splitter', q)) :
    ¬ failure.isDrift := by
  rcases isCommon_or_of_split (fun s _ _ => steady_splitIn s) (fun _ => .inl) h with
    hcommon | hearly | hastray
  · exact (Failure.not_of_isCommon hcommon).2.1
  · exact (Failure.not_of_isEarly hearly).1
  · exact (Failure.not_of_isAstray hastray).2

end Splitter

end Decouple
