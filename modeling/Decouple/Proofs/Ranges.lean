import Decouple.Program.Check
import Decouple.Program.Text
import Decouple.Program.WellFormed
import Decouple.Proofs.Changes
import Decouple.Proofs.Checking

/-!
# References that lead somewhere

In a program whose references lead somewhere every question about it has an answer, which may be a
refusal (`Program.InRange`, `Outcome.IsAnswer`). A function can be written out if those to structure
types lead somewhere as well. Whether that is asked for is a parameter: `Program.Complete typed`
says it of a program, and `Program.OpComplete typed` of an operation. Changes keep a program
complete as long as the operations that they bring in are (`Complete.makes`), and what leads
somewhere goes on doing so (`Program.Extends`).

So an edit in such a program can be broken off for one reason only: a number that does not fit into
32 bits. `Edit.Robust` says this, together with what holds where the edit succeeds, and the rules
below take a sequence of edits apart.
-/

namespace Decouple

theorem isSome_getElem?_of_le {α : Type} {table table' : Array α} {k : Nat}
    (hle : table.size ≤ table'.size) (h : (table[k]?).isSome) : (table'[k]?).isSome := by
  rw [Option.isSome_iff_exists] at h
  obtain ⟨a, ha⟩ := h
  obtain ⟨hlt, -⟩ := Array.getElem?_eq_some_iff.1 ha
  have hlt' : k < table'.size := Nat.lt_of_lt_of_le hlt hle
  simp [hlt']

namespace Program

variable {p q r : Program}

structure OpInRange (p : Program) (op : Op) : Prop where
  operands : ∀ v ∈ op.operands, p.ValueInRange v
  targets : ∀ b ∈ op.successors, (p.block? b).isSome
  preds : ∀ b ∈ op.incoming.map Prod.snd, (p.block? b).isSome

/-- The value is the result of an instruction or a parameter, and it is there. -/
structure VariableInRange (p : Program) (v : Value) : Prop where
  isVariable : v.isVariable
  inRange : p.ValueInRange v

theorem VariableInRange.instr {i : InstrRef} (h : (p.instr? i).isSome) :
    p.VariableInRange (.instr i) := ⟨rfl, h⟩

theorem VariableInRange.constant {v : Value} (h : p.VariableInRange v) : p.ConstantInRange v := by
  cases v with
  | int => cases h.isVariable
  | instr | param | null | func => trivial

/-- The references of a program lead somewhere; those to structure types are included if `typed`. -/
structure Complete (typed : Prop) (p : Program) : Prop extends InRange p where
  types : typed → p.TypesInRange

/-- The references of an operation with a result of type `ty` lead somewhere; those to structure
types are included if `typed`. -/
structure OpComplete (typed : Prop) (p : Program) (op : Op) (ty : Ty) : Prop
    extends OpInRange p op where
  types : typed → ∀ t ∈ ty :: op.types, p.TypeInRange t
  constants : typed → ∀ v ∈ op.operands, p.ConstantInRange v

namespace OpComplete

variable {typed : Prop} {op : Op} {ty : Ty}

/-- An operation that only reads. -/
theorem of_operands (hoperands : ∀ v ∈ op.operands, p.ValueInRange v ∧ p.ConstantInRange v)
    (htypes : typed → ∀ t ∈ ty :: op.types, p.TypeInRange t) (hsuccessors : op.successors = [])
    (hincoming : op.incoming = []) : OpComplete typed p op ty where
  operands := fun v hv => (hoperands v hv).1
  targets := by simp [hsuccessors]
  preds := by simp [hincoming]
  types := htypes
  constants := fun _ v hv => (hoperands v hv).2

section Forms

variable {f : FuncRef} {b : BlockRef} {i : InstrRef} {v : Value}

theorem alloca {layout : StructRef} (hlayout : (p.structTy? layout).isSome) :
    OpComplete typed p (.alloca (.struct layout)) .ptr :=
  of_operands nofun (fun _ => List.forall_mem_cons.2 ⟨trivial, List.forall_mem_singleton.2 hlayout⟩)
    rfl rfl

theorem load (hi : (p.instr? i).isSome) (hty : typed → p.TypeInRange ty) :
    OpComplete typed p (.load (.instr i)) ty :=
  of_operands (List.forall_mem_singleton.2 ⟨hi, trivial⟩)
    (fun htyped => List.forall_mem_singleton.2 (hty htyped)) rfl rfl

theorem store (hv : p.VariableInRange v) (hi : (p.instr? i).isSome) :
    OpComplete typed p (.store v (.instr i)) .void :=
  of_operands (List.forall_mem_cons.2
      ⟨⟨hv.inRange, hv.constant⟩, List.forall_mem_singleton.2 ⟨hi, trivial⟩⟩)
    (fun _ => List.forall_mem_singleton.2 trivial) rfl rfl

theorem fieldAddr {layout : StructRef} {field : Nat} (hi : (p.instr? i).isSome)
    (hlayout : (p.structTy? layout).isSome) :
    OpComplete typed p (.fieldAddr (.instr i) layout field) .ptr :=
  of_operands (List.forall_mem_singleton.2 ⟨hi, trivial⟩)
    (fun _ => List.forall_mem_cons.2 ⟨trivial, List.forall_mem_singleton.2 hlayout⟩) rfl rfl

theorem cast (hv : p.VariableInRange v) : OpComplete typed p (.cast v) .ptr :=
  of_operands (List.forall_mem_singleton.2 ⟨hv.inRange, hv.constant⟩)
    (fun _ => List.forall_mem_singleton.2 trivial) rfl rfl

theorem call {args : List Value} (hf : (p.func? f).isSome)
    (hargs : ∀ v ∈ args, p.ValueInRange v ∧ p.ConstantInRange v) :
    OpComplete typed p (.call (.func f) args) .void :=
  of_operands (List.forall_mem_cons.2 ⟨⟨hf, trivial⟩, hargs⟩)
    (fun _ => List.forall_mem_singleton.2 trivial) rfl rfl

theorem retNull : OpComplete typed p (.ret (some .null)) .void :=
  of_operands (List.forall_mem_singleton.2 ⟨trivial, trivial⟩)
    (fun _ => List.forall_mem_singleton.2 trivial) rfl rfl

theorem br (hb : (p.block? b).isSome) : OpComplete typed p (.br b) .void where
  operands := nofun
  targets := List.forall_mem_singleton.2 hb
  preds := nofun
  types := fun _ => List.forall_mem_singleton.2 trivial
  constants := fun _ => nofun

end Forms

theorem mapOperands (h : OpComplete typed p op ty) {change : Value → Value}
    (hchange : ∀ v ∈ op.operands, p.ValueInRange v → p.ValueInRange (change v))
    (hconstant : ∀ v ∈ op.operands, p.ConstantInRange v → p.ConstantInRange (change v)) :
    OpComplete typed p (op.mapOperands change) ty where
  operands := by simpa using fun v hv => hchange v hv (h.operands v hv)
  targets := by simpa using h.targets
  preds := by
    rw [Op.preds_mapOperands]
    exact h.preds
  types := by cases op <;> exact h.types
  constants := by
    intro htyped
    simpa using fun v hv => hconstant v hv (h.constants htyped v hv)

theorem mapSuccessors (h : OpComplete typed p op ty) {change : BlockRef → BlockRef}
    (hchange : ∀ b ∈ op.successors, (p.block? (change b)).isSome) :
    OpComplete typed p (op.mapSuccessors change) ty where
  operands := by simpa using h.operands
  targets := by simpa using hchange
  preds := by simpa using h.preds
  types := by cases op <;> exact h.types
  constants := by simpa using h.constants

theorem mapIncoming (h : OpComplete typed p op ty) {change : BlockRef → BlockRef}
    (hchange : ∀ b ∈ op.incoming.map Prod.snd, (p.block? (change b)).isSome) :
    OpComplete typed p (op.mapIncoming change) ty where
  operands := by simpa using h.operands
  targets := by simpa using h.targets
  preds := by
    rw [Op.incoming_mapIncoming, List.map_map]
    exact List.forall_mem_map.2 fun pair hpair => hchange pair.2 (List.mem_map_of_mem hpair)
  types := by cases op <;> exact h.types
  constants := by simpa using h.constants

end OpComplete

theorem InRange.op (h : p.InRange) {i : InstrRef} {instr : Instr} (hi : p.instr? i = some instr) :
    p.OpInRange instr.op := by
  have hmem : instr ∈ p.instrs := Array.mem_of_getElem? hi
  refine ⟨h.operands instr hmem, h.targets instr hmem, fun b hb => ?_⟩
  obtain ⟨pair, hpair, rfl⟩ := List.mem_map.1 hb
  exact h.preds instr hmem pair hpair

theorem Complete.op {typed : Prop} (h : Complete typed p) {i : InstrRef} {instr : Instr}
    (hi : p.instr? i = some instr) : OpComplete typed p instr.op instr.ty where
  toOpInRange := h.toInRange.op hi
  types := fun htyped => (h.types htyped).instrs instr (Array.mem_of_getElem? hi)
  constants := fun htyped => (h.types htyped).constants instr (Array.mem_of_getElem? hi)

theorem InRange.isSome_block? (h : p.InRange) {f : FuncRef} {func : Func}
    (hf : p.func? f = some func) : ∀ b ∈ func.blocks, (p.block? b).isSome :=
  h.layout func (Array.mem_of_getElem? hf)

theorem InRange.isSome_instr? (h : p.InRange) {b : BlockRef} {block : Block}
    (hb : p.block? b = some block) : ∀ i ∈ block.instrs, (p.instr? i).isSome :=
  h.listed block (Array.mem_of_getElem? hb)

theorem InRange.isSome_of_lists (h : p.InRange) {b : BlockRef} {i : InstrRef} (hi : p.Lists b i) :
    (p.instr? i).isSome := by
  obtain ⟨block, hblock, hi⟩ := hi
  exact h.isSome_instr? hblock i hi

/-- What leads somewhere in `p` does so in `q`, and functions have the parameters that they had. -/
structure Extends (p q : Program) : Prop where
  func? : ∀ f func, p.func? f = some func →
    ∃ func', q.func? f = some func' ∧ func'.params = func.params
  blocks : p.blocks.size ≤ q.blocks.size
  instrs : p.instrs.size ≤ q.instrs.size
  structTy? : ∀ s structTy, p.structTy? s = some structTy → q.structTy? s = some structTy

namespace Extends

theorem refl (p : Program) : p.Extends p :=
  ⟨fun _ func hf => ⟨func, hf, rfl⟩, Nat.le_refl _, Nat.le_refl _, fun _ _ hs => hs⟩

theorem trans (h : p.Extends q) (h' : q.Extends r) : p.Extends r where
  func? := by
    intro f func hf
    obtain ⟨func', hf', hparams⟩ := h.func? f func hf
    obtain ⟨func'', hf'', hparams'⟩ := h'.func? f func' hf'
    exact ⟨func'', hf'', hparams'.trans hparams⟩
  blocks := Nat.le_trans h.blocks h'.blocks
  instrs := Nat.le_trans h.instrs h'.instrs
  structTy? := fun s structTy hs => h'.structTy? s structTy (h.structTy? s structTy hs)

theorem isSome_func? (h : p.Extends q) {f : FuncRef} (hf : (p.func? f).isSome) :
    (q.func? f).isSome := by
  obtain ⟨func, hfunc⟩ := Option.isSome_iff_exists.1 hf
  obtain ⟨func', hfunc', -⟩ := h.func? f func hfunc
  exact Option.isSome_iff_exists.2 ⟨func', hfunc'⟩

theorem isSome_block? (h : p.Extends q) {b : BlockRef} (hb : (p.block? b).isSome) :
    (q.block? b).isSome :=
  isSome_getElem?_of_le h.blocks hb

theorem isSome_instr? (h : p.Extends q) {i : InstrRef} (hi : (p.instr? i).isSome) :
    (q.instr? i).isSome :=
  isSome_getElem?_of_le h.instrs hi

theorem isSome_structTy? (h : p.Extends q) {s : StructRef} (hs : (p.structTy? s).isSome) :
    (q.structTy? s).isSome := by
  obtain ⟨structTy, hstructTy⟩ := Option.isSome_iff_exists.1 hs
  exact Option.isSome_iff_exists.2 ⟨structTy, h.structTy? s structTy hstructTy⟩

theorem value (h : p.Extends q) {v : Value} (hv : p.ValueInRange v) : q.ValueInRange v := by
  cases v with
  | instr i => exact h.isSome_instr? hv
  | param f index =>
      obtain ⟨func, hfunc, hindex⟩ := hv
      obtain ⟨func', hfunc', hparams⟩ := h.func? f func hfunc
      exact ⟨func', hfunc', hparams ▸ hindex⟩
  | int | null => trivial
  | func f => exact h.isSome_func? hv

theorem variableInRange (h : p.Extends q) {v : Value} (hv : p.VariableInRange v) :
    q.VariableInRange v :=
  ⟨hv.isVariable, h.value hv.inRange⟩

theorem type (h : p.Extends q) {ty : Ty} (hty : p.TypeInRange ty) : q.TypeInRange ty := by
  cases ty with
  | struct => exact h.isSome_structTy? hty
  | void | int | float | ptr => trivial

theorem constant (h : p.Extends q) {v : Value} (hv : p.ConstantInRange v) :
    q.ConstantInRange v := by
  cases v with
  | int => exact h.type hv
  | instr | param | null | func => trivial

theorem op (h : p.Extends q) {typed : Prop} {op : Op} {ty : Ty} (hop : OpComplete typed p op ty) :
    OpComplete typed q op ty where
  operands := fun v hv => h.value (hop.operands v hv)
  targets := fun b hb => h.isSome_block? (hop.targets b hb)
  preds := fun b hb => h.isSome_block? (hop.preds b hb)
  types := fun htyped t ht => h.type (hop.types htyped t ht)
  constants := fun htyped v hv => h.constant (hop.constants htyped v hv)

theorem of_makes {change : Change} (h : change.Makes p q) : p.Extends q where
  func? := by
    intro f func hf
    obtain ⟨blocks, hblocks⟩ := h.func? hf
    exact ⟨_, hblocks, rfl⟩
  blocks := by cases h <;> simp
  instrs := by cases h <;> simp
  structTy? := fun _ _ => h.structTy?_kept

end Extends

/-- A program stays complete if its new entries are. -/
theorem Complete.of_entries {typed : Prop} (hp : Complete typed p) (hextends : p.Extends q)
    (hfuncs : ∀ func ∈ q.funcs, func ∈ p.funcs ∨ (∀ b ∈ func.blocks, (q.block? b).isSome) ∧
      (typed → ∀ ty ∈ func.ret :: func.params, q.TypeInRange ty))
    (hblocks : ∀ block ∈ q.blocks, block ∈ p.blocks ∨ ∀ i ∈ block.instrs, (q.instr? i).isSome)
    (hinstrs : ∀ instr ∈ q.instrs, instr ∈ p.instrs ∨
      (∀ b, instr.block = some b → (q.block? b).isSome) ∧
        OpComplete typed q instr.op instr.ty) : Complete typed q := by
  have hlayouts : ∀ func ∈ q.funcs, (∀ b ∈ func.blocks, (q.block? b).isSome) ∧
      (typed → ∀ ty ∈ func.ret :: func.params, q.TypeInRange ty) := by
    intro func hfunc
    rcases hfuncs func hfunc with hold | hnew
    · exact ⟨fun b hb => hextends.isSome_block? (hp.layout func hold b hb),
        fun htyped ty hty => hextends.type ((hp.types htyped).funcs func hold ty hty)⟩
    · exact hnew
  have hops : ∀ instr ∈ q.instrs, (∀ b, instr.block = some b → (q.block? b).isSome) ∧
      OpComplete typed q instr.op instr.ty := by
    intro instr hinstr
    rcases hinstrs instr hinstr with hold | hnew
    · obtain ⟨k, hk⟩ := Array.mem_iff_getElem?.1 hold
      exact ⟨fun b hb => hextends.isSome_block? (hp.placed instr hold b hb),
        hextends.op (hp.op (i := ⟨k⟩) hk)⟩
    · exact hnew
  refine ⟨?_, fun htyped => ⟨fun func hfunc => (hlayouts func hfunc).2 htyped,
    fun instr hinstr => (hops instr hinstr).2.types htyped,
    fun instr hinstr => (hops instr hinstr).2.constants htyped⟩⟩
  constructor
  case layout => exact fun func hfunc => (hlayouts func hfunc).1
  case listed =>
    intro block hblock
    rcases hblocks block hblock with hold | hnew
    · exact fun i hi => hextends.isSome_instr? (hp.listed block hold i hi)
    · exact hnew
  case placed => exact fun instr hinstr => (hops instr hinstr).1
  case operands => exact fun instr hinstr => (hops instr hinstr).2.operands
  case targets => exact fun instr hinstr => (hops instr hinstr).2.targets
  case preds =>
    exact fun instr hinstr pair hpair =>
      (hops instr hinstr).2.preds pair.2 (List.mem_map_of_mem hpair)

end Program

/-- What the change brings in has good references. -/
def Change.Complete (typed : Prop) (p : Program) : Change → Prop
  | .addFunc func => typed → ∀ ty ∈ func.ret :: func.params, p.TypeInRange ty
  | .addInstr _ _ op ty _ => p.OpComplete typed op ty
  | .setOp i op => ∀ instr, p.instr? i = some instr → p.OpComplete typed op instr.ty
  | _ => True

/-- Changes with good references keep a program complete. -/
theorem Program.Complete.makes {typed : Prop} {p q : Program} {change : Change}
    (hp : p.Complete typed) (hmakes : change.Makes p q) (hchange : change.Complete typed p) :
    q.Complete typed := by
  have hextends := Extends.of_makes hmakes
  cases hmakes with
  | @addFunc func hblocks =>
      refine hp.of_entries hextends (fun func' hfunc' => ?_) (fun _ h => .inl h) fun _ h => .inl h
      rcases Array.mem_push.1 hfunc' with hold | rfl
      · exact .inl hold
      · exact .inr ⟨by simp [hblocks], fun htyped ty hty => hextends.type (hchange htyped ty hty)⟩
  | addStruct =>
      exact hp.of_entries hextends (fun _ h => .inl h) (fun _ h => .inl h) fun _ h => .inl h
  | @addBlock f func position name hfunc hposition =>
      refine hp.of_entries hextends (fun func' hfunc' => ?_) (fun block hblock => ?_)
        fun _ h => .inl h
      · rcases Array.mem_or_eq_of_mem_setIfInBounds hfunc' with hold | rfl
        · exact .inl hold
        · refine .inr ⟨fun b hb => ?_, fun htyped ty hty => ?_⟩
          · rcases (List.mem_insertIdx hposition).1 hb with rfl | hb
            · simp [Program.block?]
            · exact hextends.isSome_block? (hp.isSome_block? hfunc b hb)
          · have hmem : func ∈ p.funcs := Array.mem_of_getElem? hfunc
            exact hextends.type ((hp.types htyped).funcs func hmem ty hty)
      · rcases Array.mem_push.1 hblock with hold | rfl
        · exact .inl hold
        · exact .inr fun i hi => absurd hi List.not_mem_nil
  | @addInstr b block position op ty name hblock hposition =>
      refine hp.of_entries hextends (fun _ h => .inl h) (fun block' hblock' => ?_)
        fun instr hinstr => ?_
      · rcases Array.mem_or_eq_of_mem_setIfInBounds hblock' with hold | rfl
        · exact .inl hold
        · refine .inr fun i hi => ?_
          rcases (List.mem_insertIdx hposition).1 hi with rfl | hi
          · simp [Program.instr?]
          · exact hextends.isSome_instr? (hp.isSome_instr? hblock i hi)
      · rcases Array.mem_push.1 hinstr with hold | rfl
        · exact .inl hold
        · refine .inr ⟨fun c hc => ?_, hextends.op hchange⟩
          obtain rfl := Option.some.inj hc
          exact hextends.isSome_block? (Option.isSome_iff_exists.2 ⟨block, hblock⟩)
  | @setOp i instr op hinstr =>
      refine hp.of_entries hextends (fun _ h => .inl h) (fun _ h => .inl h) fun instr' hinstr' => ?_
      rcases Array.mem_or_eq_of_mem_setIfInBounds hinstr' with hold | rfl
      · exact .inl hold
      · refine .inr ⟨fun b hb => ?_, hextends.op (hchange instr hinstr)⟩
        exact hextends.isSome_block? (hp.placed instr (Array.mem_of_getElem? hinstr) b hb)

namespace Outcome.IsAnswer

variable {α β : Type}

theorem iff_failsOnly {outcome : Except Failure α} :
    IsAnswer outcome ↔ FailsOnly (fun failure => ∀ fault, failure ≠ .fault fault) outcome := by
  constructor
  · rintro h failure rfl fault rfl
    exact h fault rfl
  · intro h fault hfault
    exact h _ hfault fault rfl

theorem ok (a : α) : IsAnswer (.ok a) := fun _ h => nomatch h

theorem rejected (rejection : Rejection) :
    IsAnswer (.error (.rejected rejection) : Except Failure α) := by
  intro fault h
  cases h

theorem bind {x : Except Failure α} {f : α → Except Failure β} (hx : IsAnswer x)
    (hf : ∀ a, x = .ok a → IsAnswer (f a)) : IsAnswer (x >>= f) :=
  iff_failsOnly.2 (.bind (iff_failsOnly.1 hx) fun a ha => iff_failsOnly.1 (hf a ha))

/-- A requirement that is not met is an answer. -/
theorem require {P : Prop} [Decidable P] {rejection : Rejection} {next : α → Except Failure β}
    {rest : Except Failure β} (hrest : P → IsAnswer rest) :
    IsAnswer (if P then rest else throw (.rejected rejection) >>= next) := by
  split
  · next hP => exact hrest hP
  · exact rejected rejection

theorem guard {P : Prop} [Decidable P] {rejection : Rejection} {next : α → Except Failure β}
    {rest : Except Failure β} (hrest : ¬ P → IsAnswer rest) :
    IsAnswer (if P then throw (.rejected rejection) >>= next else rest) := by
  split
  · exact rejected rejection
  · next hP => exact hrest hP

theorem mapM {f : α → Except Failure β} {xs : List α} (h : ∀ a ∈ xs, IsAnswer (f a)) :
    IsAnswer (xs.mapM f) :=
  iff_failsOnly.2 (.mapM fun a ha => iff_failsOnly.1 (h a ha))

theorem forM {f : α → Except Failure Unit} {xs : List α} (h : ∀ a ∈ xs, IsAnswer (f a)) :
    IsAnswer (xs.forM f) :=
  iff_failsOnly.2 (.forM fun a ha => iff_failsOnly.1 (h a ha))

theorem foldlM {f : β → α → Except Failure β} {xs : List α}
    (h : ∀ a ∈ xs, ∀ b, IsAnswer (f b a)) (b : β) : IsAnswer (xs.foldlM f b) :=
  iff_failsOnly.2 (.foldlM (fun a ha b => iff_failsOnly.1 (h a ha b)) b)

end Outcome.IsAnswer

namespace Program

open Outcome

variable {p : Program} {f : FuncRef} {b : BlockRef} {i : InstrRef}

theorem isAnswer_func (h : (p.func? f).isSome) : IsAnswer (p.func f) := by
  obtain ⟨func, hfunc⟩ := Option.isSome_iff_exists.1 h
  rw [func_eq_ok_iff.2 hfunc]
  exact .ok func

theorem isAnswer_block (h : (p.block? b).isSome) : IsAnswer (p.block b) := by
  obtain ⟨block, hblock⟩ := Option.isSome_iff_exists.1 h
  rw [block_eq_ok_iff.2 hblock]
  exact .ok block

theorem isAnswer_instr (h : (p.instr? i).isSome) : IsAnswer (p.instr i) := by
  obtain ⟨instr, hinstr⟩ := Option.isSome_iff_exists.1 h
  rw [instr_eq_ok_iff.2 hinstr]
  exact .ok instr

theorem isAnswer_structTy {s : StructRef} (h : (p.structTy? s).isSome) :
    IsAnswer (p.structTy s) := by
  obtain ⟨found, hfound⟩ := Option.isSome_iff_exists.1 h
  simp only [structTy, hfound]
  exact .ok found

theorem isAnswer_valueType {v : Value} (h : p.ValueInRange v) : IsAnswer (p.valueType v) := by
  cases v with
  | instr i => exact .bind (isAnswer_instr h) fun _ _ => .ok _
  | param f index =>
      obtain ⟨func, hfunc, hindex⟩ := h
      refine .bind (isAnswer_func (Option.isSome_iff_exists.2 ⟨func, hfunc⟩)) fun func' hfunc' => ?_
      obtain rfl := Option.some.inj (hfunc.symm.trans (func_eq_ok_iff.1 hfunc'))
      rw [List.getElem?_eq_getElem hindex]
      exact .ok _
  | int | null | func => exact .ok _

/-- The type of a variable is there if the types of instructions and parameters are. -/
theorem Complete.typeInRange {typed : Prop} (hp : p.Complete typed) (htyped : typed) {v : Value}
    {ty : Ty} (hv : v.isVariable) (h : p.valueType v = .ok ty) : p.TypeInRange ty := by
  cases v with
  | instr i =>
      obtain ⟨instr, hinstr, heq⟩ := bind_eq_ok_iff.1 h
      obtain rfl := pure_eq_ok_iff.1 heq
      have hmem : instr ∈ p.instrs := Array.mem_of_getElem? (instr_eq_ok_iff.1 hinstr)
      exact (hp.types htyped).instrs instr hmem _ List.mem_cons_self
  | param f index =>
      obtain ⟨func, hfunc, heq⟩ := bind_eq_ok_iff.1 h
      split at heq
      · next ty' hindex =>
          obtain rfl := Except.ok.inj heq
          have hmem : func ∈ p.funcs := Array.mem_of_getElem? (func_eq_ok_iff.1 hfunc)
          exact (hp.types htyped).funcs func hmem _
            (List.mem_cons_of_mem _ (List.mem_of_getElem? hindex))
      · cases heq
  | int | null | func => cases hv

theorem Complete.typesInRange {typed : Prop} (hp : p.Complete typed) (htyped : typed)
    {values : List Value} {types : List Ty} (hvalues : ∀ v ∈ values, v.isVariable)
    (h : p.valueTypes values = .ok types) : ∀ ty ∈ types, p.TypeInRange ty := by
  intro ty hty
  obtain ⟨v, hv, hlookup⟩ := exists_of_forall₂_of_mem (mapM_eq_ok_iff.1 h) hty
  exact hp.typeInRange htyped (hvalues v hv) hlookup

theorem isSome_func?_of_param {index : Nat} (h : p.ValueInRange (.param f index)) :
    (p.func? f).isSome := by
  obtain ⟨func, hfunc, -⟩ := h
  exact Option.isSome_iff_exists.2 ⟨func, hfunc⟩

theorem paramValue_of_inRange {index : Nat} (h : p.ValueInRange (.param f index)) :
    p.paramValue f index = .ok (.param f index) := by
  obtain ⟨func, hfunc, hindex⟩ := h
  rw [paramValue, func_eq_ok_iff.2 hfunc]
  exact if_pos hindex

theorem isAnswer_valueTypes {values : List Value} (h : ∀ v ∈ values, p.ValueInRange v) :
    IsAnswer (p.valueTypes values) :=
  .mapM fun v hv => isAnswer_valueType (h v hv)

theorem isAnswer_valueName {v : Value} (h : p.ValueInRange v) : IsAnswer (p.valueName v) := by
  cases v with
  | instr i => exact .bind (isAnswer_instr h) fun _ _ => .ok _
  | func f => exact .bind (isAnswer_func h) fun _ _ => .ok _
  | param | int | null => exact .ok _

theorem InRange.isAnswer_terminator (hp : p.InRange) (hb : (p.block? b).isSome) :
    IsAnswer (p.terminator b) := by
  refine .bind (isAnswer_block hb) fun block hblock => ?_
  split
  · exact .ok none
  · next last hlast =>
      have hlisted := hp.isSome_instr? (block_eq_ok_iff.1 hblock) last (List.mem_of_getLast? hlast)
      exact .bind (isAnswer_instr hlisted) fun _ _ => .ok _

theorem InRange.isAnswer_successors (hp : p.InRange) (hb : (p.block? b).isSome) :
    IsAnswer (p.successors b) := by
  refine .bind (hp.isAnswer_terminator hb) fun last? hlast => ?_
  split
  · exact .ok []
  · exact .bind (isAnswer_instr (hp.isSome_of_lists (lists_of_terminator hlast))) fun _ _ => .ok _

theorem isAnswer_checkTargets {func : Func} {block : Block} {targets : List BlockRef}
    (h : ∀ b ∈ targets, (p.block? b).isSome) : IsAnswer (p.checkTargets func block targets) := by
  unfold checkTargets
  split
  · exact .ok ()
  · next target htarget =>
      have hmem := List.mem_of_find?_eq_some htarget
      exact .bind (isAnswer_block (h target hmem)) fun _ _ => .rejected _

theorem isAnswer_checkIncoming {func : Func} {incoming : List (Value × BlockRef)}
    (h : ∀ b ∈ incoming.map Prod.snd, (p.block? b).isSome) :
    IsAnswer (p.checkIncoming func i incoming) := by
  unfold checkIncoming
  split
  · next pred hpred =>
      have hmem := List.mem_map_of_mem (f := Prod.snd) (List.mem_of_find?_eq_some hpred)
      exact .bind (isAnswer_block (h pred hmem)) fun _ _ => .rejected _
  · split
    · exact .ok ()
    · next pred hpred =>
        obtain ⟨pair, hpair, -, -, -, -, rfl⟩ := firstAmbiguous?_eq_some hpred
        exact .bind (isAnswer_block (h _ (List.mem_map_of_mem hpair))) fun _ _ => .rejected _

theorem isAnswer_checkParams {func : Func} {values : List Value}
    (h : ∀ v ∈ values, p.ValueInRange v) : IsAnswer (p.checkParams f func i values) := by
  induction values with
  | nil => exact .ok ()
  | cons v values ih =>
      obtain ⟨hv, hvalues⟩ := List.forall_mem_cons.1 h
      cases v with
      | param owner index =>
          unfold checkParams
          dsimp only
          split
          · exact .bind (isAnswer_func (isSome_func?_of_param hv)) fun _ _ =>
              .bind (.rejected _) fun _ _ => ih hvalues
          · exact ih hvalues
      | instr | int | null | func => exact ih hvalues

theorem isAnswer_firstTerminator {is : List InstrRef} (h : ∀ i ∈ is, (p.instr? i).isSome) :
    IsAnswer (p.firstTerminator is) := by
  induction is with
  | nil => exact .ok none
  | cons i is ih =>
      obtain ⟨hi, his⟩ := List.forall_mem_cons.1 h
      refine .bind (isAnswer_instr hi) fun instr _ => ?_
      split
      · exact .ok _
      · exact ih his

theorem InRange.isAnswer_checkInstr (hp : p.InRange) {func : Func} {block : Block}
    (hi : (p.instr? i).isSome) : IsAnswer (p.checkInstr f func b block i) := by
  refine .bind (isAnswer_instr hi) fun instr hinstr => ?_
  have hop := hp.op (instr_eq_ok_iff.1 hinstr)
  refine .guard fun _ => .bind (isAnswer_checkTargets hop.targets) fun _ _ => ?_
  exact .bind (isAnswer_checkIncoming hop.preds) fun _ _ => isAnswer_checkParams hop.operands

theorem InRange.isAnswer_checkBlock (hp : p.InRange) {func : Func} (hb : (p.block? b).isSome) :
    IsAnswer (p.checkBlock f func b) := by
  refine .bind (isAnswer_block hb) fun block hblock => ?_
  have hlisted := hp.isSome_instr? (block_eq_ok_iff.1 hblock)
  refine .guard fun _ => ?_
  split
  · exact .rejected _
  · next last hlast =>
      refine .bind (isAnswer_instr (hlisted last (List.mem_of_getLast? hlast))) fun instr _ => ?_
      refine .guard fun _ => ?_
      have hinit := isAnswer_firstTerminator fun i hi => hlisted i (List.dropLast_subset _ hi)
      refine .bind hinit fun early? _ => ?_
      split
      · exact .rejected _
      · exact .forM fun i hi => hp.isAnswer_checkInstr (hlisted i hi)

/-- The check of a function comes to an end. -/
theorem InRange.isAnswer_check (hp : p.InRange) (hf : (p.func? f).isSome) :
    IsAnswer (p.check f) := by
  refine .bind (isAnswer_func hf) fun func hfunc => ?_
  have hlayout := hp.isSome_block? (func_eq_ok_iff.1 hfunc)
  split
  · split
    · exact .ok ()
    · exact .rejected _
  · refine .guard fun _ => .require fun _ => ?_
    exact .forM fun b hb => hp.isAnswer_checkBlock (hlayout b hb)

theorem isAnswer_typeText {ty : Ty} (h : p.TypeInRange ty) : IsAnswer (p.typeText ty) := by
  cases ty with
  | struct ref => exact .bind (isAnswer_structTy h) fun _ _ => .ok _
  | void | int | float | ptr => exact .ok _

theorem isAnswer_valueText {v : Value} (hv : p.ValueInRange v) (hconstant : p.ConstantInRange v) :
    IsAnswer (p.valueText v) := by
  cases v with
  | instr | param => exact .bind (isAnswer_valueName hv) fun _ _ => .ok _
  | int => exact .bind (isAnswer_typeText hconstant) fun _ _ => .ok _
  | null => exact .ok _
  | func => exact .bind (isAnswer_func hv) fun _ _ => .ok _

theorem isAnswer_valuesText {values : List Value}
    (h : ∀ v ∈ values, p.ValueInRange v ∧ p.ConstantInRange v) : IsAnswer (p.valuesText values) :=
  .bind (.mapM fun v hv => isAnswer_valueText (h v hv).1 (h v hv).2) fun _ _ => .ok _

theorem isAnswer_labelText (h : (p.block? b).isSome) : IsAnswer (p.labelText b) :=
  .bind (isAnswer_block h) fun _ _ => .ok _

theorem OpComplete.isAnswer_opText {typed : Prop} {op : Op} {ty : Ty}
    (h : p.OpComplete typed op ty) (htyped : typed) : IsAnswer (p.opText ty op) := by
  have htype : ∀ t ∈ ty :: op.types, IsAnswer (p.typeText t) := fun t ht =>
    isAnswer_typeText (h.types htyped t ht)
  have hreads : ∀ v ∈ op.operands, p.ValueInRange v ∧ p.ConstantInRange v := fun v hv =>
    ⟨h.operands v hv, h.constants htyped v hv⟩
  have hvalue : ∀ v ∈ op.operands, IsAnswer (p.valueText v) := fun v hv =>
    isAnswer_valueText (hreads v hv).1 (hreads v hv).2
  have htarget : ∀ b ∈ op.successors, IsAnswer (p.labelText b) := fun b hb =>
    isAnswer_labelText (h.targets b hb)
  cases op with
  | binary | compare | store => exact .bind (isAnswer_valuesText hreads) fun _ _ => .ok _
  | phi incoming =>
      refine .bind (.mapM fun pair hpair => ?_) fun _ _ =>
        .bind (htype _ (.head _)) fun _ _ => .ok _
      refine .bind (hvalue _ (List.mem_map_of_mem hpair)) fun _ _ => ?_
      exact .bind (isAnswer_labelText (h.preds _ (List.mem_map_of_mem hpair))) fun _ _ => .ok _
  | alloca => exact .bind (htype _ (.tail _ (.head _))) fun _ _ => .ok _
  | load | cast =>
      exact .bind (htype _ (.head _)) fun _ _ => .bind (hvalue _ (.head _)) fun _ _ => .ok _
  | fieldAddr =>
      refine .bind (htype _ (.tail _ (.head _))) fun _ _ => ?_
      exact .bind (hvalue _ (.head _)) fun _ _ => .ok _
  | call =>
      refine .bind (hvalue _ (.head _)) fun _ _ => ?_
      exact .bind (isAnswer_valuesText fun v hv => hreads v (.tail _ hv)) fun _ _ => .ok _
  | br => exact .bind (htarget _ (.head _)) fun _ _ => .ok _
  | condBr =>
      refine .bind (hvalue _ (.head _)) fun _ _ => .bind (htarget _ (.head _)) fun _ _ => ?_
      exact .bind (htarget _ (.tail _ (.head _))) fun _ _ => .ok _
  | switch value cases otherwise =>
      refine .bind (.mapM fun pair hpair => ?_) fun _ _ => .bind (hvalue _ (.head _)) fun _ _ => ?_
      · have hmem := List.mem_append_left [otherwise] (List.mem_map_of_mem (f := Prod.snd) hpair)
        exact .bind (htarget _ hmem) fun _ _ => .ok _
      · have hmem := List.mem_append_right (cases.map Prod.snd) (List.mem_singleton_self otherwise)
        exact .bind (htarget _ hmem) fun _ _ => .ok _
  | ret value =>
      cases value with
      | none => exact .ok _
      | some v => exact .bind (hvalue _ (.head _)) fun _ _ => .ok _
  | unreachable => exact .ok _

/-- A function can be written out if all references lead somewhere. -/
theorem Complete.isAnswer_funcText {typed : Prop} (hp : p.Complete typed) (htyped : typed)
    (hf : (p.func? f).isSome) : IsAnswer (p.funcText f) := by
  have hinstr {i : InstrRef} (hi : (p.instr? i).isSome) : IsAnswer (p.instrText i) := by
    refine .bind (isAnswer_instr hi) fun instr hinstr => ?_
    refine .bind ((hp.op (instr_eq_ok_iff.1 hinstr)).isAnswer_opText htyped) fun _ _ => ?_
    split
    · exact .bind (isAnswer_valueName hi) fun _ _ => .ok _
    · exact .ok _
  have hblock {b : BlockRef} (hb : (p.block? b).isSome) : IsAnswer (p.blockText b) := by
    refine .bind (isAnswer_block hb) fun block hblock => ?_
    exact .bind (.mapM fun i hi => hinstr (hp.isSome_instr? (block_eq_ok_iff.1 hblock) i hi))
      fun _ _ => .ok _
  refine .bind (isAnswer_func hf) fun func hfunc => ?_
  have hlookup := func_eq_ok_iff.1 hfunc
  have htype : ∀ ty ∈ func.ret :: func.params, IsAnswer (p.typeText ty) := fun ty hty =>
    isAnswer_typeText ((hp.types htyped).funcs func (Array.mem_of_getElem? hlookup) ty hty)
  refine .bind (.mapM fun pair hpair => ?_) fun params _ => ?_
  · exact .bind (htype _ (.tail _ (List.fst_mem_of_mem_zipIdx hpair))) fun _ _ => .ok _
  refine .bind (htype _ (.head _)) fun _ _ => ?_
  dsimp only
  split
  · exact .ok _
  · exact .bind (.mapM fun b hb => hblock (hp.isSome_block? hlookup b hb)) fun _ _ => .ok _

end Program

/-- One of the tables has more entries than there are numbers. -/
def Program.Overfull (p : Program) : Prop :=
  numberLimit ≤ p.funcs.size ∨ numberLimit ≤ p.blocks.size ∨ numberLimit ≤ p.instrs.size ∨
    numberLimit ≤ p.structs.size

theorem Program.Overfull.of_instrs {p : Program} (h : numberLimit ≤ p.instrs.size) : p.Overfull :=
  .inr (.inr (.inl h))

namespace Edit

open Outcome Program

variable {α β : Type} {p q r : Program} {typed short : Prop}

/-- Where the edit succeeds in `p`, all references lead somewhere, and its result and the program
satisfy `post`. It is broken off only by a number that is too large, and then a table is overfull
or there is the other shortage `short`. -/
structure Robust (typed short : Prop) (edit : Edit α) (post : α → Program → Prop) (p : Program) :
    Prop where
  ok : ∀ a q, edit.apply p = (.ok a, q) → q.Complete typed ∧ p.Extends q ∧ post a q
  fault : ∀ fault q, edit.apply p = (.error (.fault fault), q) →
    (∃ n, fault = .numberTooLarge n) ∧ (q.Overfull ∨ short)

namespace Robust

variable {edit : Edit α} {post post' : α → Program → Prop}

theorem of_pure (hp : p.Complete typed) {a : α} (h : post a p) :
    Robust typed short (pure a) post p where
  ok := by
    intro b q heq
    obtain ⟨rfl, rfl⟩ := pure_eq_ok_iff.1 heq
    exact ⟨hp, .refl p, h⟩
  fault := by
    intro fault q heq
    cases heq

theorem of_reject (rejection : Rejection) : Robust typed short (reject rejection) post p where
  ok := fun _ _ h => absurd h throw_ne_ok
  fault := by
    intro fault q heq
    cases heq

theorem imp (h : Robust typed short edit post p)
    (hpost : ∀ a q, q.Complete typed → p.Extends q → post a q → post' a q) :
    Robust typed short edit post' p where
  ok := by
    intro a q heq
    obtain ⟨hq, hextends, ha⟩ := h.ok a q heq
    exact ⟨hq, hextends, hpost a q hq hextends ha⟩
  fault := h.fault

theorem bind {first : Edit α} {second : α → Edit β} {middle : α → Program → Prop}
    {post : β → Program → Prop} (hfirst : Robust typed short first middle p)
    (hsecond : ∀ a q, q.Complete typed → p.Extends q → middle a q →
      Robust typed short (second a) post q) :
    Robust typed short (first >>= second) post p where
  ok := by
    intro b r heq
    obtain ⟨a, q, ha, hb⟩ := apply_bind_eq_ok_iff.1 heq
    obtain ⟨hq, hextends, hmiddle⟩ := hfirst.ok a q ha
    obtain ⟨hr, hextends', hpost⟩ := (hsecond a q hq hextends hmiddle).ok b r hb
    exact ⟨hr, hextends.trans hextends', hpost⟩
  fault := by
    intro fault r heq
    rw [apply_bind] at heq
    split at heq
    · next a q ha =>
        obtain ⟨hq, hextends, hmiddle⟩ := hfirst.ok a q ha
        exact (hsecond a q hq hextends hmiddle).fault fault r heq
    · next failure q hfailure =>
        obtain ⟨hfault, rfl⟩ := Prod.mk.inj heq
        obtain rfl := Except.error.inj hfault
        exact hfirst.fault fault q hfailure

theorem get_bind {next : Program → Edit β} {post : β → Program → Prop}
    (h : Robust typed short (next p) post p) : Robust typed short (get >>= next) post p where
  ok := fun b q heq => h.ok b q (get_bind_eq_ok_iff.1 heq)
  fault := by
    intro fault q heq
    rw [apply_bind] at heq
    exact h.fault fault q heq

/-- Asking the program something that has an answer. -/
theorem answer_bind {answer : Except Failure α} {next : α → Edit β} {post : β → Program → Prop}
    (h : IsAnswer answer) (hnext : ∀ a, answer = .ok a → Robust typed short (next a) post p) :
    Robust typed short ((liftM answer : Edit α) >>= next) post p := by
  cases answer with
  | ok a =>
      refine ⟨fun b q heq => ?_, fun fault q heq => ?_⟩
      · exact (hnext a rfl).ok b q heq
      · exact (hnext a rfl).fault fault q heq
  | error failure =>
      refine ⟨fun b q heq => ?_, fun fault q heq => ?_⟩
      · cases heq
      · obtain ⟨hfault, -⟩ := Prod.mk.inj heq
        exact absurd (by rw [Except.error.inj hfault]) (h fault)

/-- An edit that needs one more entry in a table. -/
theorem of_entry {size : Nat} (hfull : numberLimit ≤ size → p.Overfull)
    (hbreaks : numberLimit ≤ size → edit.apply p = (.error (.fault (.numberTooLarge size)), p))
    (hsucceeds : size < numberLimit →
      ∃ a q change, edit.apply p = (.ok a, q) ∧ Change.Makes p change q ∧
        q.Complete typed ∧ post a q) :
    Robust typed short edit post p := by
  rcases Nat.lt_or_ge size numberLimit with hlt | hge
  · obtain ⟨a, q, change, happly, hmakes, hq, hpost⟩ := hsucceeds hlt
    refine ⟨fun b r heq => ?_, fun fault r heq => ?_⟩
    · obtain ⟨hb, rfl⟩ := Prod.mk.inj (happly.symm.trans heq)
      obtain rfl := Except.ok.inj hb
      exact ⟨hq, .of_makes hmakes, hpost⟩
    · cases happly.symm.trans heq
  · have happly := hbreaks hge
    refine ⟨fun b r heq => ?_, fun fault r heq => ?_⟩
    · cases happly.symm.trans heq
    · obtain ⟨hfault, rfl⟩ := Prod.mk.inj (happly.symm.trans heq)
      cases hfault
      exact ⟨⟨size, rfl⟩, .inl (hfull hge)⟩

theorem mapM {edit : α → Edit β} {good : β → Program → Prop}
    (hgood : ∀ y q r, good y q → q.Extends r → good y r) (hp : p.Complete typed) {xs : List α}
    (h : ∀ x ∈ xs, ∀ q, q.Complete typed → p.Extends q → Robust typed short (edit x) good q) :
    Robust typed short (xs.mapM edit) (fun ys q => ∀ y ∈ ys, good y q) p := by
  induction xs generalizing p with
  | nil =>
      rw [List.mapM_nil]
      exact of_pure hp (by simp)
  | cons x xs ih =>
      rw [List.mapM_cons]
      obtain ⟨hx, hxs⟩ := List.forall_mem_cons.1 h
      refine bind (hx p hp (.refl p)) fun y q hq hpq hy => ?_
      refine bind (ih hq fun x hx r hr hqr => hxs x hx r hr (hpq.trans hqr))
        fun ys r hr hqr hys => ?_
      exact of_pure hr (List.forall_mem_cons.2 ⟨hgood y q r hy hqr, hys⟩)

theorem forM {edit : α → Edit Unit} (hp : p.Complete typed) {xs : List α}
    (h : ∀ x ∈ xs, ∀ q, q.Complete typed → p.Extends q →
      Robust typed short (edit x) (fun _ _ => True) q) :
    Robust typed short (xs.forM edit) (fun _ _ => True) p := by
  induction xs generalizing p with
  | nil => exact of_pure hp trivial
  | cons x xs ih =>
      obtain ⟨hx, hxs⟩ := List.forall_mem_cons.1 h
      exact bind (hx p hp (.refl p)) fun _ q hq hpq _ =>
        ih hq fun x hx r hr hqr => hxs x hx r hr (hpq.trans hqr)

section Primitives

variable {f : FuncRef} {func : Func} {b : BlockRef} {block : Block} {position : Nat} {op : Op}
  {ty : Ty}

theorem apply_nextIndex_bind {size : Nat} (rest : Nat → Edit α) (h : numberLimit ≤ size) :
    (nextIndex size >>= rest).apply p = (.error (.fault (.numberTooLarge size)), p) := by
  rw [apply_bind, nextIndex, if_neg (Nat.not_lt.2 h)]
  rfl

theorem addFunc (hp : p.Complete typed) (hblocks : func.blocks = [])
    (htypes : ∀ ty ∈ func.ret :: func.params, p.TypeInRange ty) :
    Robust typed short (Edit.addFunc func) (fun f q => q.func? f = some func) p := by
  refine of_entry .inl (fun h => apply_nextIndex_bind _ h) fun h => ?_
  have hmakes : (Change.addFunc func).Makes p _ := .addFunc hblocks
  exact ⟨_, _, _, apply_addFunc func h, hmakes, hp.makes hmakes fun _ => htypes,
    Array.getElem?_push_size⟩

theorem requireFunc (hp : p.Complete typed) {name : String} {params : List Ty} {ret : Ty}
    (htypes : ∀ ty ∈ ret :: params, p.TypeInRange ty) :
    Robust typed short (Edit.requireFunc name params ret) (fun f q => (q.func? f).isSome) p := by
  refine get_bind ?_
  split
  · next f hf =>
      obtain ⟨k, hk, rfl⟩ := Option.map_eq_some_iff.1 hf
      obtain ⟨hlt, -⟩ := Array.findIdx?_eq_some_iff_getElem.1 hk
      exact of_pure hp (by simp [Program.func?, hlt])
  · refine (addFunc hp rfl htypes).imp fun f q _ _ hf => ?_
    exact Option.isSome_iff_exists.2 ⟨_, hf⟩

theorem addStruct (hp : p.Complete typed) {name : String} {fields : List Ty} :
    Robust typed short (Edit.addStruct name fields)
      (fun s q => q.structTy? s = some { name, fields }) p := by
  refine of_entry (fun h => .inr (.inr (.inr h))) (fun h => apply_nextIndex_bind _ h) fun h => ?_
  have hmakes : (Change.addStruct { name, fields }).Makes p _ := .addStruct
  exact ⟨_, _, _, apply_addStruct name fields h, hmakes, hp.makes hmakes trivial,
    Array.getElem?_push_size⟩

theorem insertBlock (hp : p.Complete typed) {name : String} (hfunc : p.func? f = some func)
    (hposition : position ≤ func.blocks.length) :
    Robust typed short (Edit.insertBlock f position name) (fun b q => (q.block? b).isSome) p := by
  refine of_entry (fun h => .inr (.inl h)) (fun h => apply_nextIndex_bind _ h) fun h => ?_
  have hmakes : (Change.addBlock f position name).Makes p _ := .addBlock hfunc hposition
  refine ⟨_, _, _, apply_insertBlock name hfunc hposition h, hmakes, hp.makes hmakes trivial, ?_⟩
  simp [Program.block?]

theorem appendBlock (hp : p.Complete typed) {name : String} (hf : (p.func? f).isSome) :
    Robust typed short (Edit.appendBlock f name) (fun b q => (q.block? b).isSome) p :=
  get_bind (answer_bind (isAnswer_func hf) fun _ hfunc =>
    insertBlock hp (func_eq_ok_iff.1 hfunc) (Nat.le_refl _))

theorem insertInstr (hp : p.Complete typed) {name : Option String}
    (hblock : p.block? b = some block) (hposition : position ≤ block.instrs.length)
    (hop : p.OpComplete typed op ty) :
    Robust typed short (Edit.insertInstr b position op ty name)
      (fun i q => (q.instr? i).isSome ∧ p.instrs.size < q.instrs.size) p := by
  refine of_entry .of_instrs (fun h => ?_) fun h => ?_
  · have haddInstr : (Edit.addInstr { block := some b, op, ty, name }).apply p =
        (.error (.fault (.numberTooLarge p.instrs.size)), p) := apply_nextIndex_bind _ h
    rw [Edit.insertInstr, apply_bind, haddInstr]
  · have hmakes : (Change.addInstr b position op ty name).Makes p _ := .addInstr hblock hposition
    refine ⟨_, _, _, apply_insertInstr op ty name hblock hposition h, hmakes,
      hp.makes hmakes hop, ?_⟩
    simp [Program.instr?]

theorem appendInstr (hp : p.Complete typed) {name : Option String} (hb : (p.block? b).isSome)
    (hop : p.OpComplete typed op ty) :
    Robust typed short (Edit.appendInstr b op ty name)
      (fun i q => (q.instr? i).isSome ∧ p.instrs.size < q.instrs.size) p :=
  get_bind (answer_bind (isAnswer_block hb) fun _ hblock =>
    insertInstr hp (block_eq_ok_iff.1 hblock) (Nat.le_refl _) hop)

theorem insertBeforeEnd (hp : p.Complete typed) {name : Option String} (hb : (p.block? b).isSome)
    (hop : p.OpComplete typed op ty) :
    Robust typed short (Edit.insertBeforeEnd b op ty name)
      (fun i q => (q.instr? i).isSome ∧ p.instrs.size < q.instrs.size) p := by
  refine get_bind (answer_bind (isAnswer_block hb) fun block hblock => ?_)
  have hlookup := block_eq_ok_iff.1 hblock
  refine answer_bind (hp.isAnswer_terminator hb) fun last? _ => ?_
  split
  · exact insertInstr hp hlookup (Nat.sub_le ..) hop
  · exact insertInstr hp hlookup (Nat.le_refl _) hop

theorem setInstr (hp : p.Complete typed) {i : InstrRef} {instr : Instr}
    (hinstr : p.instr? i = some instr) (hop : p.OpComplete typed op instr.ty) :
    Robust typed short (Edit.setInstr i { instr with op }) (fun _ _ => True) p where
  ok := by
    intro _ q heq
    obtain rfl := modify_eq_ok_iff.1 heq
    have hmakes : (Change.setOp i op).Makes p _ := .setOp hinstr
    refine ⟨hp.makes hmakes fun instr' hinstr' => ?_, .of_makes hmakes, trivial⟩
    obtain rfl := Option.some.inj (hinstr.symm.trans hinstr')
    exact hop
  fault := by
    intro fault q heq
    cases heq

end Primitives

end Robust

end Edit

end Decouple
