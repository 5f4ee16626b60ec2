import Decouple.Program.Lookup

/-!
# Well-formed functions

What it means for a function to be well-formed, said about its parts and without
an order in which they are looked at:

* `WellFormedInstr`: the instruction is placed where it is listed, names blocks of
  the layout only, gives one value for one predecessor, and reads no parameter of
  another function;
* `WellFormedBlock`: the block belongs to the function and ends in its only
  terminator, and its instructions are well-formed;
* `WellFormed`: a declaration has no blocks, and a definition has some, each
  listed once and well-formed.

`InRange` says that the references of a program to functions, blocks and
instructions lead somewhere. It is what keeps a computation over a program from
breaking down, whatever else is wrong with it. References to structure types are
followed where a function is written out; `TypesInRange` says that they lead
somewhere too.
-/

namespace Decouple

/-- The types that an operation names beside those of its operands. -/
def Op.types : Op → List Ty
  | .alloca ty => [ty]
  | .fieldAddr _ layout _ => [.struct layout]
  | _ => []

namespace Program

/-- The instruction `i` may be listed in the block `b` of the function `f`, whose
layout is `layout`. -/
structure WellFormedInstr (p : Program) (f : FuncRef) (layout : List BlockRef) (b : BlockRef)
    (i : InstrRef) (instr : Instr) : Prop where
  lookup : p.instr? i = some instr
  placed : instr.block = some b
  targets : ∀ target ∈ instr.op.successors, target ∈ layout
  preds : ∀ pair ∈ instr.op.incoming, pair.2 ∈ layout
  unambiguous : ∀ pair ∈ instr.op.incoming, ∀ other ∈ instr.op.incoming,
    pair.2 = other.2 → pair.1 = other.1
  params : ∀ owner index, Value.param owner index ∈ instr.op.operands → owner = f

def Terminated (p : Program) (block : Block) : Prop :=
  ∃ init last, block.instrs = init ++ [last] ∧
    (∃ instr, p.instr? last = some instr ∧ instr.op.isTerminator) ∧
    ∀ i ∈ init, ∃ instr, p.instr? i = some instr ∧ ¬ instr.op.isTerminator

structure WellFormedBlock (p : Program) (f : FuncRef) (layout : List BlockRef) (b : BlockRef)
    (block : Block) : Prop where
  lookup : p.block? b = some block
  owner : block.func = f
  terminated : p.Terminated block
  instrs : ∀ i ∈ block.instrs, ∃ instr, p.WellFormedInstr f layout b i instr

structure WellFormed (p : Program) (f : FuncRef) (func : Func) : Prop where
  lookup : p.func? f = some func
  declaration : func.external → func.blocks = []
  nonempty : ¬ func.external → func.blocks ≠ []
  nodup : func.blocks.Nodup
  blocks : ∀ b ∈ func.blocks, ∃ block, p.WellFormedBlock f func.blocks b block

/-- The references in a value lead somewhere; a parameter is one of its
function. -/
def ValueInRange (p : Program) : Value → Prop
  | .instr i => (p.instr? i).isSome
  | .param f index => ∃ func, p.func? f = some func ∧ index < func.params.length
  | .int _ _ => True
  | .null => True
  | .func f => (p.func? f).isSome

/-- The references of a program to functions, blocks and instructions lead
somewhere. -/
structure InRange (p : Program) : Prop where
  layout : ∀ func ∈ p.funcs, ∀ b ∈ func.blocks, (p.block? b).isSome
  listed : ∀ block ∈ p.blocks, ∀ i ∈ block.instrs, (p.instr? i).isSome
  placed : ∀ instr ∈ p.instrs, ∀ b, instr.block = some b → (p.block? b).isSome
  operands : ∀ instr ∈ p.instrs, ∀ v ∈ instr.op.operands, p.ValueInRange v
  targets : ∀ instr ∈ p.instrs, ∀ b ∈ instr.op.successors, (p.block? b).isSome
  preds : ∀ instr ∈ p.instrs, ∀ pair ∈ instr.op.incoming, (p.block? pair.2).isSome

def TypeInRange (p : Program) : Ty → Prop
  | .struct ref => (p.structTy? ref).isSome
  | _ => True

def ConstantInRange (p : Program) : Value → Prop
  | .int _ ty => p.TypeInRange ty
  | _ => True

/-- The structure types that functions and instructions mention are there. -/
structure TypesInRange (p : Program) : Prop where
  funcs : ∀ func ∈ p.funcs, ∀ ty ∈ func.ret :: func.params, p.TypeInRange ty
  instrs : ∀ instr ∈ p.instrs, ∀ ty ∈ instr.ty :: instr.op.types, p.TypeInRange ty
  constants : ∀ instr ∈ p.instrs, ∀ v ∈ instr.op.operands, p.ConstantInRange v

end Program

end Decouple
