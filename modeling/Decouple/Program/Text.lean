import Decouple.Program.Lookup

/-!
# The written form of a function

A declaration is one line; a definition lists its blocks, one instruction to a
line. A value is written by its name: `%` before instructions and parameters,
`@` before functions, the type before an integer. Structure types and blocks are
written by name as well, so writing follows references and breaks down with one
that leads nowhere.
-/

namespace Decouple

def BinOp.text : BinOp → String
  | .add => "add"
  | .sub => "sub"
  | .mul => "mul"
  | .sdiv => "sdiv"
  | .and => "and"
  | .or => "or"
  | .xor => "xor"
  | .shl => "shl"

def Comparison.text : Comparison → String
  | .eq => "eq"
  | .ne => "ne"
  | .slt => "slt"
  | .sle => "sle"
  | .sgt => "sgt"
  | .sge => "sge"

namespace Program

def typeText (p : Program) : Ty → Except Failure String
  | .struct ref => return "%" ++ (← p.structTy ref).name
  | ty => return ty.text

def valueText (p : Program) : Value → Except Failure String
  | .instr i => return "%" ++ (← p.valueName (.instr i))
  | .param f index => return "%" ++ (← p.valueName (.param f index))
  | .int value ty => return (← p.typeText ty) ++ " " ++ toString value
  | .null => return "null"
  | .func f => return "@" ++ (← p.func f).name

def valuesText (p : Program) (values : List Value) : Except Failure String :=
  return ", ".intercalate (← values.mapM p.valueText)

def labelText (p : Program) (b : BlockRef) : Except Failure String :=
  return "%" ++ (← p.block b).name

/-- What an instruction does; `ty` is the type of its result. -/
def opText (p : Program) (ty : Ty) : Op → Except Failure String
  | .binary op lhs rhs => return op.text ++ " " ++ (← p.valuesText [lhs, rhs])
  | .compare cmp lhs rhs => return "icmp " ++ cmp.text ++ " " ++ (← p.valuesText [lhs, rhs])
  | .phi incoming => do
      let pairs ← incoming.mapM fun (value, pred) =>
        return " [" ++ (← p.valueText value) ++ ", " ++ (← p.labelText pred) ++ "]"
      return "phi " ++ (← p.typeText ty) ++ ",".intercalate pairs
  | .alloca allocated => return "alloca " ++ (← p.typeText allocated)
  | .load ptr => return "load " ++ (← p.typeText ty) ++ ", " ++ (← p.valueText ptr)
  | .store value ptr => return "store " ++ (← p.valuesText [value, ptr])
  | .fieldAddr base layout field =>
      return "fieldaddr " ++ (← p.typeText (.struct layout)) ++ ", " ++ (← p.valueText base) ++
        ", " ++ toString field
  | .cast value => return "cast " ++ (← p.typeText ty) ++ " " ++ (← p.valueText value)
  | .call callee args =>
      return "call " ++ (← p.valueText callee) ++ "(" ++ (← p.valuesText args) ++ ")"
  | .br target => return "br label " ++ (← p.labelText target)
  | .condBr cond onTrue onFalse =>
      return "br " ++ (← p.valueText cond) ++ ", label " ++ (← p.labelText onTrue) ++
        ", label " ++ (← p.labelText onFalse)
  | .switch value cases otherwise => do
      let cases ← cases.mapM fun (n, target) =>
        return " " ++ toString n ++ ": " ++ (← p.labelText target)
      return "switch " ++ (← p.valueText value) ++ ", label " ++ (← p.labelText otherwise) ++
        " [" ++ String.join cases ++ " ]"
  | .ret (some value) => return "ret " ++ (← p.valueText value)
  | .ret none => return "ret void"
  | .unreachable => return "unreachable"

/-- The line of an instruction; its name is written if it yields a value. -/
def instrText (p : Program) (i : InstrRef) : Except Failure String := do
  let instr ← p.instr i
  let body ← p.opText instr.ty instr.op
  if instr.hasResult then
    return "  %" ++ (← p.valueName (.instr i)) ++ " = " ++ body ++ "\n"
  else
    return "  " ++ body ++ "\n"

def blockText (p : Program) (b : BlockRef) : Except Failure String := do
  let block ← p.block b
  return block.name ++ ":\n" ++ String.join (← block.instrs.mapM p.instrText)

def funcText (p : Program) (f : FuncRef) : Except Failure String := do
  let func ← p.func f
  let params ← func.params.zipIdx.mapM fun (ty, k) =>
    return (← p.typeText ty) ++ " %arg" ++ toString k
  let head := (← p.typeText func.ret) ++ " @" ++ func.name ++ "(" ++ ", ".intercalate params ++ ")"
  if func.external then
    return "declare " ++ head ++ "\n"
  else
    let blocks ← func.blocks.mapM p.blockText
    return "define " ++ head ++ " \x7b\n" ++ String.join blocks ++ "\x7d\n"

end Program

end Decouple
