import Decouple.Failure
import Decouple.Program.Slots

/-!
# Reading a program

Each table has two readers: `func?`, `block?`, `instr?`, `structTy?` say whether
the entry is there, and `func`, `block`, `instr`, `structTy` break down with a
fault if it is not. What is derived from the entries (the terminator of a block,
the blocks after it, the type and the name of a value) follows references and
breaks down with the first one that leads nowhere.
-/

namespace Decouple

namespace Program

def func? (p : Program) (f : FuncRef) : Option Func := p.funcs[f.index]?

def block? (p : Program) (b : BlockRef) : Option Block := p.blocks[b.index]?

def instr? (p : Program) (i : InstrRef) : Option Instr := p.instrs[i.index]?

def structTy? (p : Program) (s : StructRef) : Option StructTy := p.structs[s.index]?

def func (p : Program) (f : FuncRef) : Except Failure Func :=
  match p.func? f with
  | some func => .ok func
  | none => .error (.fault (.noFunc f))

def block (p : Program) (b : BlockRef) : Except Failure Block :=
  match p.block? b with
  | some block => .ok block
  | none => .error (.fault (.noBlock b))

def instr (p : Program) (i : InstrRef) : Except Failure Instr :=
  match p.instr? i with
  | some instr => .ok instr
  | none => .error (.fault (.noInstr i))

def structTy (p : Program) (s : StructRef) : Except Failure StructTy :=
  match p.structTy? s with
  | some structTy => .ok structTy
  | none => .error (.fault (.noStruct s))

def funcRefs (p : Program) : List FuncRef := (List.range p.funcs.size).map FuncRef.mk

/-- All instructions, in table order, whether a block holds them or not. -/
def instrRefs (p : Program) : List InstrRef := (List.range p.instrs.size).map InstrRef.mk

def funcNamed? (p : Program) (name : String) : Option FuncRef :=
  (p.funcs.findIdx? fun func => func.name = name).map FuncRef.mk

/-- The terminator of a block: its last instruction, if that is one. -/
def terminator (p : Program) (b : BlockRef) : Except Failure (Option InstrRef) := do
  match (← p.block b).instrs.getLast? with
  | none => return none
  | some last => return if (← p.instr last).op.isTerminator then some last else none

/-- The blocks that control may go to after a block, with repetitions. -/
def successors (p : Program) (b : BlockRef) : Except Failure (List BlockRef) := do
  match ← p.terminator b with
  | none => return []
  | some last => return (← p.instr last).op.successors

def paramValue (p : Program) (f : FuncRef) (index : Nat) : Except Failure Value := do
  if index < (← p.func f).params.length then
    return .param f index
  else
    throw (.fault (.noParam f index))

def valueType (p : Program) : Value → Except Failure Ty
  | .instr i => return (← p.instr i).ty
  | .param f index => do
      match (← p.func f).params[index]? with
      | some ty => return ty
      | none => throw (.fault (.noParam f index))
  | .int _ ty => return ty
  | .null => return .ptr
  | .func _ => return .ptr

def valueTypes (p : Program) (values : List Value) : Except Failure (List Ty) :=
  values.mapM p.valueType

/-- The name of a value, from which names of new instructions are made. An
instruction without a name is called by its number. -/
def valueName (p : Program) : Value → Except Failure String
  | .instr i => return (← p.instr i).name.getD ("v" ++ toString i.index)
  | .param _ index => return "arg" ++ toString index
  | .int value _ => return toString value
  | .null => return "null"
  | .func f => return (← p.func f).name

end Program

end Decouple
