import Decouple.Program.Ref

/-!
# Programs

Functions over basic blocks in static single assignment form. A block is a list
of instructions; the last one, if it is a terminator, says where control goes.
An instruction that yields a value is named by its own reference wherever that
value is read, so there are no variables beside instructions and parameters.

Nothing here asks a program to be consistent: a block may be listed by a
function it does not belong to, an instruction may claim another block than the
one that lists it, and references may lead nowhere. Consistency is a predicate
checked by `Decouple.Program.Check`, because the passes over a program are
defined on every program and stop with a reason on a bad one.
-/

namespace Decouple

inductive Ty where
  | void
  | int (bits : Nat)
  | float
  | ptr
  | struct (ref : StructRef)
deriving DecidableEq, Repr

def Ty.i1 : Ty := .int 1

def Ty.i32 : Ty := .int 32

def Ty.i64 : Ty := .int 64

/-- The written form of a type on its own, with a structure type given by its
number. -/
def Ty.text : Ty → String
  | .void => "void"
  | .int bits => "i" ++ toString bits
  | .float => "f64"
  | .ptr => "ptr"
  | .struct ref => "%" ++ ref.text

/-- What an instruction reads: the result of an instruction, a parameter of a
function, an integer constant, the null pointer, or a function's address. -/
inductive Value where
  | instr (ref : InstrRef)
  | param (func : FuncRef) (index : Nat)
  | int (value : Int) (ty : Ty)
  | null
  | func (ref : FuncRef)
deriving DecidableEq, Repr

namespace Value

def i32 (n : Int) : Value := .int n .i32

def i64 (n : Int) : Value := .int n .i64

def instr? : Value → Option InstrRef
  | .instr ref => some ref
  | _ => none

/-- Whether the value depends on the run: the result of an instruction or a
parameter, and not a constant. -/
def isVariable : Value → Bool
  | .instr _ => true
  | .param _ _ => true
  | _ => false

end Value

inductive BinOp where
  | add | sub | mul | sdiv | and | or | xor | shl
deriving DecidableEq, Repr

/-- The integer comparisons, signed where it matters. -/
inductive Comparison where
  | eq | ne | slt | sle | sgt | sge
deriving DecidableEq, Repr

/-- What an instruction does. `phi` takes the value paired with the block that
control came from; the last five constructors are the terminators. -/
inductive Op where
  | binary (op : BinOp) (lhs rhs : Value)
  | compare (cmp : Comparison) (lhs rhs : Value)
  | phi (incoming : List (Value × BlockRef))
  | alloca (ty : Ty)
  | load (ptr : Value)
  | store (value ptr : Value)
  | fieldAddr (base : Value) (layout : StructRef) (field : Nat)
  | cast (value : Value)
  | call (callee : Value) (args : List Value)
  | br (target : BlockRef)
  | condBr (cond : Value) (onTrue onFalse : BlockRef)
  | switch (value : Value) (cases : List (Int × BlockRef)) (otherwise : BlockRef)
  | ret (value : Option Value)
  | unreachable
deriving DecidableEq, Repr

/-- An instruction: the block it is placed in, if any, what it does, the type of
its result and the name it was given, if any. -/
structure Instr where
  block : Option BlockRef
  op : Op
  ty : Ty
  name : Option String
deriving DecidableEq, Repr

def Instr.hasResult (instr : Instr) : Bool := instr.ty ≠ .void

structure Block where
  name : String
  func : FuncRef
  instrs : List InstrRef
deriving DecidableEq, Repr

/-- A function, with its blocks in layout order. An external function is only
declared. -/
structure Func where
  name : String
  params : List Ty
  ret : Ty
  blocks : List BlockRef
  external : Bool
deriving DecidableEq, Repr

def Func.entry? (func : Func) : Option BlockRef := func.blocks.head?

structure StructTy where
  name : String
  fields : List Ty
deriving DecidableEq, Repr

structure Program where
  funcs : Array Func
  blocks : Array Block
  instrs : Array Instr
  structs : Array StructTy
deriving DecidableEq, Repr

def Program.empty : Program := ⟨#[], #[], #[], #[]⟩

end Decouple
