import Decouple.Program.Lookup

/-!
# Checking the structure of a function

`Program.check` goes through the blocks of a function in layout order, and
through the instructions of each block in order, and stops at the first defect.
A declaration has to be empty. In a definition every block is listed once,
belongs to the function, and ends in its only terminator; every instruction says
that it is placed where it is listed; branches and φs name blocks of the layout
only, a φ gives one value for one predecessor, and no parameter of another
function is read.
-/

namespace Decouple

namespace Program

def firstTerminator (p : Program) : List InstrRef → Except Failure (Option InstrRef)
  | [] => return none
  | i :: rest => do
      if (← p.instr i).op.isTerminator then return some i else p.firstTerminator rest

/-- The first pair that repeats the block of an earlier pair with another value.
`before` holds the earlier pairs. -/
def firstAmbiguous? (before : List (Value × BlockRef)) :
    List (Value × BlockRef) → Option BlockRef
  | [] => none
  | (value, pred) :: rest =>
      if before.any fun (v, b) => b = pred ∧ v ≠ value then
        some pred
      else
        firstAmbiguous? (before ++ [(value, pred)]) rest

def checkTargets (p : Program) (func : Func) (block : Block) (targets : List BlockRef) :
    Except Failure Unit :=
  match targets.find? fun target => target ∉ func.blocks with
  | none => return ()
  | some target => do
      throw (.violated (.malformed func.name
        (.foreignTarget block.name (← p.block target).name)))

/-- Checks that a φ names blocks of the layout only, and gives one value for one
predecessor. -/
def checkIncoming (p : Program) (func : Func) (i : InstrRef)
    (incoming : List (Value × BlockRef)) : Except Failure Unit :=
  match incoming.find? fun (_, pred) => pred ∉ func.blocks with
  | some (_, pred) => do
      throw (.violated (.malformed func.name
        (.foreignPredecessor i (← p.block pred).name)))
  | none =>
      match firstAmbiguous? [] incoming with
      | none => return ()
      | some pred => do
          throw (.violated (.malformed func.name
            (.ambiguousPredecessor i (← p.block pred).name)))

def checkParams (p : Program) (f : FuncRef) (func : Func) (i : InstrRef) :
    List Value → Except Failure Unit
  | [] => return ()
  | .param owner index :: rest => do
      if owner ≠ f then
        throw (.violated (.malformed func.name
          (.foreignParam i index (← p.func owner).name)))
      p.checkParams f func i rest
  | _ :: rest => p.checkParams f func i rest

def checkInstr (p : Program) (f : FuncRef) (func : Func) (b : BlockRef) (block : Block)
    (i : InstrRef) : Except Failure Unit := do
  let instr ← p.instr i
  if instr.block ≠ some b then
    throw (.violated (.malformed func.name (.misplacedInstr i block.name)))
  p.checkTargets func block instr.op.successors
  p.checkIncoming func i instr.op.incoming
  p.checkParams f func i instr.op.operands

def checkBlock (p : Program) (f : FuncRef) (func : Func) (b : BlockRef) :
    Except Failure Unit := do
  let block ← p.block b
  if block.func ≠ f then
    throw (.violated (.malformed func.name (.foreignBlock block.name)))
  match block.instrs.getLast? with
  | none => throw (.violated (.malformed func.name (.emptyBlock block.name)))
  | some last =>
      if !(← p.instr last).op.isTerminator then
        throw (.violated (.malformed func.name (.noTerminator block.name)))
      match ← p.firstTerminator block.instrs.dropLast with
      | some early =>
          throw (.violated (.malformed func.name (.earlyTerminator block.name early)))
      | none => block.instrs.forM (p.checkInstr f func b block)

def check (p : Program) (f : FuncRef) : Except Failure Unit := do
  let func ← p.func f
  if func.external then
    unless func.blocks.isEmpty do
      throw (.violated (.malformed func.name .declarationHasBlocks))
  else
    if func.blocks.isEmpty then
      throw (.violated (.malformed func.name .noBlocks))
    unless func.blocks.Nodup do
      throw (.violated (.malformed func.name .repeatedBlock))
    func.blocks.forM (p.checkBlock f func)

end Program

end Decouple
