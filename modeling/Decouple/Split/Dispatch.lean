import Decouple.Exchange
import Decouple.Renaming
import Decouple.Split.Setting

/-!
# Dispatching a loop to workers

The loop of a function is replaced by one block. It stores the live-ins into the
argument structure, starts the workers, waits for them, loads the live-outs and
goes on to the exit of the loop:

* every branch from outside the loop to its header goes to the new block instead;
* a φ of the exit that came from the loop comes from the new block now;
* every reader of a live-out outside the loop reads the loaded value.

The blocks of the loop stay where they are; the entry of the function does not
lead to them any more. The workers are added as functions without a body.
-/

namespace Decouple

structure Dispatch where
  /-- The block in the place of the loop. -/
  block : BlockRef
  /-- The worker function of each thread, in order. -/
  workers : List FuncRef
  exchange : Exchange
  /-- How many branches to the header were turned to the block. -/
  redirected : Nat
deriving DecidableEq, Repr

namespace Dispatch

/-- Checks that every φ at the exit has at most one pair from the loop: the new
block will be the only predecessor from there. -/
def checkExitPhis (p : Program) (loop : Loop) : List InstrRef → Except Failure Unit
  | [] => return ()
  | i :: rest => do
      let fromLoop := (← p.instr i).op.incoming.countP fun (_, pred) => pred ∈ loop
      if fromLoop > 1 then
        throw (.violated (.exitPhiCrowded (← p.valueName (.instr i)) fromLoop))
      checkExitPhis p loop rest

/-- The position of the exit in the layout of the function, after the checks that
a loop can be replaced. -/
def exitPosition (p : Program) (s : Setting) : Except Failure Nat := do
  if s.loop.exit ∈ s.loop then
    throw (.violated (.exitInLoop (← p.block s.loop.exit).name))
  let func ← p.func s.func
  match func.blocks.idxOf? s.loop.exit with
  | none =>
      throw (.violated (.exitNotInLayout (← p.block s.loop.exit).name func.name))
  | some position =>
      checkExitPhis p s.loop (← p.block s.loop.exit).instrs
      return position

/-- Whether a block of the layout keeps its place after the split: it is neither
in the loop nor the block that replaces the loop. -/
def isOutside (s : Setting) (replacement b : BlockRef) : Bool := b ≠ replacement ∧ b ∉ s.loop

/-- Turns the branches of a block from the header to the replacement, and returns
how many there were. -/
def redirectBlock (s : Setting) (replacement b : BlockRef) : Edit Nat := do
  let p ← get
  match ← p.terminator b with
  | none => return 0
  | some last =>
      let instr ← p.instr last
      Edit.setInstr last { instr with
        op := instr.op.mapSuccessors fun target =>
          if target = s.loop.header then replacement else target }
      return instr.op.successors.count s.loop.header

def redirect (s : Setting) (replacement : BlockRef) : List BlockRef → Edit Nat
  | [] => return 0
  | b :: rest => do
      let here ← if isOutside s replacement b then redirectBlock s replacement b else pure 0
      return here + (← redirect s replacement rest)

/-- Lets the φs at the exit come from the replacement where they came from the
loop. -/
def retarget (s : Setting) (replacement : BlockRef) (instrs : List InstrRef) : Edit Unit :=
  instrs.forM fun i => Edit.changeInstr i fun instr => { instr with
    op := instr.op.mapIncoming fun pred => if pred ∈ s.loop then replacement else pred }

def workerName (loopId thread : Nat) : String :=
  toString loopId ++ "_subloop_" ++ toString thread

/-- Adds the worker of a thread, a function from a pointer to a pointer, unless
its name is taken. -/
def addWorker (s : Setting) (thread : Nat) : Edit FuncRef := do
  match (← get).funcNamed? (workerName s.loopId thread) with
  | some _ => Edit.violated (.workerNameTaken (workerName s.loopId thread))
  | none => Edit.defineFunc (workerName s.loopId thread) [.ptr] .ptr

/-- Stores the live-ins, the first one at field `k`, into the structure at
`argPtr`. -/
def storeArgs (exchange : Exchange) (block : BlockRef) (argPtr : InstrRef) :
    Nat → List Value → Edit Unit
  | _, [] => return ()
  | k, v :: rest => do
      let name ← (← get).valueName v
      let addr ← Edit.appendInstr block
        (.fieldAddr (.instr argPtr) exchange.args (← Exchange.field k)) .ptr (name ++ "_argptr")
      let _ ← Edit.appendInstr block (.store v (.instr addr)) .void none
      storeArgs exchange block argPtr (k + 1) rest

/-- Calls the dispatching function of the runtime for each worker, the first one
as thread `thread`. -/
def callWorkers (block : BlockRef) (dispatch : FuncRef) (shared : InstrRef) :
    Nat → List FuncRef → Edit Unit
  | _, [] => return ()
  | thread, worker :: rest => do
      let _ ← Edit.appendInstr block
        (.call (.func dispatch) [.i32 thread, .func worker, .instr shared]) .void none
      callWorkers block dispatch shared (thread + 1) rest

def runWorkers (s : Setting) (block : BlockRef) (argPtr : InstrRef) (workers : List FuncRef) :
    Edit Unit := do
  let init ← Edit.requireFunc s.config.runtime.init [] .void
  let dispatch ← Edit.requireFunc s.config.runtime.dispatch [.i32, .ptr, .ptr] .void
  let join ← Edit.requireFunc s.config.runtime.join [] .void
  let _ ← Edit.appendInstr block (.call (.func init) []) .void none
  let shared ← Edit.appendInstr block (.cast (.instr argPtr)) .ptr
    ("argstruct_" ++ toString s.loopId ++ "_cast")
  callWorkers block dispatch shared 0 workers
  let _ ← Edit.appendInstr block (.call (.func join) []) .void none

/-- Loads the live-outs, the first one from field `k`, from the outputs at
`outPtr`. Adds to the renaming that the loaded values are to be read. -/
def loadOuts (exchange : Exchange) (block : BlockRef) (outPtr : InstrRef) :
    Nat → List InstrRef → Renaming → Edit Renaming
  | _, [], σ => return σ
  | k, i :: rest, σ => do
      let p ← get
      let name ← p.valueName (.instr i)
      let ty ← p.valueType (.instr i)
      let addr ← Edit.appendInstr block
        (.fieldAddr (.instr outPtr) exchange.outs (← Exchange.field k)) .ptr (name ++ "_ptr")
      let loaded ← Edit.appendInstr block (.load (.instr addr)) ty (name ++ "_load")
      loadOuts exchange block outPtr (k + 1) rest (σ.insert (.instr i) (.instr loaded))

def instrsOf (p : Program) (blocks : List BlockRef) : Except Failure (List InstrRef) :=
  return (← blocks.mapM fun b => return (← p.block b).instrs).flatten

/-- Loads the live-outs and lets all readers outside the loop read the loaded
values. -/
def unpackOuts (s : Setting) (exchange : Exchange) (block : BlockRef) (argPtr : InstrRef) :
    Edit Unit := do
  let outPtr ← Edit.appendInstr block
    (.fieldAddr (.instr argPtr) exchange.args exchange.outField) .ptr "load_outs"
  let σ ← loadOuts exchange block outPtr 0 s.live.liveOut ∅
  let p ← get
  let outside := (← p.func s.func).blocks.filter (isOutside s block)
  let _ ← σ.apply (← instrsOf p outside)

/-- Puts a block in the place of the loop and adds the workers without their
bodies. -/
def install (s : Setting) : Edit Dispatch := do
  let position ← exitPosition (← get) s
  let block ← Edit.insertBlock s.func position "loop-replace"
  let redirected ← redirect s block (← (← get).func s.func).blocks
  retarget s block (← (← get).block s.loop.exit).instrs
  let workers ← (List.range s.threads).mapM (addWorker s)
  let exchange ← Exchange.declare s.loopId s.live.liveIn s.live.liveOut
  let argPtr ← Edit.appendInstr block (.alloca (.struct exchange.args)) .ptr "argstruct"
  storeArgs exchange block argPtr 0 s.live.liveIn
  runWorkers s block argPtr workers
  unless s.live.liveOut.isEmpty do
    unpackOuts s exchange block argPtr
  let _ ← Edit.appendInstr block (.br s.loop.exit) .void none
  return { block, workers, exchange, redirected }

end Dispatch

end Decouple
