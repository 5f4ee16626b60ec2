import Decouple.Flow.Climb
import Decouple.Split.Dispatch

/-!
# The body of a worker

The worker of a thread runs the loop with those instructions only that the plan
gives to the thread. Its body has a copy of every loop block that *concerns* the
thread, because it holds an instruction of the thread or one that such an
instruction depends on, between an entry that loads the live-ins and an exit that
stores the thread's live-outs:

* the instructions of the thread and all terminators are copied, block by block;
* a branch to a block without a copy goes to the copy of the nearest block that
  post-dominates it, since control is bound to get there;
* a φ that comes from a block without a copy comes from the copy of the nearest
  block that dominates it, since control must have passed there;
* the copies read copies and loaded live-ins in the place of the values of the
  loop.

An operand that neither is copied nor is a live-in keeps its value; passing such
values between workers is left to the code that planned the loop.
-/

namespace Decouple

structure Worker where
  thread : Nat
  func : FuncRef
  entry : BlockRef
  exit : BlockRef
  /-- The copies of the loop's blocks, with the entry for the preheader and the
  exit for the loop's exit. -/
  blockMap : Std.TreeMap BlockRef BlockRef
  /-- The copied instructions in order, each with its copy. -/
  copies : List (InstrRef × InstrRef)
  /-- The instructions that store the live-outs, in their order. -/
  outStores : List InstrRef

namespace Worker

def copyMap (worker : Worker) : Std.TreeMap InstrRef InstrRef :=
  worker.copies.foldl (fun map (source, copy) => map.insert source copy) ∅

def sourceMap (worker : Worker) : Std.TreeMap InstrRef InstrRef :=
  worker.copies.foldl (fun map (source, copy) => map.insert copy source) ∅

/-- The function of the worker of a thread, which has to be there with one
parameter and no body. -/
def vacantFunc (p : Program) (d : Dispatch) (thread : Nat) : Except Failure FuncRef := do
  match d.workers[thread]? with
  | none => throw (.violated (.noWorker thread))
  | some f =>
      let func ← p.func f
      unless func.blocks.isEmpty do
        throw (.violated (.workerFilled func.name))
      unless func.params.length = 1 do
        throw (.violated (.workerArity func.name))
      return f

def placesOf (p : Program) (instrs : List InstrRef) : Except Failure (List BlockRef) :=
  return (← instrs.mapM fun i => return (← p.instr i).block).reduceOption

/-- The instructions of a thread, each followed by what it depends on. -/
def concerns (s : Setting) (thread : Nat) : List InstrRef :=
  (s.plan.membersOf thread).flatMap fun i =>
    i :: (s.deps.dependenciesOf i).map Dependence.dependency

/-- The blocks of the loop that concern a thread, in loop order. The header has to
be among them. -/
def concernedBlocks (p : Program) (s : Setting) (thread : Nat) :
    Except Failure (List BlockRef) := do
  unless thread < s.plan.threads do
    throw (.fault (.noThread thread))
  let places ← placesOf p (concerns s thread)
  let blocks := s.loop.blocks.filter fun b => b ∈ places
  if blocks.isEmpty then
    throw (.rejected (.emptyPartition thread))
  unless s.loop.header ∈ places do
    throw (.violated (.headerNotNeeded (← p.block s.loop.header).name thread))
  return blocks

/-- Adds an empty copy of each block and enters it into the map. -/
def addCopies (func : FuncRef) (thread : Nat) :
    List BlockRef → Std.TreeMap BlockRef BlockRef → Edit (Std.TreeMap BlockRef BlockRef)
  | [], blockMap => return blockMap
  | b :: rest, blockMap => do
      let name := (← (← get).block b).name ++ "_" ++ toString thread
      let copy ← Edit.appendBlock func name
      addCopies func thread rest (blockMap.insert b copy)

def copyOf (blockMap : Std.TreeMap BlockRef BlockRef) (b : BlockRef) : Except Failure BlockRef :=
  match blockMap[b]? with
  | some copy => .ok copy
  | none => .error (.fault (.noCopy b))

/-- Adds the blocks of a worker. The entry goes to the copy of the header, and
the exit returns the null pointer; the copies are still empty. -/
def addSkeleton (s : Setting) (func : FuncRef) (thread : Nat) (blocks : List BlockRef) :
    Edit Worker := do
  let entry ← Edit.appendBlock func "new-entry"
  let copied ← addCopies func thread blocks ∅
  let exit ← Edit.appendBlock func "new-exit"
  let blockMap := (copied.insert s.loop.preheader entry).insert s.loop.exit exit
  let header ← copyOf blockMap s.loop.header
  let _ ← Edit.appendInstr entry (.br header) .void none
  let _ ← Edit.appendInstr exit (.ret (some .null)) .void none
  return { thread, func, entry, exit, blockMap, copies := [], outStores := [] }

/-- Where a branch to a block of the loop, or to its exit, goes in a worker. -/
def copyOfTarget (s : Setting) (blockMap : Std.TreeMap BlockRef BlockRef) (target : BlockRef) :
    Except Failure BlockRef :=
  if target ≠ s.loop.exit ∧ target ∉ s.loop then
    .error (.rejected (.unexpectedTarget target))
  else
    match climb s.dominance.ipdom? (blockMap[·]?) s.climbLimit target with
    | .ok copy => .ok copy
    | .error last => .error (.rejected (.brokenPostDominance last))

/-- Where a φ that comes from a block comes from in a worker. -/
def copyOfPred (s : Setting) (blockMap : Std.TreeMap BlockRef BlockRef) (pred : BlockRef) :
    Except Failure BlockRef :=
  match climb s.dominance.idom? (blockMap[·]?) s.climbLimit pred with
  | .ok copy => .ok copy
  | .error last => .error (.rejected (.brokenDominance last))

def copyOp (s : Setting) (blockMap : Std.TreeMap BlockRef BlockRef) (op : Op) :
    Except Failure Op :=
  match op.changeSuccessors (copyOfTarget s blockMap) with
  | (_, some failure) => .error failure
  | (op, none) => op.traverseIncoming (copyOfPred s blockMap)

/-- Whether an instruction listed in the block `b` goes into the worker of a
thread: terminators do, and so does what the thread runs. Some thread has to run
it. -/
def isCopied (p : Program) (s : Setting) (thread : Nat) (b : BlockRef) (i : InstrRef)
    (instr : Instr) : Except Failure Bool :=
  if instr.op.isTerminator then
    return true
  else
    match s.plan.threadOf? i with
    | some owner => return owner = thread
    | none => do
        throw (.violated
          (.instrUnowned (← p.valueName (.instr i)) (← p.block b).name))

/-- Copies those of the instructions, listed in the block `b`, that go into the
worker to the end of the block `copy`. Returns them with their copies. -/
def copyInstrs (s : Setting) (worker : Worker) (b copy : BlockRef) :
    List InstrRef → Edit (List (InstrRef × InstrRef))
  | [] => return []
  | i :: rest => do
      let p ← get
      let instr ← p.instr i
      if ← isCopied p s worker.thread b i instr then
        let op ← copyOp s worker.blockMap instr.op
        let name := instr.name.map fun name => name ++ "_" ++ toString worker.thread
        let clone ← Edit.appendInstr copy op instr.ty name
        return (i, clone) :: (← copyInstrs s worker b copy rest)
      else
        copyInstrs s worker b copy rest

/-- Fills the copies of the blocks. Returns the copied instructions with their
copies. -/
def copyBlocks (s : Setting) (worker : Worker) :
    List BlockRef → Edit (List (InstrRef × InstrRef))
  | [] => return []
  | b :: rest => do
      let copy ← copyOf worker.blockMap b
      let copied ← copyInstrs s worker b copy (← (← get).block b).instrs
      return copied ++ (← copyBlocks s worker rest)

def copyRenaming (copies : List (InstrRef × InstrRef)) : Renaming :=
  copies.foldl (fun σ (source, copy) => σ.insert (.instr source) (.instr copy)) ∅

/-- Loads the live-ins, the first one from field `k`, in the entry of a worker.
Adds to the renaming that the loaded values are to be read. -/
def loadArgs (exchange : Exchange) (entry : BlockRef) (argPtr : InstrRef) :
    Nat → List Value → Renaming → Edit Renaming
  | _, [], σ => return σ
  | k, v :: rest, σ => do
      let p ← get
      let name ← p.valueName v
      match (← p.structTy exchange.args).fields[k]? with
      | none => Edit.violated (.noArgField name)
      | some ty =>
          let addr ← Edit.insertBeforeEnd entry
            (.fieldAddr (.instr argPtr) exchange.args (← Exchange.field k)) .ptr (name ++ "_arg")
          let loaded ← Edit.insertBeforeEnd entry (.load (.instr addr)) ty (name ++ "_val")
          let declared ← (← get).valueType v
          if ty ≠ declared then
            Edit.reject (.typeMismatch name declared ty)
          else
            loadArgs exchange entry argPtr (k + 1) rest (σ.insert v (.instr loaded))

/-- Calls the hook, if there is one, and loads the live-ins in the entry of a
worker. Returns the pointer to the arguments and the extended renaming. -/
def unpackArgs (s : Setting) (exchange : Exchange) (worker : Worker) (σ : Renaming) :
    Edit (InstrRef × Renaming) := do
  match s.config.traceHook with
  | none => pure ()
  | some name =>
      let hook ← Edit.requireFunc name [] .void
      let _ ← Edit.insertBeforeEnd worker.entry (.call (.func hook) []) .void none
  let param ← (← get).paramValue worker.func 0
  let argPtr ← Edit.insertBeforeEnd worker.entry (.cast param) .ptr "args"
  let σ ← loadArgs exchange worker.entry argPtr 0 s.live.liveIn σ
  return (argPtr, σ)

/-- The live-outs that a thread runs, each with its position among all of them. -/
def ownedOuts (s : Setting) (thread : Nat) : List (InstrRef × Nat) :=
  s.live.liveOut.zipIdx.filter fun (i, _) => s.plan.threadOf? i = some thread

/-- Stores live-outs, each under its new name and into the field of its position,
in the exit of a worker. Returns the storing instructions. -/
def storeEach (exchange : Exchange) (worker : Worker) (σ : Renaming) (outPtr : InstrRef) :
    List (InstrRef × Nat) → Edit (List InstrRef)
  | [] => return []
  | (i, k) :: rest => do
      let name ← (← get).valueName (.instr i)
      match σ[Value.instr i]? with
      | none => Edit.violated (.liveOutNotCopied name worker.thread)
      | some v =>
          let addr ← Edit.insertBeforeEnd worker.exit
            (.fieldAddr (.instr outPtr) exchange.outs (← Exchange.field k)) .ptr
            (name ++ "_outptr")
          let store ← Edit.insertBeforeEnd worker.exit (.store v (.instr addr)) .void none
          return store :: (← storeEach exchange worker σ outPtr rest)

def storeOuts (s : Setting) (exchange : Exchange) (worker : Worker) (σ : Renaming)
    (argPtr : InstrRef) : Edit (List InstrRef) :=
  match ownedOuts s worker.thread with
  | [] => return []
  | owned => do
      let outPtr ← Edit.insertBeforeEnd worker.exit
        (.fieldAddr (.instr argPtr) exchange.args exchange.outField) .ptr "outs"
      storeEach exchange worker σ outPtr owned

def build (s : Setting) (d : Dispatch) (thread : Nat) : Edit Worker := do
  let func ← vacantFunc (← get) d thread
  let blocks ← concernedBlocks (← get) s thread
  let worker ← addSkeleton s func thread blocks
  let copies ← copyBlocks s worker blocks
  let (argPtr, σ) ← unpackArgs s d.exchange worker (copyRenaming copies)
  let _ ← σ.apply (copies.map Prod.snd)
  let outStores ← storeOuts s d.exchange worker σ argPtr
  s.log (← get) func
  return { worker with copies, outStores }

end Worker

end Decouple
