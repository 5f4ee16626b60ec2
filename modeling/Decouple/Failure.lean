import Decouple.Program.Basic

/-!
# Why a computation stops

Two kinds of reasons are kept apart. A `Rejection` is an answer: the input asks
for something that cannot be done, and the rejection says what. A `Fault` is the
breakdown of a computation that followed a reference into nothing or ran out of
numbers; no wording is promised for it.

Rejections record their cause as data. The wording is in one place, the function
`Rejection.message`.
-/

namespace Decouple

inductive Fault where
  | noFunc (func : FuncRef)
  | noBlock (block : BlockRef)
  | noInstr (instr : InstrRef)
  | noStruct (ref : StructRef)
  /-- A parameter that the function does not have. -/
  | noParam (func : FuncRef) (index : Nat)
  /-- A place to insert at that lies behind the end of a list. -/
  | noPosition (position length : Nat)
  | noThread (thread : Nat)
  /-- A block that was expected to have a copy in a worker. -/
  | noCopy (block : BlockRef)
  /-- A number that does not fit into 32 bits. -/
  | numberTooLarge (n : Nat)
  /-- A chain of immediate dominators that does not lead to the root. -/
  | brokenChain
deriving DecidableEq, Repr

/-- What is wrong with the structure of a function. Blocks and functions are
given by name. -/
inductive Defect where
  | declarationHasBlocks
  | noBlocks
  | repeatedBlock
  | foreignBlock (block : String)
  | emptyBlock (block : String)
  | noTerminator (block : String)
  | earlyTerminator (block : String) (instr : InstrRef)
  | misplacedInstr (instr : InstrRef) (block : String)
  | foreignTarget (block target : String)
  | foreignPredecessor (phi : InstrRef) (pred : String)
  | ambiguousPredecessor (phi : InstrRef) (pred : String)
  | foreignParam (instr : InstrRef) (index : Nat) (owner : String)
deriving DecidableEq, Repr

def Defect.message : Defect → String
  | .declarationHasBlocks => "declaration has blocks"
  | .noBlocks => "function has no blocks"
  | .repeatedBlock => "a block appears twice in the layout"
  | .foreignBlock block => "block `" ++ block ++ "` belongs to another function"
  | .emptyBlock block => "block `" ++ block ++ "` is empty"
  | .noTerminator block => "block `" ++ block ++ "` does not end in a terminator"
  | .earlyTerminator block instr =>
      "block `" ++ block ++ "` has terminator " ++ instr.text ++ " before its end"
  | .misplacedInstr instr block =>
      instr.text ++ " is listed in `" ++ block ++ "` but placed elsewhere"
  | .foreignTarget block target =>
      "`" ++ block ++ "` branches to `" ++ target ++ "` outside the function"
  | .foreignPredecessor phi pred =>
      "φ " ++ phi.text ++ " names predecessor `" ++ pred ++ "` outside the function"
  | .ambiguousPredecessor phi pred =>
      "φ " ++ phi.text ++ " names predecessor `" ++ pred ++ "` twice with different values"
  | .foreignParam instr index owner =>
      instr.text ++ " reads parameter " ++ toString index ++ " of `" ++ owner ++ "`"

inductive LoopRole where
  | header
  | preheader
  | exit
  | block
deriving DecidableEq, Repr

def LoopRole.text : LoopRole → String
  | .header => "header"
  | .preheader => "preheader"
  | .exit => "exit"
  | .block => "block"

/-- A requirement on the program, the loop or the plan that is not met. Blocks,
functions and values are given by name. -/
inductive Violation where
  | malformed (func : String) (defect : Defect)
  | sccThreadMissing (thread threads : Nat)
  | tooManySccs
  | inTwoSccs (instr : InstrRef) (first second : Nat)
  | twiceInScc (instr : InstrRef) (scc : Nat)
  | declarationOnly (func : String)
  | noThreads
  | threadsDiffer (planned configured : Nat)
  | tooManyThreads
  | notInFunc (role : LoopRole) (block func : String)
  | headerOutsideLoop
  | preheaderInLoop
  | liveOutUnowned (value : String)
  | exitInLoop (block : String)
  | exitNotInLayout (block func : String)
  | exitPhiCrowded (phi : String) (edges : Nat)
  | workerNameTaken (func : String)
  | noWorker (thread : Nat)
  | workerFilled (func : String)
  | workerArity (func : String)
  | headerNotNeeded (block : String) (thread : Nat)
  | instrUnowned (value block : String)
  | noArgField (value : String)
  | liveOutNotCopied (value : String) (thread : Nat)
deriving DecidableEq, Repr

def Violation.message : Violation → String
  | .malformed func defect => "in `" ++ func ++ "`: " ++ defect.message
  | .sccThreadMissing thread threads =>
      "SCC assigned to thread " ++ toString thread ++ ", but only " ++ toString threads ++
        " threads exist"
  | .tooManySccs => "SCC count exceeds u32::MAX"
  | .inTwoSccs instr first second =>
      instr.text ++ " belongs to SCC " ++ toString first ++ " and SCC " ++ toString second
  | .twiceInScc instr scc => instr.text ++ " is listed twice in SCC " ++ toString scc
  | .declarationOnly func => "`" ++ func ++ "` is a declaration and has no loop to split"
  | .noThreads => "thread count must be positive"
  | .threadsDiffer planned configured =>
      "partition has " ++ toString planned ++ " threads, configuration expects " ++
        toString configured
  | .tooManyThreads => "thread count exceeds u32::MAX"
  | .notInFunc role block func =>
      "loop " ++ role.text ++ " `" ++ block ++ "` is not in `" ++ func ++ "`"
  | .headerOutsideLoop => "loop does not contain its header"
  | .preheaderInLoop => "loop preheader is inside the loop"
  | .liveOutUnowned value => "live-out `" ++ value ++ "` belongs to no SCC"
  | .exitInLoop block => "exit block `" ++ block ++ "` is inside the loop"
  | .exitNotInLayout block func =>
      "exit block `" ++ block ++ "` does not belong to `" ++ func ++ "`"
  | .exitPhiCrowded phi edges =>
      "exit φ `" ++ phi ++ "` has " ++ toString edges ++ " incoming edges from the loop"
  | .workerNameTaken func => "worker function `" ++ func ++ "` already exists"
  | .noWorker thread => "no worker declared for thread " ++ toString thread
  | .workerFilled func => "worker `" ++ func ++ "` already has a body"
  | .workerArity func => "worker `" ++ func ++ "` must take exactly one argument"
  | .headerNotNeeded block thread =>
      "loop header `" ++ block ++ "` is not relevant to thread " ++ toString thread
  | .instrUnowned value block =>
      "`" ++ value ++ "` in loop block `" ++ block ++ "` belongs to no SCC"
  | .noArgField value => "argument layout has no field for live-in `" ++ value ++ "`"
  | .liveOutNotCopied value thread =>
      "live-out `" ++ value ++ "` belongs to thread " ++ toString thread ++
        " but was never cloned into it"

inductive Rejection where
  /-- A requirement is not met. -/
  | invariant (violation : Violation)
  /-- No block of the loop concerns the thread. -/
  | emptyPartition (thread : Nat)
  /-- The post-dominators of a branch target end, at `block`, without a copy. -/
  | brokenPostDominance (block : BlockRef)
  /-- The dominators of a φ's predecessor end, at `block`, without a copy. -/
  | brokenDominance (block : BlockRef)
  /-- The argument structure holds another type than the value has. -/
  | typeMismatch (value : String) (expected found : Ty)
  /-- A value of the loop is read by an instruction that no block holds. -/
  | malformedUse (value : String)
  /-- A branch of the loop leaves it elsewhere than at its exit. -/
  | unexpectedTarget (block : BlockRef)
deriving DecidableEq, Repr

def Rejection.message : Rejection → String
  | .invariant violation => "invariant violation: " ++ violation.message
  | .emptyPartition thread => "thread " ++ toString thread ++ " has no relevant blocks"
  | .brokenPostDominance block =>
      "post-dominator chain from " ++ block.text ++ " ends before reaching a cloned block"
  | .brokenDominance block =>
      "dominator chain from " ++ block.text ++ " ends before reaching a cloned block"
  | .typeMismatch value expected found =>
      "broken type for live-in `" ++ value ++ "`: argument layout holds " ++ expected.text ++
        ", value is " ++ found.text
  | .malformedUse value => "`" ++ value ++ "` is used by an instruction outside any block"
  | .unexpectedTarget block =>
      "branch to " ++ block.text ++ ", which is outside the loop and is not its exit"

/-- Why a computation stops: with an answer, or by breaking down. -/
inductive Failure where
  | rejected (rejection : Rejection)
  | fault (fault : Fault)
deriving DecidableEq, Repr

def Failure.violated (violation : Violation) : Failure := .rejected (.invariant violation)

/-- The bound that table positions, field numbers and counters stay below: they
are numbers of 32 bits. -/
def numberLimit : Nat := 4294967296

end Decouple
