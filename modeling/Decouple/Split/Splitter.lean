import Decouple.Program.Check
import Decouple.Split.Worker

/-!
# Splitting loops

A `Splitter` splits one loop after the other with the same configuration and
numbers them, so that the names it makes for different loops differ. To split a
loop it

1. checks the request against the program, before anything is changed;
2. takes the next loop number, and finds out what the loop exchanges with its
   surroundings and how its function's blocks dominate each other;
3. puts a dispatching block in the place of the loop and writes the workers;
4. checks the structure of all changed functions, if the configuration says so.

A split that fails leaves the program as far changed as it got, and a loop number
that was taken stays taken.

Of the messages for a log only the written forms of functions are there
(`Setting.log`): each worker when it is done, and the function of the loop at the
end. They look up references that nothing else asks for. The other messages give
names and counts that are at hand, cannot fail, and are left out.
-/

namespace Decouple

structure Split where
  loopId : Nat
  block : BlockRef
  workers : List Worker
  exchange : Exchange
  /-- What the loop exchanges with its surroundings. -/
  live : Liveness

namespace Split

def workerFuncs (split : Split) : List FuncRef := split.workers.map Worker.func

/-- The thread whose worker has the instruction as a copy. -/
def ownerOf? (split : Split) (copy : InstrRef) : Option Nat :=
  (split.workers.find? fun worker => worker.sourceMap.contains copy).map Worker.thread

/-- The copies made by each thread, the last worker of a thread counting. -/
def copiesByThread (split : Split) : Std.TreeMap Nat (Std.TreeMap InstrRef InstrRef) :=
  split.workers.foldl (fun map worker => map.insert worker.thread worker.copyMap) ∅

end Split

structure Splitter where
  config : Config
  numbered : Nat
deriving DecidableEq, Repr

namespace Splitter

def ofConfig (config : Config) : Splitter := ⟨config, 0⟩

def checkPlace (p : Program) (f : FuncRef) (func : Func) (role : LoopRole) (b : BlockRef) :
    Except Failure Unit := do
  let block ← p.block b
  unless block.func = f do
    throw (.violated (.notInFunc role block.name func.name))

def checkRequest (config : Config) (p : Program) (f : FuncRef) (loop : Loop) (plan : Plan) :
    Except Failure Unit := do
  let func ← p.func f
  if func.external then
    throw (.violated (.declarationOnly func.name))
  if config.threads = 0 then
    throw (.violated .noThreads)
  unless plan.threads = config.threads do
    throw (.violated (.threadsDiffer plan.threads config.threads))
  unless config.threads < numberLimit do
    throw (.violated .tooManyThreads)
  checkPlace p f func .header loop.header
  checkPlace p f func .preheader loop.preheader
  checkPlace p f func .exit loop.exit
  loop.blocks.forM (checkPlace p f func .block)
  unless loop.header ∈ loop do
    throw (.violated .headerOutsideLoop)
  if loop.preheader ∈ loop then
    throw (.violated .preheaderInLoop)

def checkOwned (p : Program) (plan : Plan) : List InstrRef → Except Failure Unit
  | [] => return ()
  | i :: rest => do
      if (plan.threadOf? i).isNone then
        throw (.violated (.liveOutUnowned (← p.valueName (.instr i))))
      checkOwned p plan rest

def setting (config : Config) (loopId : Nat) (p : Program) (f : FuncRef) (loop : Loop)
    (deps : Dependences) (plan : Plan) : Except Failure Setting := do
  let live ← Liveness.ofLoop p loop
  checkOwned p plan live.liveOut
  let dominance ← Dominance.ofFunc p f
  return {
    func := f
    loop, deps, plan, config, loopId, live, dominance
    threads := config.threads
    climbLimit := (← p.func f).blocks.length + 1 }

def checkFuncs (p : Program) (funcs : List FuncRef) : Except Failure Unit := funcs.forM p.check

def splitIn (s : Setting) : Edit Split := do
  let dispatch ← Dispatch.install s
  let workers ← (List.range s.threads).mapM (Worker.build s dispatch)
  if s.config.verify then
    checkFuncs (← get) (s.func :: workers.map Worker.func)
  s.log (← get) s.func
  return {
    loopId := s.loopId
    block := dispatch.block
    workers
    exchange := dispatch.exchange
    live := s.live }

def splitNumbered (config : Config) (loopId : Nat) (f : FuncRef) (loop : Loop)
    (deps : Dependences) (plan : Plan) : Edit Split := do
  splitIn (← setting config loopId (← get) f loop deps plan)

/-- Splits a loop of the function `f`. Returns the outcome with the splitter and
the program as they are then. -/
def split (splitter : Splitter) (p : Program) (f : FuncRef) (loop : Loop)
    (deps : Dependences) (plan : Plan) : Except Failure Split × Splitter × Program :=
  match checkRequest splitter.config p f loop plan with
  | .error failure => (.error failure, splitter, p)
  | .ok () =>
      if splitter.numbered + 1 < numberLimit then
        let (outcome, p) :=
          (splitNumbered splitter.config splitter.numbered f loop deps plan).apply p
        (outcome, { splitter with numbered := splitter.numbered + 1 }, p)
      else
        (.error (.fault (.numberTooLarge (splitter.numbered + 1))), splitter, p)

end Splitter

end Decouple
