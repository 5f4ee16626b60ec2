import Decouple.Dependence
import Decouple.Flow.Dominance
import Decouple.Liveness
import Decouple.Plan
import Decouple.Program.Text
import Decouple.Split.Config

/-!
# The setting of a split

All that the steps of splitting one loop share: the loop and its function, the
plan and the dependences behind it, and what was found out about the function
before anything in it was changed.
-/

namespace Decouple

structure Setting where
  func : FuncRef
  loop : Loop
  deps : Dependences
  plan : Plan
  config : Config
  /-- The number of the loop, which makes the names of new functions and
  structure types distinct. -/
  loopId : Nat
  threads : Nat
  live : Liveness
  dominance : Dominance
  /-- The number of steps after which a climb to a copied block is given up. -/
  climbLimit : Nat
deriving DecidableEq, Repr

/-- Takes down the written form of a function, if there is a log. What it says is
not kept, but writing breaks down with a reference that leads nowhere. -/
def Setting.log (s : Setting) (p : Program) (f : FuncRef) : Except Failure Unit := do
  if s.config.tracing then
    discard (p.funcText f)

end Decouple
