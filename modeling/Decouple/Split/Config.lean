/-!
# Configuration

How loops are split: on how many threads, through which functions of the runtime
system, and with which extras.
-/

namespace Decouple

structure Runtime where
  init : String
  dispatch : String
  join : String
deriving DecidableEq, Repr

structure Config where
  threads : Nat
  /-- The runtime functions that the dispatching code calls. -/
  runtime : Runtime := ⟨"sync_init", "sync_delegate", "sync_join"⟩
  /-- A function that every worker calls first, if there is one. -/
  traceHook : Option String := none
  /-- Whether the changed functions are checked at the end. -/
  verify : Bool := true
  /-- Whether a log takes down what becomes of the functions. -/
  tracing : Bool := false
deriving DecidableEq, Repr

def Config.standard : Config := { threads := 2 }

end Decouple
