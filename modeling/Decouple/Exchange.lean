import Decouple.Liveness
import Decouple.Program.Edit

/-!
# The structures that workers exchange values through

A loop that runs on workers passes them its live-ins in one structure, the
*arguments*, and gets its live-outs back in another, the *outputs*. The outputs
are embedded in the arguments as the last field, so a worker needs one pointer.
-/

namespace Decouple

/-- The types of the two structures. `outField` is the field of the arguments
that holds the outputs. -/
structure Exchange where
  args : StructRef
  outs : StructRef
  outField : Nat
deriving DecidableEq, Repr

namespace Exchange

/-- The field that holds the value at position `k` of the live-ins or live-outs. -/
def field (k : Nat) : Except Failure Nat :=
  if k < numberLimit then .ok k else .error (.fault (.numberTooLarge k))

def declare (loopId : Nat) (liveIn : List Value) (liveOut : List InstrRef) :
    Edit Exchange := do
  let p ← get
  let outTypes ← p.valueTypes (liveOut.map .instr)
  let outs ← Edit.addStruct ("outstruct_" ++ toString loopId ++ "_ty") outTypes
  let argTypes ← p.valueTypes liveIn
  let outField ← field argTypes.length
  let args ← Edit.addStruct ("argstruct_" ++ toString loopId ++ "_ty")
    (argTypes ++ [.struct outs])
  return { args, outs, outField }

end Exchange

end Decouple
