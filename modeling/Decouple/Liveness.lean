import Decouple.Loop
import Decouple.Uses

/-!
# Values that cross the border of a loop

Three lists describe how a loop exchanges values with its surroundings:

* `defined`: the instructions of the loop that yield a value;
* `liveOut`: the instructions of the loop that are read outside of it;
* `liveIn`: the results and parameters that are read in the loop and are not
  defined in it.

They follow the order of the loop's blocks and of the instructions in them; a
live-in stands where it is first read. Reading is taken from the program's text:
an instruction counts as read outside the loop if some instruction placed outside
has it as an operand, whether control gets there or not.
-/

namespace Decouple

structure Liveness where
  defined : List InstrRef
  liveIn : List Value
  liveOut : List InstrRef
deriving DecidableEq, Repr

namespace Liveness

/-- Whether one of the readers of `i` is outside the loop. All of them have to be
placed in a block. -/
def escapes (p : Program) (loop : Loop) (i : InstrRef) :
    List InstrRef → Except Failure Bool
  | [] => return false
  | reader :: rest => do
      match (← p.instr reader).block with
      | none => throw (.rejected (.malformedUse (← p.valueName (.instr i))))
      | some b => return b ∉ loop || (← escapes p loop i rest)

def addInstr (p : Program) (uses : UseMap) (loop : Loop) (live : Liveness) (i : InstrRef) :
    Except Failure Liveness := do
  let defines := (← p.instr i).hasResult
  let escaping ← escapes p loop i (uses.readers (.instr i))
  return { live with
    defined := if defines then live.defined ++ [i] else live.defined
    liveOut := if escaping then live.liveOut ++ [i] else live.liveOut }

/-- Enters an operand of the loop among the live-ins, if it comes from outside
and is new. -/
def addOperand (live : Liveness) (v : Value) : Liveness :=
  let inside := v.instr?.any fun i => i ∈ live.defined
  if v.isVariable ∧ !inside ∧ v ∉ live.liveIn then
    { live with liveIn := live.liveIn ++ [v] }
  else
    live

def addOperands (p : Program) (live : Liveness) (i : InstrRef) : Except Failure Liveness :=
  return (← p.instr i).op.operands.foldl addOperand live

def overLoop (p : Program) (loop : Loop) (step : Liveness → InstrRef → Except Failure Liveness)
    (live : Liveness) : Except Failure Liveness :=
  loop.blocks.foldlM (fun live b => do (← p.block b).instrs.foldlM step live) live

/-- The values that cross the border of a loop. The definitions are complete
before the first operand is looked at. -/
def ofLoop (p : Program) (loop : Loop) : Except Failure Liveness := do
  let live ← overLoop p loop (addInstr p (UseMap.ofProgram p) loop) ⟨[], [], []⟩
  overLoop p loop (addOperands p) live

end Liveness

end Decouple
