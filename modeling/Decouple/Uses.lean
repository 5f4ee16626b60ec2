import Decouple.Program.Lookup
import Decouple.Program.Order

/-!
# Who reads a value

The use map of a program maps every result and every parameter that is read
somewhere to the instructions that read it. It covers the whole instruction
table, so that a reader which no block holds is found as well.
-/

namespace Decouple

/-- The readers of each value, in table order and each once. -/
abbrev UseMap := Std.TreeMap Value (List InstrRef)

namespace UseMap

def readers (uses : UseMap) (v : Value) : List InstrRef := uses[v]?.getD []

/-- Enters `i` as a reader of `v`. Instructions are entered one after the other,
so a reader that is entered already is the last one. -/
def enter (uses : UseMap) (i : InstrRef) (v : Value) : UseMap :=
  if v.isVariable ∧ (uses.readers v).getLast? ≠ some i then
    uses.insert v (uses.readers v ++ [i])
  else
    uses

def enterInstr (uses : UseMap) (i : InstrRef) (instr : Instr) : UseMap :=
  instr.op.operands.foldl (fun uses v => uses.enter i v) uses

def ofProgram (p : Program) : UseMap :=
  p.instrs.toList.zipIdx.foldl (fun uses (instr, k) => uses.enterInstr ⟨k⟩ instr) ∅

end UseMap

end Decouple
