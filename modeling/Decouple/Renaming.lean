import Decouple.Program.Edit
import Decouple.Program.Order

/-!
# Renamings

A renaming replaces values by other values wherever they are read. It is applied
to each operand once: what it puts in is not looked up again, so the entries act
at the same time and not one after the other.
-/

namespace Decouple

/-- Values and what to read in their place. -/
abbrev Renaming := Std.TreeMap Value Value

namespace Renaming

def rename (σ : Renaming) (v : Value) : Value := σ[v]?.getD v

def hits (σ : Renaming) (op : Op) : Nat :=
  op.operands.countP fun v => σ.contains v

/-- Renames the operands of each instruction of a list, one instruction after the
other, and returns how many operands had an entry. -/
def applyEach (σ : Renaming) : List InstrRef → Edit Nat
  | [] => return 0
  | i :: rest => do
      let instr ← (← get).instr i
      Edit.setInstr i { instr with op := instr.op.mapOperands σ.rename }
      return σ.hits instr.op + (← σ.applyEach rest)

/-- Renames the operands of the instructions, and returns how many had an entry.
With no entries there is nothing to do, and the instructions are not looked
at. -/
def apply (σ : Renaming) (instrs : List InstrRef) : Edit Nat :=
  if σ.isEmpty then return 0 else σ.applyEach instrs

end Renaming

end Decouple
