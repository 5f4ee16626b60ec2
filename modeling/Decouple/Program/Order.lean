import Decouple.Program.Basic

/-!
# An order on values

Maps keyed by values need a linear order on them. Any will do; this one compares
the codes of two values, where the code lists the constructor's number and then
its fields. Two values with the same code are equal, which is what the maps rely
on.
-/

namespace Decouple

/-- A list of numbers that determines the type. -/
def Ty.code : Ty → List Int
  | .void => [0]
  | .int bits => [1, bits]
  | .float => [2]
  | .ptr => [3]
  | .struct ref => [4, ref.index]

theorem Ty.code_injective {a b : Ty} (h : a.code = b.code) : a = b := by
  cases a <;> cases b <;> simp [Ty.code] at h ⊢
  · omega
  · exact StructRef.ext (by omega)

def Value.code : Value → List Int
  | .instr i => [0, i.index]
  | .param f index => [1, f.index, index]
  | .int value ty => 2 :: value :: ty.code
  | .null => [3]
  | .func f => [4, f.index]

theorem Value.code_injective {a b : Value} (h : a.code = b.code) : a = b := by
  cases a <;> cases b <;> simp [Value.code] at h ⊢
  · exact InstrRef.ext (by omega)
  · exact ⟨FuncRef.ext (by omega), by omega⟩
  · exact ⟨h.1, Ty.code_injective h.2⟩
  · exact FuncRef.ext (by omega)

instance : Ord Value := ⟨compareOn Value.code⟩

instance : Std.TransOrd Value :=
  inferInstanceAs (Std.TransCmp (compareOn Value.code))

instance : Std.LawfulEqOrd Value where
  eq_of_compare h := Value.code_injective (Std.LawfulEqOrd.eq_of_compare h)

end Decouple
