import Std.Data.TreeMap

/-!
# References

A program is kept in four flat tables: functions, blocks, instructions and
structure types. An entry is named by its position in its table, and the four
kinds of position are four types, so that a block is never looked up with the
name of an instruction.

A reference promises nothing: the entry it names may be missing. What happens
then is decided where the reference is followed, in `Decouple.Program.Lookup`.
-/

namespace Decouple

@[ext]
structure FuncRef where
  index : Nat
deriving DecidableEq, Repr

@[ext]
structure BlockRef where
  index : Nat
deriving DecidableEq, Repr

@[ext]
structure InstrRef where
  index : Nat
deriving DecidableEq, Repr

@[ext]
structure StructRef where
  index : Nat
deriving DecidableEq, Repr

def FuncRef.text (f : FuncRef) : String := "fn" ++ toString f.index

def BlockRef.text (b : BlockRef) : String := "bb" ++ toString b.index

def InstrRef.text (i : InstrRef) : String := "i" ++ toString i.index

def StructRef.text (s : StructRef) : String := "struct" ++ toString s.index

/-- Blocks are ordered by position, so that maps from blocks list their keys in
table order. -/
instance : Ord BlockRef := ⟨compareOn BlockRef.index⟩

instance : Std.TransOrd BlockRef :=
  inferInstanceAs (Std.TransCmp (compareOn BlockRef.index))

instance : Std.LawfulEqOrd BlockRef where
  eq_of_compare h := BlockRef.ext (Std.LawfulEqOrd.eq_of_compare h)

instance : Ord InstrRef := ⟨compareOn InstrRef.index⟩

instance : Std.TransOrd InstrRef :=
  inferInstanceAs (Std.TransCmp (compareOn InstrRef.index))

instance : Std.LawfulEqOrd InstrRef where
  eq_of_compare h := InstrRef.ext (Std.LawfulEqOrd.eq_of_compare h)

end Decouple
