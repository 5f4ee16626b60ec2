import Decouple.Program.Ref

/-!
# Dependences between instructions

A dependence says that one instruction, the dependent, needs another, the
dependency: its result, an effect on memory, or a branch it decides. A
dependence graph is the list of its dependences in the order in which they were
found.
-/

namespace Decouple

inductive DependenceKind where
  | register
  | memory
  | control
deriving DecidableEq, Repr

structure Dependence where
  dependency : InstrRef
  dependent : InstrRef
  kind : DependenceKind
deriving DecidableEq, Repr

structure Dependences where
  edges : List Dependence
deriving DecidableEq, Repr

namespace Dependences

def empty : Dependences := ⟨[]⟩

def add (deps : Dependences) (edge : Dependence) : Dependences :=
  ⟨deps.edges ++ [edge]⟩

def dependenciesOf (deps : Dependences) (i : InstrRef) : List Dependence :=
  deps.edges.filter fun edge => edge.dependent = i

end Dependences

end Decouple
