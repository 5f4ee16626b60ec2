/-!
# Directed graphs on an initial segment

A graph on the nodes `0, …, size - 1`, given by the successors and by the
predecessors of each node. Keeping both makes reversing a graph an exchange of
two fields; that the two describe the same edges is the predicate `Consistent`,
which the graphs built in this library satisfy.
-/

namespace Decouple

structure Digraph where
  succs : Array (List Nat)
  preds : Array (List Nat)
deriving DecidableEq, Repr

namespace Digraph

def size (g : Digraph) : Nat := g.succs.size

def succsOf (g : Digraph) (v : Nat) : List Nat := g.succs[v]?.getD []

def predsOf (g : Digraph) (v : Nat) : List Nat := g.preds[v]?.getD []

def totalWeight (weight : Nat → Nat) : List Nat → Nat
  | [] => 0
  | v :: nodes => weight v + totalWeight weight nodes

@[simp] theorem totalWeight_nil (weight : Nat → Nat) : totalWeight weight [] = 0 := rfl

@[simp] theorem totalWeight_cons (weight : Nat → Nat) (v : Nat) (nodes : List Nat) :
    totalWeight weight (v :: nodes) = weight v + totalWeight weight nodes := rfl

/-- The two lists have the same length, stay inside it and describe the same
edges. -/
structure Consistent (g : Digraph) : Prop where
  size_preds : g.preds.size = g.size
  mem_succs_lt : ∀ u v, v ∈ g.succsOf u → v < g.size
  mem_succs_iff : ∀ u v, v ∈ g.succsOf u ↔ u ∈ g.predsOf v

/-- The graph with successor lists `succs`; the predecessors of a node are
listed in increasing order. -/
def ofSuccs (succs : Array (List Nat)) : Digraph where
  succs := succs
  preds := Array.ofFn fun v : Fin succs.size =>
    (List.range succs.size).filter fun u => v.val ∈ succs[u]?.getD []

def reverse (g : Digraph) : Digraph := ⟨g.preds, g.succs⟩

def finals (g : Digraph) : List Nat :=
  (List.range g.size).filter fun v => (g.succsOf v).isEmpty

/-- The graph with one more node, numbered `size`, that exactly the nodes without
successors lead to. -/
def withExit (g : Digraph) : Digraph where
  succs := (g.succs.map fun after => if after.isEmpty then [g.size] else after).push []
  preds := g.preds.push g.finals

end Digraph

end Decouple
