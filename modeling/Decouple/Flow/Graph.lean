import Decouple.Digraph.Basic
import Decouple.Program.Lookup

/-!
# The flow graph of a function

The blocks of a function, numbered by their place in the layout, with an edge for
every branch from one of them to another. Two branches to the same block are one
edge, and branches out of the layout are left out.
-/

namespace Decouple

def lastIndex? {α : Type} [DecidableEq α] (a : α) : List α → Option Nat
  | [] => none
  | x :: rest =>
      match lastIndex? a rest with
      | some k => some (k + 1)
      | none => if x = a then some 0 else none

/-- The flow graph of a function: its layout, and the edges between positions of
the layout. -/
structure FlowGraph where
  blocks : List BlockRef
  graph : Digraph
deriving DecidableEq, Repr

namespace FlowGraph

/-- The number of a block. If the layout lists it more than once, the last place
counts. -/
def position? (flow : FlowGraph) (b : BlockRef) : Option Nat := lastIndex? b flow.blocks

/-- All blocks of the graph with their numbers, in the order of the block
table. -/
def positions (flow : FlowGraph) : List (BlockRef × Nat) :=
  (flow.blocks.zipIdx.foldl (fun map (b, k) => map.insert b k)
    (∅ : Std.TreeMap BlockRef Nat)).toList

/-- The positions in `layout` of those of the `targets` that it lists, each
once. -/
def targetPositions (layout targets : List BlockRef) : List Nat :=
  (targets.filterMap fun target => lastIndex? target layout).eraseDups

def ofFunc (p : Program) (f : FuncRef) : Except Failure FlowGraph := do
  let layout := (← p.func f).blocks
  let succs ← layout.mapM fun b => return targetPositions layout (← p.successors b)
  return { blocks := layout, graph := Digraph.ofSuccs succs.toArray }

end FlowGraph

end Decouple
