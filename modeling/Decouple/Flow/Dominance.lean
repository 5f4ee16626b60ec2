import Decouple.Digraph.Dominators
import Decouple.Flow.Graph

/-!
# Dominance between blocks

Block `a` dominates block `b` if every way from the entry to `b` passes through
`a`, and it post-dominates `b` if every way from `b` out of the function does.
Both relations are kept as trees: every block has at most one parent, the nearest
other block that (post-)dominates it, and `a` (post-)dominates `b` if it is found
on the way up from `b`.

The dominator tree grows from the entry of the flow graph. The post-dominator
tree grows, in the reversed graph, from one more node that all returning blocks
lead to; that node is no block, so a block below it has no parent.
-/

namespace Decouple

/-- A tree of blocks: for each place of the layout the place of the parent, if
there is one. A place that is its own parent is a root, and a parent beyond the
layout is no block. -/
structure BlockTree where
  blocks : List BlockRef
  parents : Array (Option Nat)
deriving DecidableEq, Repr

namespace BlockTree

/-- The parent of a block: none for a root, for a block below no other block and
for a block that the tree does not have. -/
def parent? (tree : BlockTree) (b : BlockRef) : Option BlockRef := do
  let k ← lastIndex? b tree.blocks
  let up ← Digraph.entry tree.parents k
  if up = k then none else tree.blocks[up]?

/-- The block, its parent, the parent of that and so on, for at most `steps`
steps. -/
def ancestors (tree : BlockTree) : Nat → BlockRef → List BlockRef
  | 0, b => [b]
  | steps + 1, b =>
      match tree.parent? b with
      | none => [b]
      | some up => b :: tree.ancestors steps up

/-- All blocks on the way up from a block, itself included. A way without
repetition has no more steps than the tree has blocks. -/
def chain (tree : BlockTree) (b : BlockRef) : List BlockRef :=
  tree.ancestors tree.blocks.length b

/-- Whether `a` is on the way up from `b`. Every block is on its own way, also
one that the tree does not have. -/
def isAbove (tree : BlockTree) (a b : BlockRef) : Bool := a ∈ tree.chain b

/-- Which block is above which: a row for each block of the layout, with an entry
for each block that it may be above. Every way up is gone once. -/
def table (tree : BlockTree) : List (List Bool) :=
  let chains := tree.blocks.map tree.chain
  tree.blocks.map fun a => chains.map fun chain => a ∈ chain

theorem table_eq (tree : BlockTree) :
    tree.table = tree.blocks.map fun a => tree.blocks.map (tree.isAbove a) := by
  simp [table, isAbove, Function.comp_def]

end BlockTree

structure Dominance where
  dom : BlockTree
  postDom : BlockTree
deriving DecidableEq, Repr

namespace Dominance

/-- The parents of a tree of blocks, which have to settle. -/
def settled (parents? : Option (Array (Option Nat))) : Except Failure (Array (Option Nat)) :=
  match parents? with
  | some parents => .ok parents
  | none => .error (.fault .brokenChain)

/-- The dominator tree of a flow graph; without blocks there is no entry. -/
def domTree (flow : FlowGraph) : Except Failure BlockTree := do
  if flow.blocks.isEmpty then
    return { blocks := flow.blocks, parents := #[] }
  else
    return { blocks := flow.blocks, parents := ← settled (flow.graph.idoms? 0) }

def postDomTree (flow : FlowGraph) : Except Failure BlockTree :=
  return {
    blocks := flow.blocks
    parents := ← settled (flow.graph.withExit.reverse.idoms? flow.graph.size) }

def ofFunc (p : Program) (f : FuncRef) : Except Failure Dominance := do
  let flow ← FlowGraph.ofFunc p f
  return { dom := ← domTree flow, postDom := ← postDomTree flow }

def idom? (dominance : Dominance) (b : BlockRef) : Option BlockRef := dominance.dom.parent? b

def ipdom? (dominance : Dominance) (b : BlockRef) : Option BlockRef :=
  dominance.postDom.parent? b

def dominates (dominance : Dominance) (a b : BlockRef) : Bool := dominance.dom.isAbove a b

def postDominates (dominance : Dominance) (a b : BlockRef) : Bool :=
  dominance.postDom.isAbove a b

end Dominance

end Decouple
