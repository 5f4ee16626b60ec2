import Decouple.Digraph.Postorder

/-!
# Immediate dominators

`idoms? g root` approximates the immediate dominator of every node by sweeps in
reverse postorder. A sweep replaces the entry of a node by the nearest common
ancestor of those predecessors that have an entry already, and the sweeps go on
until one changes nothing. The root is its own entry; nodes that are not
reachable never get one.

The nearest common ancestor is found by climbing: of two nodes the one with the
higher *rank*, its position in reverse postorder, moves to its entry. Entries
have lower ranks than their nodes, so the climb goes down in rank; and an entry
that changes only ever moves to a lower rank, so the sweeps go down in total
rank. Both facts are checked on the way, which is what makes the definitions
total: `none` would mean that one of them fails.
-/

namespace Decouple

namespace Digraph

/-- The entry of a node: what is known of its immediate dominator. -/
def entry (idom : Array (Option Nat)) (v : Nat) : Option Nat := idom[v]?.join

/-- The nearest common ancestor of two nodes: of two different nodes, the one of
higher rank moves to its entry, which has to have a lower rank. -/
def meet? (rank : Nat → Nat) (idom : Array (Option Nat)) (a b : Nat) : Option Nat :=
  if a = b then
    some a
  else if rank b < rank a then
    match entry idom a with
    | some up => if rank up < rank a then meet? rank idom up b else none
    | none => none
  else
    match entry idom b with
    | some up => if rank up < rank b then meet? rank idom a up else none
    | none => none
termination_by rank a + rank b

/-- The entries after the one of `v` is computed anew from its predecessors. -/
def refine? (g : Digraph) (rank : Nat → Nat) (idom : Array (Option Nat)) (v : Nat) :
    Option (Array (Option Nat)) :=
  match (g.predsOf v).filter fun u => (entry idom u).isSome with
  | [] => some idom
  | u :: rest => do
      let common ← rest.foldlM (fun common u => meet? rank idom u common) u
      return idom.setIfInBounds v (some common)

/-- The sum of the ranks of all entries, where a missing entry counts as the
number of ranks. -/
def totalRank (rank : Nat → Nat) (order : List Nat) (idom : Array (Option Nat)) : Nat :=
  totalWeight (fun v => ((entry idom v).map rank).getD order.length) order

/-- Sweeps over the nodes of `order` until nothing changes. -/
def settle? (g : Digraph) (rank : Nat → Nat) (order : List Nat) (idom : Array (Option Nat)) :
    Option (Array (Option Nat)) :=
  match order.tail.foldlM (refine? g rank) idom with
  | none => none
  | some next =>
      if next = idom then
        some idom
      else if totalRank rank order next < totalRank rank order idom then
        settle? g rank order next
      else
        none
termination_by totalRank rank order idom

/-- The immediate dominator of every node reachable from `root`, with the root as
its own. -/
def idoms? (g : Digraph) (root : Nat) : Option (Array (Option Nat)) :=
  let order := reversePostorder g.succs root
  settle? g (fun v => order.idxOf v) order
    ((Array.replicate g.size none).setIfInBounds root (some root))

end Digraph

end Decouple
