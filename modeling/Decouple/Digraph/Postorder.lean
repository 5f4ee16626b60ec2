import Decouple.Digraph.Basic

/-!
# Depth-first order

`postorder succs root` lists the nodes reachable from `root`, each after all
nodes that were first reached through it. The search keeps an agenda of steps
instead of calling itself: *entering* a node puts steps for its successors in
front of the step that *leaves* it, with the last successor first.

Each step of the agenda is taken once, and a node is entered at most once, so the
agenda together with what entering the remaining nodes could still add to it
shrinks with every step. That is the measure `agendaWeight`.
-/

namespace Decouple

namespace Digraph

inductive Step where
  /-- Go to the node, if it has not been seen. -/
  | enter (node : Nat)
  /-- Everything reached through the node has been listed: list the node. -/
  | leave (node : Nat)
deriving DecidableEq, Repr

/-- The steps that entering the nodes outside `seen` could still add: for each
node one for every successor, one to leave it, and one to spare. -/
def pendingWeight (succs : Array (List Nat)) (seen : List Nat) : Nat :=
  totalWeight (fun v => (succs[v]?.getD []).length + 2)
    ((List.range succs.size).filter (· ∉ seen))

def agendaWeight (succs : Array (List Nat)) (agenda : List Step) (seen : List Nat) : Nat :=
  agenda.length + pendingWeight succs seen

/-- Seeing one more node takes its weight off the total of the nodes not seen. -/
theorem totalWeight_filter_cons (weight : Nat → Nat) {nodes seen : List Nat} {v : Nat}
    (hnodup : nodes.Nodup) (hmem : v ∈ nodes) (hseen : v ∉ seen) :
    totalWeight weight (nodes.filter (· ∉ v :: seen)) + weight v =
      totalWeight weight (nodes.filter (· ∉ seen)) := by
  induction nodes with
  | nil => simp at hmem
  | cons u nodes ih =>
      obtain ⟨hu, hnodup⟩ := List.nodup_cons.1 hnodup
      by_cases huv : u = v
      · subst huv
        have hrest : nodes.filter (· ∉ u :: seen) = nodes.filter (· ∉ seen) := by
          apply List.filter_congr
          intro x hx
          have hxu : x ≠ u := fun h => hu (h ▸ hx)
          simp [hxu]
        rw [List.filter_cons_of_neg (by simp), List.filter_cons_of_pos (by simpa using hseen),
          hrest, totalWeight_cons]
        exact Nat.add_comm _ _
      · have hv : v ∈ nodes := by
          rcases List.mem_cons.1 hmem with h | h
          · exact absurd h.symm huv
          · exact h
        have ih := ih hnodup hv
        by_cases hs : u ∈ seen
        · rw [List.filter_cons_of_neg (by simp [hs]), List.filter_cons_of_neg (by simp [hs])]
          exact ih
        · rw [List.filter_cons_of_pos (by simp [hs, huv]),
            List.filter_cons_of_pos (by simp [hs]), totalWeight_cons, totalWeight_cons,
            Nat.add_assoc, ih]

theorem pendingWeight_cons (succs : Array (List Nat)) {seen : List Nat} {v : Nat}
    (hv : v < succs.size) (hseen : v ∉ seen) :
    pendingWeight succs (v :: seen) + ((succs[v]?.getD []).length + 2) =
      pendingWeight succs seen :=
  totalWeight_filter_cons (fun v => (succs[v]?.getD []).length + 2) List.nodup_range
    (List.mem_range.2 hv) hseen

/-- Works off the agenda; `done` holds the nodes left so far, the last one first.
The result is in the same order, so it is the reverse of the postorder. -/
def search (succs : Array (List Nat)) : List Step → List Nat → List Nat → List Nat
  | [], _, done => done
  | .leave v :: rest, seen, done => search succs rest seen (v :: done)
  | .enter v :: rest, seen, done =>
      if h : v < succs.size ∧ v ∉ seen then
        search succs ((succs[v]?.getD []).reverse.map .enter ++ .leave v :: rest) (v :: seen) done
      else
        search succs rest seen done
termination_by agenda seen => agendaWeight succs agenda seen
decreasing_by
  · simp [agendaWeight]
  · have hweight := pendingWeight_cons succs h.1 h.2
    simp only [agendaWeight, List.length_append, List.length_map, List.length_reverse,
      List.length_cons]
    omega
  · simp [agendaWeight]

/-- The nodes reachable from `root`, the root first, in the reverse of the order
in which the search leaves them. -/
def reversePostorder (succs : Array (List Nat)) (root : Nat) : List Nat :=
  search succs [.enter root] [] []

/-- The nodes reachable from `root` in the order in which the search leaves them.
Successors that are no nodes are passed over, and so is such a root. -/
def postorder (succs : Array (List Nat)) (root : Nat) : List Nat :=
  (reversePostorder succs root).reverse

end Digraph

end Decouple
