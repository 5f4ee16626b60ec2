import Decouple.Program.Lookup
import Decouple.Walk

/-!
# Paths through a function

The blocks of a function as a relation, said without numbers and trees: control
may go from one block of the layout to another one if the terminator of the first
names the second. A block is final if control cannot go on inside the layout.
Reachability and (post-)dominance between blocks are those of this relation.
-/

namespace Decouple

namespace Program

def FlowEdge (p : Program) (layout : List BlockRef) (a b : BlockRef) : Prop :=
  a ∈ layout ∧ b ∈ layout ∧ ∃ targets, p.successors a = .ok targets ∧ b ∈ targets

/-- A block of the layout after which control does not go on inside of it. -/
def FlowFinal (p : Program) (layout : List BlockRef) (b : BlockRef) : Prop :=
  b ∈ layout ∧ ∀ c, ¬ p.FlowEdge layout b c

def FlowReachable (p : Program) (layout : List BlockRef) (b : BlockRef) : Prop :=
  ∃ entry, layout.head? = some entry ∧ Reaches (p.FlowEdge layout) entry b

def FlowDominates (p : Program) (layout : List BlockRef) (a b : BlockRef) : Prop :=
  ∃ entry, layout.head? = some entry ∧ Dominates (p.FlowEdge layout) entry a b

def FlowPostDominates (p : Program) (layout : List BlockRef) (a b : BlockRef) : Prop :=
  PostDominates (p.FlowEdge layout) (p.FlowFinal layout) a b

variable {p : Program} {layout : List BlockRef} {a b : BlockRef}

theorem FlowEdge.source_mem (h : p.FlowEdge layout a b) : a ∈ layout := h.1

theorem FlowEdge.target_mem (h : p.FlowEdge layout a b) : b ∈ layout := h.2.1

/-- A walk from a block of the layout stays in the layout. -/
theorem mem_layout_of_walk {visited : List BlockRef} (ha : a ∈ layout)
    (h : Walk (p.FlowEdge layout) a b visited) : ∀ c ∈ visited, c ∈ layout := by
  induction h with
  | stay a =>
      intro c hc
      exact List.mem_singleton.1 hc ▸ ha
  | step hedge hwalk ih =>
      intro c hc
      rcases List.mem_cons.1 hc with rfl | hc
      · exact ha
      · exact ih hedge.target_mem c hc

end Program

end Decouple
