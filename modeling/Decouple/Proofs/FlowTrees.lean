import Decouple.Flow.Climb
import Decouple.Flow.Dominance
import Decouple.Flow.Path
import Decouple.Proofs.Dominators
import Decouple.Proofs.Outcomes

/-!
# The trees of a function say how its blocks dominate each other

Where no block is listed twice, the flow graph of a function has the edges of
`Program.FlowEdge` between the places of the layout, and its two trees represent
`Program.FlowDominates` and `Program.FlowPostDominates` (`represents_of_ofFunc`): the
parent of a block is the nearest other block above it, and a block without a
parent has no other block above it.

A climb along such a tree that finds something finds it at the nearest block above
its start that the lookup knows (`BlockTree.Represents.climb`).
-/

namespace Decouple

open Outcome

theorem getElem?_of_lastIndex? {α : Type} [DecidableEq α] {a : α} {xs : List α} {k : Nat}
    (h : lastIndex? a xs = some k) : xs[k]? = some a := by
  induction xs generalizing k with
  | nil => simp [lastIndex?] at h
  | cons x xs ih =>
      unfold lastIndex? at h
      split at h
      · next k' hk' =>
          obtain rfl := Option.some.inj h
          simpa using ih hk'
      · split at h
        · next hx =>
            obtain rfl := Option.some.inj h
            simp [hx]
        · cases h

theorem lastIndex?_of_mem {α : Type} [DecidableEq α] {a : α} {xs : List α} (h : a ∈ xs) :
    ∃ k, lastIndex? a xs = some k := by
  induction xs with
  | nil => simp at h
  | cons x xs ih =>
      unfold lastIndex?
      cases hrest : lastIndex? a xs with
      | some k => exact ⟨k + 1, rfl⟩
      | none =>
          rcases List.mem_cons.1 h with rfl | h
          · exact ⟨0, by simp⟩
          · obtain ⟨k, hk⟩ := ih h
            rw [hrest] at hk
            cases hk

/-- In a list without repetition a member is found at its only place. -/
theorem lastIndex?_eq_some_iff {α : Type} [DecidableEq α] {a : α} {xs : List α}
    (hnodup : xs.Nodup) {k : Nat} : lastIndex? a xs = some k ↔ xs[k]? = some a := by
  refine ⟨getElem?_of_lastIndex?, ?_⟩
  intro hk
  obtain ⟨l, hl⟩ := lastIndex?_of_mem (List.mem_of_getElem? hk)
  have hl' := getElem?_of_lastIndex? hl
  obtain ⟨hlt, hkeq⟩ := List.getElem?_eq_some_iff.1 hk
  obtain ⟨hlt', hleq⟩ := List.getElem?_eq_some_iff.1 hl'
  rw [hl, (hnodup.getElem_inj_iff).1 (hleq.trans hkeq.symm)]

/-- In a list without repetition two places hold the same member only if they are
the same. -/
theorem getElem?_inj_of_nodup {α : Type} {a : α} {xs : List α} (hnodup : xs.Nodup) {j k : Nat}
    (hj : xs[j]? = some a) (hk : xs[k]? = some a) : j = k := by
  obtain ⟨hlt, hjeq⟩ := List.getElem?_eq_some_iff.1 hj
  obtain ⟨hlt', hkeq⟩ := List.getElem?_eq_some_iff.1 hk
  exact (hnodup.getElem_inj_iff).1 (hjeq.trans hkeq.symm)

namespace Digraph

theorem ofSuccs_consistent {succs : Array (List Nat)}
    (hrange : ∀ u v : Nat, v ∈ succs[u]?.getD [] → v < succs.size) :
    (ofSuccs succs).Consistent where
  size_preds := by simp [ofSuccs, size]
  mem_succs_lt := hrange
  mem_succs_iff := by
    intro u v
    change v ∈ succs[u]?.getD [] ↔ u ∈ (ofSuccs succs).preds[v]?.getD []
    by_cases hv : v < succs.size
    · have hu : v ∈ succs[u]?.getD [] → u < succs.size := by
        intro hmem
        by_contra hu
        simp [Array.getElem?_eq_none (Nat.le_of_not_lt hu)] at hmem
      simp only [ofSuccs, Array.getElem?_ofFn, hv, dite_true, Option.getD_some, List.mem_filter,
        List.mem_range, decide_eq_true_eq]
      exact ⟨fun hmem => ⟨hu hmem, hmem⟩, fun hmem => hmem.2⟩
    · constructor
      · intro hmem
        exact absurd (hrange u v hmem) hv
      · intro hmem
        simp [ofSuccs, hv] at hmem

theorem mem_finals_iff {g : Digraph} {v : Nat} :
    v ∈ g.finals ↔ v < g.size ∧ g.succsOf v = [] := by
  simp [finals]

theorem succsOf_withExit (g : Digraph) (v : Nat) :
    g.withExit.succsOf v =
      if v < g.size then (if g.succsOf v = [] then [g.size] else g.succsOf v) else [] := by
  by_cases hv : v < g.size
  · have hv' : v < g.succs.size := hv
    simp [succsOf, withExit, Array.getElem?_push, hv', hv, Nat.ne_of_lt hv']
  · rw [if_neg hv]
    have hv' : g.succs.size ≤ v := Nat.le_of_not_lt hv
    by_cases heq : v = g.succs.size
    · rw [heq, succsOf, withExit]
      simp only [Array.getElem?_push, Array.size_map, if_true, Option.getD_some]
    · simp [succsOf, withExit, Array.getElem?_push, heq, hv']

theorem predsOf_withExit {g : Digraph} (hg : g.Consistent) (v : Nat) :
    g.withExit.predsOf v = if v = g.size then g.finals else g.predsOf v := by
  have hsize := hg.size_preds
  by_cases hv : v = g.size
  · simp [predsOf, withExit, hv, ← hsize]
  · simp [predsOf, withExit, Array.getElem?_push, hv, hsize]

theorem withExit_reverse_edge_iff {g : Digraph} (hg : g.Consistent) {u v : Nat} :
    g.withExit.reverse.Edge u v ↔ u = g.size ∧ v ∈ g.finals ∨ g.Edge v u := by
  change v ∈ g.withExit.predsOf u ↔ _
  rw [predsOf_withExit hg]
  by_cases hu : u = g.size
  · have hnot : ¬ g.Edge v u := by
      intro hedge
      exact absurd (hg.mem_succs_lt v u hedge) (by omega)
    simp [hu, hu ▸ hnot]
  · simp only [hu, if_false, false_and, false_or]
    exact (hg.mem_succs_iff v u).symm

theorem withExit_reverse_consistent {g : Digraph} (hg : g.Consistent) :
    g.withExit.reverse.Consistent where
  size_preds := by
    have hsize := hg.size_preds
    simp [reverse, withExit, size] at hsize ⊢
    omega
  mem_succs_lt := by
    have hsize : g.withExit.reverse.size = g.size + 1 := by
      have hsize := hg.size_preds
      simp [reverse, withExit, size] at hsize ⊢
      omega
    intro u v hmem
    rw [hsize]
    rcases (withExit_reverse_edge_iff hg).1 hmem with ⟨-, hv⟩ | hedge
    · exact Nat.lt_succ_of_lt (mem_finals_iff.1 hv).1
    · by_contra hv
      have hnone : g.succsOf v = [] := by
        have hle : g.succs.size ≤ v := by
          have : g.size ≤ v := by omega
          exact this
        simp [succsOf, Array.getElem?_eq_none hle]
      rw [Edge, hnone] at hedge
      exact List.not_mem_nil hedge
  mem_succs_iff := by
    intro u v
    change g.withExit.reverse.Edge u v ↔ u ∈ g.withExit.succsOf v
    rw [withExit_reverse_edge_iff hg, succsOf_withExit]
    have hlt : ∀ w, g.Edge v w → v < g.size ∧ w < g.size := by
      intro w hedge
      refine ⟨?_, hg.mem_succs_lt v w hedge⟩
      by_contra hv
      have hle : g.succs.size ≤ v := Nat.le_of_not_lt hv
      rw [Edge, succsOf, Array.getElem?_eq_none hle] at hedge
      exact List.not_mem_nil hedge
    by_cases hv : v < g.size
    · rw [if_pos hv]
      by_cases hnone : g.succsOf v = []
      · simp [hnone, mem_finals_iff, hv, Edge]
      · simp only [mem_finals_iff, hnone, and_false, false_or]
        rfl
    · have hnot : ¬ g.Edge v u := fun hedge => hv (hlt u hedge).1
      simp [hv, mem_finals_iff, hnot]

end Digraph

namespace FlowGraph

variable {p : Program} {f : FuncRef} {func : Func} {flow : FlowGraph}

theorem ofFunc_eq_ok (h : ofFunc p f = .ok flow) (hfunc : p.func? f = some func) :
    ∃ succs : List (List Nat), flow = ⟨func.blocks, Digraph.ofSuccs succs.toArray⟩ ∧
      List.Forall₂ (fun b after => ∃ targets, p.successors b = .ok targets ∧
        after = targetPositions func.blocks targets) func.blocks succs := by
  unfold ofFunc at h
  obtain ⟨func', hfunc', h⟩ := bind_eq_ok_iff.1 h
  rw [Program.func_eq_ok_iff, hfunc] at hfunc'
  obtain rfl := Option.some.inj hfunc'
  obtain ⟨succs, hsuccs, h⟩ := bind_eq_ok_iff.1 h
  refine ⟨succs, (pure_eq_ok_iff.1 h).symm, (mapM_eq_ok_iff.1 hsuccs).imp ?_⟩
  intro b after hafter
  obtain ⟨targets, htargets, heq⟩ := bind_eq_ok_iff.1 hafter
  exact ⟨targets, htargets, (pure_eq_ok_iff.1 heq).symm⟩

theorem mem_targetPositions_iff {layout targets : List BlockRef} (hnodup : layout.Nodup) {k : Nat} :
    k ∈ targetPositions layout targets ↔ ∃ b ∈ targets, layout[k]? = some b := by
  simp only [targetPositions, List.mem_eraseDups, List.mem_filterMap,
    lastIndex?_eq_some_iff hnodup]

/-- The flow graph has the layout's places as nodes and control's ways between blocks
as edges. -/
structure Faithful (flow : FlowGraph) (p : Program) (layout : List BlockRef) : Prop where
  blocks_eq : flow.blocks = layout
  size_eq : flow.graph.size = layout.length
  consistent : flow.graph.Consistent
  edge_iff : ∀ j k : Nat, flow.graph.Edge j k ↔
    ∃ a b, layout[j]? = some a ∧ layout[k]? = some b ∧ p.FlowEdge layout a b

theorem faithful_of_ofFunc (h : ofFunc p f = .ok flow) (hfunc : p.func? f = some func)
    (hnodup : func.blocks.Nodup) : flow.Faithful p func.blocks := by
  obtain ⟨succs, rfl, hall⟩ := ofFunc_eq_ok h hfunc
  have hlength := hall.length_eq
  have hedge : ∀ j k : Nat, k ∈ succs.toArray[j]?.getD [] ↔
      ∃ a b, func.blocks[j]? = some a ∧ func.blocks[k]? = some b ∧
        p.FlowEdge func.blocks a b := by
    intro j k
    by_cases hj : j < succs.length
    · obtain ⟨targets, htargets, hafter⟩ := hall.get (i := j) (by omega) hj
      simp only [List.get_eq_getElem] at htargets hafter
      simp only [List.getElem?_toArray, List.getElem?_eq_getElem hj, Option.getD_some, hafter,
        mem_targetPositions_iff hnodup]
      constructor
      · rintro ⟨b, hb, hk⟩
        exact ⟨_, b, List.getElem?_eq_getElem (by omega), hk, List.getElem_mem _,
          List.mem_of_getElem? hk, targets, htargets, hb⟩
      · rintro ⟨a, b, ha, hk, -, -, targets', htargets', hb⟩
        obtain ⟨hlt, rfl⟩ := List.getElem?_eq_some_iff.1 ha
        rw [htargets] at htargets'
        obtain rfl := Except.ok.inj htargets'
        exact ⟨b, hb, hk⟩
    · constructor
      · intro hk
        simp [List.getElem?_eq_none (Nat.le_of_not_lt hj)] at hk
      · rintro ⟨a, -, ha, -⟩
        obtain ⟨hlt, -⟩ := List.getElem?_eq_some_iff.1 ha
        exact absurd (hlength ▸ hlt) hj
  have hsize : (Digraph.ofSuccs succs.toArray).size = func.blocks.length := by
    simp [Digraph.ofSuccs, Digraph.size, hlength]
  refine ⟨rfl, hsize, Digraph.ofSuccs_consistent ?_, hedge⟩
  intro u v hmem
  obtain ⟨-, b, -, hb, -⟩ := (hedge u v).1 hmem
  obtain ⟨hlt, -⟩ := List.getElem?_eq_some_iff.1 hb
  simpa [hlength] using hlt

end FlowGraph

namespace BlockTree

/-- The tree represents a relation "above" between blocks: a parent is the nearest
other block above, and a block without a parent has no other one above it. -/
structure Represents (tree : BlockTree) (above : BlockRef → BlockRef → Prop) : Prop where
  parent : ∀ b up, tree.parent? b = some up →
    up ≠ b ∧ above up b ∧ ∀ a, a ≠ b → above a b → above a up
  orphan : ∀ b, tree.parent? b = none → ∀ a, above a b → a = b

/-- Immediate dominators between the places of a layout make a tree that represents
dominance between its blocks. The root may be a place of the layout or not. -/
theorem represents_of_immediateDominators {g : Digraph} {root : Nat}
    {parents : Array (Option Nat)} (h : g.ImmediateDominators root parents)
    {layout : List BlockRef} (hnodup : layout.Nodup) {above : BlockRef → BlockRef → Prop}
    (hiff : ∀ (j k : Nat) (a b : BlockRef), layout[j]? = some a → layout[k]? = some b →
      (Dominates g.Edge root j k ↔ above a b))
    (hmem : ∀ a b, above a b → a ≠ b → a ∈ layout ∧ b ∈ layout)
    (hnode : ∀ k, Reaches g.Edge root k → k < layout.length ∨ k = root) :
    Represents ⟨layout, parents⟩ above := by
  -- a block above another one dominates it as a place
  have hplace : ∀ (a b : BlockRef) (k : Nat), above a b → a ≠ b → layout[k]? = some b →
      ∃ j, layout[j]? = some a ∧ j ≠ k ∧ Dominates g.Edge root j k := by
    intro a b k hab hne hk
    obtain ⟨j, hj⟩ := List.mem_iff_getElem?.1 (hmem a b hab hne).1
    refine ⟨j, hj, ?_, (hiff j k a b hj hk).2 hab⟩
    rintro rfl
    rw [hj] at hk
    exact hne (Option.some.inj hk)
  -- only the root dominates the root
  have hroot : ∀ j, Dominates g.Edge root j root → j = root := by
    intro j hj
    exact List.mem_singleton.1 (hj.mem_of_walk (.stay root))
  constructor
  · intro b up hparent
    obtain ⟨k, hk, hrest⟩ := Option.bind_eq_some_iff.1 hparent
    obtain ⟨u, hu, hup⟩ := Option.bind_eq_some_iff.1 hrest
    split at hup
    · cases hup
    · next hne =>
        have hb := getElem?_of_lastIndex? hk
        have hkroot : k ≠ root := by
          rintro rfl
          rw [h.rooted] at hu
          exact hne (Option.some.inj hu).symm
        refine ⟨?_, (hiff u k up b hup hb).1 (h.dominates k u hu), ?_⟩
        · rintro rfl
          exact hne (getElem?_inj_of_nodup hnodup hup hb)
        · intro a hab habove
          obtain ⟨j, hj, hjk, hdom⟩ := hplace a b k habove hab hb
          exact (hiff j u a up hj hup).1 (h.nearest k u hu hkroot j hjk hdom)
  · intro b hparent a habove
    by_contra hne
    obtain ⟨k, hk⟩ := List.mem_iff_getElem?.1 (hmem a b habove hne).2
    obtain ⟨j, hj, hjk, hdom⟩ := hplace a b k habove hne hk
    obtain ⟨u, hu⟩ := Option.isSome_iff_exists.1 ((h.isSome_iff k).2 (hdom.reaches_of_ne hjk))
    have hkroot : k ≠ root := by
      rintro rfl
      exact hjk (hroot j hdom)
    have hlast : lastIndex? b layout = some k := (lastIndex?_eq_some_iff hnodup).2 hk
    have hdomu := h.nearest k u hu hkroot j hjk hdom
    rcases hnode u ((h.dominates k u hu).reaches (hdom.reaches_of_ne hjk)) with hlt | rfl
    · unfold parent? at hparent
      simp [hlast, hu, h.ne k u hu hkroot, List.getElem?_eq_getElem hlt] at hparent
    · obtain rfl := hroot j hdomu
      unfold parent? at hparent
      simp [hlast, hu, Ne.symm hkroot, hj] at hparent

/-- A climb that finds something finds it at the nearest block above its start, or
the start itself, that the lookup knows. -/
theorem Represents.climb {tree : BlockTree} {above : BlockRef → BlockRef → Prop}
    (h : tree.Represents above) (hrefl : ∀ b, above b b)
    (htrans : ∀ a b c, above a b → above b c → above a c) {α : Type}
    {lookup? : BlockRef → Option α} {limit : Nat} {b : BlockRef} {found : α}
    (hclimb : climb tree.parent? lookup? limit b = .ok found) :
    ∃ w, lookup? w = some found ∧ above w b ∧
      ∀ a, above a b → (lookup? a).isSome → above a w := by
  induction limit generalizing b with
  | zero =>
      unfold Decouple.climb at hclimb
      split at hclimb
      · next hfound =>
          cases hclimb
          exact ⟨b, hfound, hrefl b, fun a ha _ => ha⟩
      · split at hclimb <;> cases hclimb
  | succ limit ih =>
      unfold Decouple.climb at hclimb
      split at hclimb
      · next hfound =>
          cases hclimb
          exact ⟨b, hfound, hrefl b, fun a ha _ => ha⟩
      · next hmissing =>
          split at hclimb
          · cases hclimb
          · next up hup =>
              obtain ⟨-, hupb, hnearest⟩ := h.parent b up hup
              obtain ⟨w, hw, hwup, hall⟩ := ih hclimb
              refine ⟨w, hw, htrans w up b hwup hupb, ?_⟩
              intro a ha hsome
              refine hall a (hnearest a ?_ ha) hsome
              rintro rfl
              rw [hmissing] at hsome
              cases hsome

end BlockTree

namespace Dominance

variable {p : Program} {f : FuncRef} {func : Func} {flow : FlowGraph} {tree : BlockTree}

theorem settled_eq_ok_iff {parents? : Option (Array (Option Nat))}
    {parents : Array (Option Nat)} : settled parents? = .ok parents ↔ parents? = some parents := by
  unfold settled
  cases parents? <;> simp

/-- Walks of the flow graph stay in the layout. -/
theorem lt_of_reaches {layout : List BlockRef} (h : flow.Faithful p layout) {root k : Nat}
    (hroot : root < layout.length) (hreach : Reaches flow.graph.Edge root k) :
    k < layout.length := by
  refine hreach.induction_on (motive := fun k => k < layout.length) hroot ?_
  intro x y _ _ hedge
  exact h.size_eq ▸ h.consistent.mem_succs_lt x y hedge

/-- Places of the flow graph dominate each other as their blocks do. -/
theorem dominates_iff_flowDominates {layout : List BlockRef} (h : flow.Faithful p layout)
    (hnodup : layout.Nodup) {entry a b : BlockRef} (hfirst : layout[0]? = some entry) {j k : Nat}
    (ha : layout[j]? = some a) (hb : layout[k]? = some b) :
    Dominates flow.graph.Edge 0 j k ↔ p.FlowDominates layout a b := by
  have hforth : ∀ (x : Nat) (x' : BlockRef) (y : Nat), layout[x]? = some x' →
      flow.graph.Edge x y → ∃ y', layout[y]? = some y' ∧ p.FlowEdge layout x' y' := by
    intro x x' y hx hedge
    obtain ⟨c, d, hc, hd, hflow⟩ := (h.edge_iff x y).1 hedge
    obtain rfl := Option.some.inj (hx.symm.trans hc)
    exact ⟨d, hd, hflow⟩
  have hback : ∀ (x : Nat) (x' y' : BlockRef), layout[x]? = some x' →
      p.FlowEdge layout x' y' → ∃ y, layout[y]? = some y' ∧ flow.graph.Edge x y := by
    intro x x' y' hx hflow
    obtain ⟨y, hy⟩ := List.mem_iff_getElem?.1 hflow.target_mem
    exact ⟨y, hy, (h.edge_iff x y).2 ⟨x', y', hx, hy, hflow⟩⟩
  have hright : ∀ (x : Nat) (y z : BlockRef), layout[x]? = some y → layout[x]? = some z →
      y = z := fun x y z hy hz => Option.some.inj (hy.symm.trans hz)
  have hleft : ∀ (x y : Nat) (z : BlockRef), layout[x]? = some z → layout[y]? = some z →
      x = y := fun x y z => getElem?_inj_of_nodup hnodup
  have hhead : layout.head? = some entry := List.head?_eq_getElem? ▸ hfirst
  constructor
  · intro hdom
    exact ⟨entry, hhead, hdom.transfer (fun x x' => layout[x]? = some x') hforth hback hright
      hleft hfirst ha hb⟩
  · rintro ⟨entry', hentry', hdom⟩
    obtain rfl := Option.some.inj (hhead.symm.trans hentry')
    exact hdom.transfer (fun x' x => layout[x]? = some x')
      (fun x' x => hback x x') (fun x' x => hforth x x') (fun x' y z => hleft y z x')
      (fun x y z => hright z x y) hfirst ha hb

/-- The dominator tree represents dominance. -/
theorem represents_of_domTree {layout : List BlockRef} (h : flow.Faithful p layout)
    (hnodup : layout.Nodup) (htree : domTree flow = .ok tree) :
    tree.Represents (p.FlowDominates layout) := by
  unfold domTree at htree
  rw [h.blocks_eq] at htree
  by_cases hempty : layout.isEmpty
  · have hnone : ∀ a b, ¬ p.FlowDominates layout a b := by
      rintro a b ⟨entry, hentry, -⟩
      rw [List.isEmpty_iff.1 hempty] at hentry
      cases hentry
    simp only [hempty, if_true] at htree
    obtain rfl := pure_eq_ok_iff.1 htree
    constructor
    · intro b up hparent
      rw [List.isEmpty_iff.1 hempty] at hparent
      simp [BlockTree.parent?, lastIndex?] at hparent
    · intro b _ a hab
      exact absurd hab (hnone a b)
  · simp only [hempty] at htree
    obtain ⟨parents, hparents, htree⟩ := bind_eq_ok_iff.1 htree
    obtain rfl := pure_eq_ok_iff.1 htree
    obtain ⟨entry, rest, hlayout⟩ := List.exists_cons_of_ne_nil (by simpa using hempty)
    have hfirst : layout[0]? = some entry := by rw [hlayout]; rfl
    have hpos : 0 < layout.length := by rw [hlayout]; exact Nat.succ_pos _
    have himm := Digraph.idoms?_immediateDominators h.consistent (h.size_eq ▸ hpos)
      (settled_eq_ok_iff.1 hparents)
    have hmem : ∀ a b, p.FlowDominates layout a b → a ≠ b → a ∈ layout ∧ b ∈ layout := by
      rintro a b ⟨entry', hentry', hdom⟩ hne
      have hin : entry' ∈ layout := List.mem_of_head? hentry'
      obtain ⟨visited, hwalk⟩ := hdom.reaches_of_ne hne
      have hlay := Program.mem_layout_of_walk hin hwalk
      exact ⟨hlay a (hdom.mem_of_walk hwalk), hlay b hwalk.end_mem⟩
    exact BlockTree.represents_of_immediateDominators himm hnodup
      (fun j k a b => dominates_iff_flowDominates h hnodup hfirst) hmem
      fun k hreach => .inl (lt_of_reaches h hpos hreach)

/-- The places of the layout and the extra node that all final places lead to, each
with the block it stands for, if there is one. -/
def StandsFor (layout : List BlockRef) (k : Nat) : Option BlockRef → Prop
  | none => k = layout.length
  | some b => layout[k]? = some b

theorem StandsFor.right_unique {layout : List BlockRef} {k : Nat} :
    ∀ x y : Option BlockRef, StandsFor layout k x → StandsFor layout k y → x = y
  | none, none, _, _ => rfl
  | none, some b, hx, hy => by
      obtain ⟨hlt, -⟩ := List.getElem?_eq_some_iff.1 hy
      exact absurd hx (Nat.ne_of_lt hlt)
  | some a, none, hx, hy => by
      obtain ⟨hlt, -⟩ := List.getElem?_eq_some_iff.1 hx
      exact absurd hy (Nat.ne_of_lt hlt)
  | some a, some b, hx, hy => hx.symm.trans hy

theorem StandsFor.left_unique {layout : List BlockRef} (hnodup : layout.Nodup) {j k : Nat} :
    ∀ x : Option BlockRef, StandsFor layout j x → StandsFor layout k x → j = k
  | none, hj, hk => hj.trans hk.symm
  | some _, hj, hk => getElem?_inj_of_nodup hnodup hj hk

/-- A place of the flow graph is final if its block is. -/
theorem mem_finals_iff_flowFinal {layout : List BlockRef} (h : flow.Faithful p layout) {k : Nat}
    {b : BlockRef} (hk : layout[k]? = some b) :
    k ∈ flow.graph.finals ↔ p.FlowFinal layout b := by
  obtain ⟨hlt, -⟩ := List.getElem?_eq_some_iff.1 hk
  rw [Digraph.mem_finals_iff, h.size_eq]
  constructor
  · rintro ⟨-, hnone⟩
    refine ⟨List.mem_of_getElem? hk, ?_⟩
    intro c hflow
    obtain ⟨l, hl⟩ := List.mem_iff_getElem?.1 hflow.target_mem
    have hedge := (h.edge_iff k l).2 ⟨b, c, hk, hl, hflow⟩
    rw [Digraph.Edge, hnone] at hedge
    exact List.not_mem_nil hedge
  · rintro ⟨-, hnone⟩
    refine ⟨hlt, List.eq_nil_iff_forall_not_mem.2 ?_⟩
    intro l hl
    obtain ⟨a, c, ha, -, hflow⟩ := (h.edge_iff k l).1 hl
    rw [hk] at ha
    obtain rfl := Option.some.inj ha
    exact hnone c hflow

/-- The reversed flow graph with the extra node follows the reversed ways of control,
and the other way round. -/
theorem backEdge_of_edge {layout : List BlockRef} (h : flow.Faithful p layout) {u v : Nat}
    {x : Option BlockRef} (hu : StandsFor layout u x)
    (hedge : flow.graph.withExit.reverse.Edge u v) :
    ∃ y, StandsFor layout v y ∧
      BackEdge (p.FlowEdge layout) (p.FlowFinal layout) x y := by
  rcases (Digraph.withExit_reverse_edge_iff h.consistent).1 hedge with ⟨hsize, hfinal⟩ | hedge
  · have hlt := (Digraph.mem_finals_iff.1 hfinal).1
    rw [h.size_eq] at hsize hlt
    obtain rfl := hu.right_unique x none hsize
    have hv : layout[v]? = some layout[v] := List.getElem?_eq_getElem hlt
    exact ⟨some layout[v], hv, .enter ((mem_finals_iff_flowFinal h hv).1 hfinal)⟩
  · obtain ⟨a, b, ha, hb, hflow⟩ := (h.edge_iff v u).1 hedge
    obtain rfl := hu.right_unique x (some b) hb
    exact ⟨some a, ha, .back hflow⟩

theorem edge_of_backEdge {layout : List BlockRef} (h : flow.Faithful p layout) {u : Nat}
    {x y : Option BlockRef} (hu : StandsFor layout u x)
    (hback : BackEdge (p.FlowEdge layout) (p.FlowFinal layout) x y) :
    ∃ v, StandsFor layout v y ∧ flow.graph.withExit.reverse.Edge u v := by
  cases hback with
  | @enter c hfinal =>
      obtain ⟨v, hv⟩ := List.mem_iff_getElem?.1 hfinal.1
      refine ⟨v, hv, (Digraph.withExit_reverse_edge_iff h.consistent).2 (.inl ⟨?_, ?_⟩)⟩
      · rw [h.size_eq]
        exact hu
      · exact (mem_finals_iff_flowFinal h hv).2 hfinal
  | @back a b hflow =>
      obtain ⟨v, hv⟩ := List.mem_iff_getElem?.1 hflow.source_mem
      exact ⟨v, hv, (Digraph.withExit_reverse_edge_iff h.consistent).2
        (.inr ((h.edge_iff v u).2 ⟨a, b, hv, hu, hflow⟩))⟩

/-- The post-dominator tree represents post-dominance. -/
theorem represents_of_postDomTree {layout : List BlockRef} (h : flow.Faithful p layout)
    (hnodup : layout.Nodup) (htree : postDomTree flow = .ok tree) :
    tree.Represents (p.FlowPostDominates layout) := by
  unfold postDomTree at htree
  rw [h.blocks_eq] at htree
  obtain ⟨parents, hparents, htree⟩ := bind_eq_ok_iff.1 htree
  obtain rfl := pure_eq_ok_iff.1 htree
  have hconsistent := Digraph.withExit_reverse_consistent h.consistent
  have hsize : flow.graph.withExit.reverse.size = layout.length + 1 := by
    have hpreds := h.consistent.size_preds
    have hlength := h.size_eq
    simp only [Digraph.reverse, Digraph.withExit, Digraph.size, Array.size_push] at hpreds hlength ⊢
    omega
  have himm := Digraph.idoms?_immediateDominators hconsistent (by rw [hsize, h.size_eq]; omega)
    (settled_eq_ok_iff.1 hparents)
  rw [h.size_eq] at himm
  have hiff : ∀ (j k : Nat) (a b : BlockRef), layout[j]? = some a → layout[k]? = some b →
      (Dominates flow.graph.withExit.reverse.Edge layout.length j k ↔
        p.FlowPostDominates layout a b) := by
    intro j k a b ha hb
    have hroot : StandsFor layout layout.length none := rfl
    have hj : StandsFor layout j (some a) := ha
    have hk : StandsFor layout k (some b) := hb
    rw [Program.FlowPostDominates, postDominates_iff]
    constructor
    · intro hdom
      exact hdom.transfer (StandsFor layout) (fun x x' y => backEdge_of_edge h)
        (fun x x' y' => edge_of_backEdge h) (fun x y z => StandsFor.right_unique y z)
        (fun x y z => StandsFor.left_unique hnodup z) hroot hj hk
    · intro hdom
      exact hdom.transfer (fun x k => StandsFor layout k x) (fun x x' y => edge_of_backEdge h)
        (fun x x' y' => backEdge_of_edge h) (fun x y z => StandsFor.left_unique hnodup x)
        (fun x y z => StandsFor.right_unique x y) hroot hj hk
  have hmem : ∀ a b, p.FlowPostDominates layout a b → a ≠ b → a ∈ layout ∧ b ∈ layout := by
    intro a b hdom hne
    obtain ⟨c, hfinal, visited, hwalk⟩ := hdom.exists_final_of_ne hne
    have hb : b ∈ layout := by
      cases hwalk with
      | stay => exact hfinal.1
      | step hedge _ => exact hedge.source_mem
    exact ⟨Program.mem_layout_of_walk hb hwalk a (hdom.mem_of_walk hfinal hwalk), hb⟩
  refine BlockTree.represents_of_immediateDominators himm hnodup hiff hmem ?_
  intro k hreach
  refine hreach.induction_on (motive := fun k => k < layout.length ∨ k = layout.length)
    (.inr rfl) ?_
  intro x y _ _ hedge
  have hlt := hconsistent.mem_succs_lt x y hedge
  omega

/-- The two trees of a function without repeated blocks. -/
theorem represents_of_ofFunc {dominance : Dominance} (h : ofFunc p f = .ok dominance)
    (hfunc : p.func? f = some func) (hnodup : func.blocks.Nodup) :
    dominance.dom.Represents (p.FlowDominates func.blocks) ∧
      dominance.postDom.Represents (p.FlowPostDominates func.blocks) := by
  unfold ofFunc at h
  obtain ⟨flow, hflow, h⟩ := bind_eq_ok_iff.1 h
  obtain ⟨dom, hdom, h⟩ := bind_eq_ok_iff.1 h
  obtain ⟨postDom, hpostDom, h⟩ := bind_eq_ok_iff.1 h
  obtain rfl := pure_eq_ok_iff.1 h
  have hfaithful := FlowGraph.faithful_of_ofFunc hflow hfunc hnodup
  exact ⟨represents_of_domTree hfaithful hnodup hdom,
    represents_of_postDomTree hfaithful hnodup hpostDom⟩

end Dominance

end Decouple
