import Decouple.Proofs.FlowTrees
import Decouple.Proofs.Settling
import Mathlib.Data.List.Perm.Subperm

/-!
# Trees and paths agree

Every function whose flow graph can be read has its two trees
(`Dominance.exists_ofFunc_iff`), and where no block is listed twice they say what the paths
of the function say: `dominators_agree_with_paths` for ways from the entry,
`postDominators_agree_with_paths` for ways to the final blocks.

What both share is said once, of a tree that represents a partial order between blocks. The
blocks on a way up are different from each other, so a way up has no more steps than there are
blocks (`BlockTree.Represents.exists_top`), and the blocks on it are those above its start
(`BlockTree.Represents.mem_ancestors_iff`).
-/

namespace Decouple

open Outcome

namespace BlockTree

variable {tree : BlockTree} {above : BlockRef → BlockRef → Prop} {a b up : BlockRef} {steps : Nat}

theorem mem_blocks_of_parent? (h : tree.parent? b = some up) :
    b ∈ tree.blocks ∧ up ∈ tree.blocks := by
  obtain ⟨k, hk, h⟩ := Option.bind_eq_some_iff.1 h
  obtain ⟨j, -, h⟩ := Option.bind_eq_some_iff.1 h
  split at h
  · cases h
  · exact ⟨List.mem_of_getElem? (getElem?_of_lastIndex? hk), List.mem_of_getElem? h⟩

theorem ancestors_of_none (h : tree.parent? b = none) (steps : Nat) :
    tree.ancestors steps b = [b] := by
  cases steps with
  | zero => rfl
  | succ steps => simp only [ancestors, h]

theorem ancestors_of_some (h : tree.parent? b = some up) (steps : Nat) :
    tree.ancestors (steps + 1) b = b :: tree.ancestors steps up := by
  simp only [ancestors, h]

theorem start_mem_ancestors (steps : Nat) (b : BlockRef) : b ∈ tree.ancestors steps b := by
  cases hb : tree.parent? b with
  | none => simp [ancestors_of_none hb]
  | some up =>
      cases steps with
      | zero => exact List.mem_singleton_self b
      | succ steps => simp [ancestors_of_some hb]

theorem mem_blocks_of_mem_ancestors (hb : b ∈ tree.blocks) :
    ∀ a ∈ tree.ancestors steps b, a ∈ tree.blocks := by
  induction steps generalizing b with
  | zero =>
      intro a ha
      exact List.mem_singleton.1 ha ▸ hb
  | succ steps ih =>
      intro a ha
      cases hup : tree.parent? b with
      | none =>
          rw [ancestors_of_none hup] at ha
          exact List.mem_singleton.1 ha ▸ hb
      | some up =>
          rw [ancestors_of_some hup] at ha
          rcases List.mem_cons.1 ha with rfl | ha
          · exact hb
          · exact ih (mem_blocks_of_parent? hup).2 a ha

/-- A way up that is not gone to its end is as long as the number of steps allows. -/
theorem length_ancestors_or_exists_top (steps : Nat) (b : BlockRef) :
    (tree.ancestors steps b).length = steps + 1 ∨
      ∃ top, (tree.ancestors steps b).getLast? = some top ∧ tree.parent? top = none := by
  induction steps generalizing b with
  | zero => exact .inl rfl
  | succ steps ih =>
      cases hup : tree.parent? b with
      | none => exact .inr ⟨b, by rw [ancestors_of_none hup]; rfl, hup⟩
      | some up =>
          rw [ancestors_of_some hup]
          rcases ih up with hlength | ⟨top, htop, hnone⟩
          · exact .inl (by rw [List.length_cons, hlength])
          · exact .inr ⟨top, by rw [List.getLast?_cons, htop]; rfl, hnone⟩

/-- A climb along a tree finds something if a block on the way up is known. -/
theorem exists_climb_of_mem_ancestors {α : Type} {lookup? : BlockRef → Option α}
    (ha : a ∈ tree.ancestors steps b) (hsome : (lookup? a).isSome) :
    ∃ found, climb tree.parent? lookup? steps b = .ok found := by
  induction steps generalizing b with
  | zero =>
      obtain rfl := List.mem_singleton.1 ha
      obtain ⟨found, hfound⟩ := Option.isSome_iff_exists.1 hsome
      exact ⟨found, by simp only [climb, hfound]⟩
  | succ steps ih =>
      unfold climb
      cases hb : lookup? b with
      | some found => exact ⟨found, rfl⟩
      | none =>
          have hne : a ≠ b := by
            rintro rfl
            rw [hb] at hsome
            cases hsome
          cases hup : tree.parent? b with
          | none =>
              rw [ancestors_of_none hup] at ha
              exact absurd (List.mem_singleton.1 ha) hne
          | some up =>
              rw [ancestors_of_some hup] at ha
              exact ih ((List.mem_cons.1 ha).resolve_left hne)

namespace Represents

theorem parent?_eq_none_iff (h : tree.Represents above) :
    tree.parent? b = none ↔ ∀ a, above a b → a = b := by
  refine ⟨h.orphan b, fun hall => ?_⟩
  cases hup : tree.parent? b with
  | none => rfl
  | some up =>
      obtain ⟨hne, habove, -⟩ := h.parent b up hup
      exact absurd (hall up habove) hne

variable (hrefl : ∀ b, above b b) (htrans : ∀ a b c, above a b → above b c → above a c)
  (hantisymm : ∀ a b, above a b → above b a → a = b)

include hantisymm in
theorem parent?_eq_some_iff (h : tree.Represents above) :
    tree.parent? b = some up ↔
      (up ≠ b ∧ above up b) ∧ ∀ a, a ≠ b → above a b → above a up := by
  constructor
  · intro hup
    obtain ⟨hne, habove, hnearest⟩ := h.parent b up hup
    exact ⟨⟨hne, habove⟩, hnearest⟩
  · rintro ⟨⟨hne, habove⟩, hnearest⟩
    cases hup : tree.parent? b with
    | none => exact absurd (h.orphan b hup up habove) hne
    | some up' =>
        obtain ⟨hne', habove', hnearest'⟩ := h.parent b up' hup
        rw [hantisymm up' up (hnearest up' hne' habove') (hnearest' up hne habove)]

include hrefl htrans

theorem above_of_mem_ancestors (h : tree.Represents above) (ha : a ∈ tree.ancestors steps b) :
    above a b := by
  induction steps generalizing b with
  | zero => exact List.mem_singleton.1 ha ▸ hrefl b
  | succ steps ih =>
      cases hup : tree.parent? b with
      | none =>
          rw [ancestors_of_none hup] at ha
          exact List.mem_singleton.1 ha ▸ hrefl b
      | some up =>
          rw [ancestors_of_some hup] at ha
          rcases List.mem_cons.1 ha with rfl | ha
          · exact hrefl a
          · exact htrans a up b (ih ha) (h.parent b up hup).2.1

include hantisymm

/-- No block comes twice on a way up. -/
theorem nodup_ancestors (h : tree.Represents above) : (tree.ancestors steps b).Nodup := by
  induction steps generalizing b with
  | zero => exact List.nodup_singleton b
  | succ steps ih =>
      cases hup : tree.parent? b with
      | none =>
          rw [ancestors_of_none hup]
          exact List.nodup_singleton b
      | some up =>
          rw [ancestors_of_some hup]
          refine List.nodup_cons.2 ⟨fun hmem => ?_, ih⟩
          obtain ⟨hne, habove, -⟩ := h.parent b up hup
          exact hne (hantisymm up b habove (h.above_of_mem_ancestors hrefl htrans hmem))

/-- With as many steps as there are blocks every way up is gone to its end. -/
theorem exists_top (h : tree.Represents above) (hsteps : tree.blocks.length ≤ steps) :
    ∃ top, (tree.ancestors steps b).getLast? = some top ∧ tree.parent? top = none := by
  by_cases hb : b ∈ tree.blocks
  · refine (length_ancestors_or_exists_top steps b).resolve_left fun hlength => ?_
    have hle : (tree.ancestors steps b).length ≤ tree.blocks.length :=
      (List.subperm_of_subset (h.nodup_ancestors hrefl htrans hantisymm)
        (mem_blocks_of_mem_ancestors hb)).length_le
    omega
  · have hnone : tree.parent? b = none := by
      cases hup : tree.parent? b with
      | none => rfl
      | some up => exact absurd (mem_blocks_of_parent? hup).1 hb
    exact ⟨b, by rw [ancestors_of_none hnone]; rfl, hnone⟩

/-- The blocks on a way up that is gone to its end are those above its start. -/
theorem mem_ancestors_iff (h : tree.Represents above) (hsteps : tree.blocks.length ≤ steps) :
    a ∈ tree.ancestors steps b ↔ above a b := by
  refine ⟨h.above_of_mem_ancestors hrefl htrans, fun ha => ?_⟩
  obtain ⟨top, htop, hnone⟩ := h.exists_top hrefl htrans hantisymm hsteps (b := b)
  clear hsteps
  induction steps generalizing b with
  | zero =>
      obtain rfl : b = top := Option.some.inj htop
      exact List.mem_singleton.2 (h.orphan b hnone a ha)
  | succ steps ih =>
      cases hup : tree.parent? b with
      | none =>
          rw [h.orphan b hup a ha]
          exact start_mem_ancestors _ b
      | some up =>
          rw [ancestors_of_some hup] at htop ⊢
          by_cases hab : a = b
          · exact List.mem_cons.2 (.inl hab)
          · refine List.mem_cons_of_mem _ (ih ((h.parent b up hup).2.2 a hab ha) ?_)
            have hstart : up ∈ tree.ancestors steps up := start_mem_ancestors steps up
            obtain ⟨last, hlast⟩ := Option.isSome_iff_exists.1
              (List.getLast?_isSome.2 (List.ne_nil_of_mem hstart))
            rw [List.getLast?_cons, hlast] at htop
            rw [hlast]
            exact htop

/-- A climb with as many steps as there are blocks finds something if a block above its start
is known. -/
theorem exists_climb (h : tree.Represents above) (hsteps : tree.blocks.length ≤ steps)
    (ha : above a b) {α : Type} {lookup? : BlockRef → Option α} (hsome : (lookup? a).isSome) :
    ∃ found, Decouple.climb tree.parent? lookup? steps b = .ok found :=
  exists_climb_of_mem_ancestors
    ((h.mem_ancestors_iff hrefl htrans hantisymm hsteps).2 ha) hsome

theorem isAbove_iff (h : tree.Represents above) : tree.isAbove a b = true ↔ above a b := by
  unfold isAbove chain
  rw [decide_eq_true_iff]
  exact h.mem_ancestors_iff hrefl htrans hantisymm (Nat.le_refl _)

end Represents

end BlockTree

namespace Program

variable {p : Program} {layout : List BlockRef} {a b c : BlockRef}

namespace FlowDominates

theorem refl (hb : b ∈ layout) (a : BlockRef) : p.FlowDominates layout a a := by
  obtain ⟨entry, hentry⟩ := Option.isSome_iff_exists.1
    (List.isSome_head?.2 (List.ne_nil_of_mem hb))
  exact ⟨entry, hentry, .refl _ _ _⟩

theorem trans (h : p.FlowDominates layout a b) (h' : p.FlowDominates layout b c) :
    p.FlowDominates layout a c := by
  obtain ⟨entry, hentry, hab⟩ := h
  obtain ⟨entry', hentry', hbc⟩ := h'
  obtain rfl := Option.some.inj (hentry.symm.trans hentry')
  exact ⟨entry, hentry, hab.trans hbc⟩

theorem antisymm (h : p.FlowDominates layout a b) (h' : p.FlowDominates layout b a) : a = b := by
  obtain ⟨entry, hentry, hab⟩ := h
  obtain ⟨entry', hentry', hba⟩ := h'
  obtain rfl := Option.some.inj (hentry.symm.trans hentry')
  exact hab.antisymm hba

theorem reachable_of_ne (h : p.FlowDominates layout a b) (hne : a ≠ b) :
    p.FlowReachable layout b := by
  obtain ⟨entry, hentry, hab⟩ := h
  exact ⟨entry, hentry, hab.reaches_of_ne hne⟩

/-- Only the entry, and what is out of reach, has no other block that dominates it. -/
theorem forall_eq_iff :
    (∀ a, p.FlowDominates layout a b → a = b) ↔
      layout.head? = some b ∨ ¬ p.FlowReachable layout b := by
  constructor
  · intro hall
    by_contra hnot
    push Not at hnot
    obtain ⟨hhead, entry, hentry, hreach⟩ := hnot
    have hdom : p.FlowDominates layout entry b :=
      ⟨entry, hentry, .of_forall_walk hreach fun _ hwalk => hwalk.start_mem⟩
    exact hhead (hall entry hdom ▸ hentry)
  · rintro (hhead | hreach) a hab
    · obtain ⟨entry, hentry, hdom⟩ := hab
      obtain rfl := Option.some.inj (hhead.symm.trans hentry)
      exact List.mem_singleton.1 (hdom.mem_of_walk (.stay b))
    · by_contra hne
      exact hreach (hab.reachable_of_ne hne)

end FlowDominates

end Program

namespace FlowGraph

variable {p : Program} {f : FuncRef} {func : Func}

/-- The flow graph of a function can be read if the branches of all its blocks can. -/
theorem exists_ofFunc_iff (hfunc : p.func? f = some func) :
    (∃ flow, ofFunc p f = .ok flow) ↔
      ∀ b ∈ func.blocks, ∃ targets, p.successors b = .ok targets := by
  constructor
  · rintro ⟨flow, hflow⟩ b hb
    obtain ⟨succs, -, hall⟩ := ofFunc_eq_ok hflow hfunc
    obtain ⟨k, hk, rfl⟩ := List.getElem_of_mem hb
    obtain ⟨targets, htargets, -⟩ := hall.get hk (hall.length_eq ▸ hk)
    exact ⟨targets, htargets⟩
  · intro hall
    have hread : ∀ blocks : List BlockRef, (∀ b ∈ blocks, b ∈ func.blocks) → ∃ succs,
        blocks.mapM (fun b => return targetPositions func.blocks (← p.successors b)) =
          (.ok succs : Except Failure (List (List Nat))) := by
      intro blocks hblocks
      induction blocks with
      | nil => exact ⟨[], rfl⟩
      | cons b blocks ih =>
          obtain ⟨targets, htargets⟩ := hall b (hblocks b (List.mem_cons_self ..))
          obtain ⟨succs, hsuccs⟩ := ih fun c hc => hblocks c (List.mem_cons_of_mem _ hc)
          refine ⟨targetPositions func.blocks targets :: succs, ?_⟩
          rw [mapM_eq_ok_iff] at hsuccs ⊢
          exact .cons (bind_eq_ok_iff.2 ⟨targets, htargets, rfl⟩) hsuccs
    obtain ⟨succs, hsuccs⟩ := hread func.blocks fun b hb => hb
    exact ⟨_, bind_eq_ok_iff.2 ⟨func, Program.func_eq_ok_iff.2 hfunc,
      bind_eq_ok_iff.2 ⟨succs, hsuccs, rfl⟩⟩⟩

end FlowGraph

namespace Dominance

variable {p : Program} {f : FuncRef} {func : Func} {flow : FlowGraph}

theorem exists_domTree (hsize : flow.graph.size = flow.blocks.length)
    (hgraph : flow.graph.Consistent) : ∃ tree, domTree flow = .ok tree := by
  unfold domTree
  by_cases hempty : flow.blocks.isEmpty
  · simp only [hempty, if_true]
    exact ⟨_, rfl⟩
  · simp only [hempty]
    have hpos : 0 < flow.graph.size := by
      rw [hsize]
      exact List.length_pos_iff.2 (by simpa using hempty)
    obtain ⟨parents, hparents⟩ := Digraph.exists_idoms? hgraph hpos
    exact ⟨_, bind_eq_ok_iff.2 ⟨parents, settled_eq_ok_iff.2 hparents, rfl⟩⟩

theorem exists_postDomTree (hgraph : flow.graph.Consistent) :
    ∃ tree, postDomTree flow = .ok tree := by
  have hsize : flow.graph.size < flow.graph.withExit.reverse.size := by
    have hpreds := hgraph.size_preds
    simp only [Digraph.reverse, Digraph.withExit, Digraph.size, Array.size_push] at hpreds ⊢
    omega
  obtain ⟨parents, hparents⟩ :=
    Digraph.exists_idoms? (Digraph.withExit_reverse_consistent hgraph) hsize
  exact ⟨_, bind_eq_ok_iff.2 ⟨parents, settled_eq_ok_iff.2 hparents, rfl⟩⟩

/-- The trees can be found for every flow graph, also for one of a layout that repeats blocks. -/
theorem exists_of_flow (hflow : FlowGraph.ofFunc p f = .ok flow)
    (hsize : flow.graph.size = flow.blocks.length) (hgraph : flow.graph.Consistent) :
    ∃ dominance, ofFunc p f = .ok dominance := by
  obtain ⟨dom, hdom⟩ := exists_domTree hsize hgraph
  obtain ⟨postDom, hpostDom⟩ := exists_postDomTree hgraph
  exact ⟨⟨dom, postDom⟩, bind_eq_ok_iff.2 ⟨flow, hflow, bind_eq_ok_iff.2 ⟨dom, hdom,
    bind_eq_ok_iff.2 ⟨postDom, hpostDom, rfl⟩⟩⟩⟩

/-- The trees of a function can always be found, unless its flow graph cannot be read. -/
theorem exists_ofFunc_iff (hfunc : p.func? f = some func) (hnodup : func.blocks.Nodup) :
    (∃ dominance, ofFunc p f = .ok dominance) ↔
      ∀ b ∈ func.blocks, ∃ targets, p.successors b = .ok targets := by
  rw [← FlowGraph.exists_ofFunc_iff hfunc]
  constructor
  · rintro ⟨dominance, h⟩
    obtain ⟨flow, hflow, -⟩ := bind_eq_ok_iff.1 h
    exact ⟨flow, hflow⟩
  · rintro ⟨flow, hflow⟩
    have hfaithful := FlowGraph.faithful_of_ofFunc hflow hfunc hnodup
    exact exists_of_flow hflow (by rw [hfaithful.size_eq, hfaithful.blocks_eq]) hfaithful.consistent

end Dominance

namespace Tangled

/-- A function with a circle of two blocks, 1 and 2, that the entry leads into at both. Block 2
goes on to the end 3. Out of reach are block 4, which leads to the end, and block 5, which does
not end. -/
def program : Program where
  funcs := #[
    { name := "tangle"
      params := [.i1]
      ret := .void
      blocks := [⟨0⟩, ⟨1⟩, ⟨2⟩, ⟨3⟩, ⟨4⟩, ⟨5⟩]
      external := false }]
  blocks := #[
    { name := "entry", func := ⟨0⟩, instrs := [⟨0⟩] },
    { name := "left", func := ⟨0⟩, instrs := [⟨1⟩] },
    { name := "right", func := ⟨0⟩, instrs := [⟨2⟩] },
    { name := "end", func := ⟨0⟩, instrs := [⟨3⟩] },
    { name := "aside", func := ⟨0⟩, instrs := [⟨4⟩] },
    { name := "spin", func := ⟨0⟩, instrs := [⟨5⟩] }]
  instrs := #[
    ⟨some ⟨0⟩, .condBr (.param ⟨0⟩ 0) ⟨1⟩ ⟨2⟩, .void, none⟩,
    ⟨some ⟨1⟩, .br ⟨2⟩, .void, none⟩,
    ⟨some ⟨2⟩, .condBr (.param ⟨0⟩ 0) ⟨1⟩ ⟨3⟩, .void, none⟩,
    ⟨some ⟨3⟩, .ret none, .void, none⟩,
    ⟨some ⟨4⟩, .br ⟨3⟩, .void, none⟩,
    ⟨some ⟨5⟩, .br ⟨5⟩, .void, none⟩]
  structs := #[]

def func : Func := program.funcs[0]

theorem exists_successors : ∀ b ∈ func.blocks, ∃ targets, program.successors b = .ok targets := by
  have hall : ∀ b ∈ func.blocks, (program.successors b).isOk := by decide
  intro b hb
  have hok := hall b hb
  cases hsuccs : program.successors b with
  | error failure =>
      rw [hsuccs] at hok
      cases hok
  | ok targets => exact ⟨targets, rfl⟩

end Tangled

namespace Dominance

/-- The dominator tree of a function without repeated blocks is there whenever its branches can
be read, and agrees with the paths from the entry. Every way up ends; a block is found on the
way up from another one if it lies on every path there; the immediate dominator of a block is
the nearest other block that dominates it, and only the entry and what is out of reach have
none. -/
theorem dominators_agree_with_paths (hfunc : p.func? f = some func)
    (hnodup : func.blocks.Nodup) :
    ((∃ dominance, ofFunc p f = .ok dominance) ↔
      ∀ b ∈ func.blocks, ∃ targets, p.successors b = .ok targets) ∧
    ∀ dominance, ofFunc p f = .ok dominance → ∀ b ∈ func.blocks,
      (∃ top, (dominance.dom.chain b).getLast? = some top ∧ dominance.idom? top = none) ∧
      (∀ a ∈ func.blocks, dominance.dominates a b = true ↔ p.FlowDominates func.blocks a b) ∧
      (∀ d, dominance.idom? b = some d ↔
        p.FlowReachable func.blocks b ∧ (d ≠ b ∧ p.FlowDominates func.blocks d b) ∧
          ∀ a, a ≠ b → p.FlowDominates func.blocks a b → p.FlowDominates func.blocks a d) ∧
      (dominance.idom? b = none ↔
        func.blocks.head? = some b ∨ ¬ p.FlowReachable func.blocks b) := by
  refine ⟨exists_ofFunc_iff hfunc hnodup, ?_⟩
  intro dominance hdominance b hb
  obtain ⟨hdom, -⟩ := represents_of_ofFunc hdominance hfunc hnodup
  have hrefl := Program.FlowDominates.refl (p := p) hb
  have htrans : ∀ a b c, p.FlowDominates func.blocks a b → p.FlowDominates func.blocks b c →
      p.FlowDominates func.blocks a c := fun _ _ _ => Program.FlowDominates.trans
  have hantisymm : ∀ a b, p.FlowDominates func.blocks a b → p.FlowDominates func.blocks b a →
      a = b := fun _ _ => Program.FlowDominates.antisymm
  refine ⟨hdom.exists_top hrefl htrans hantisymm (Nat.le_refl _),
    fun a _ => hdom.isAbove_iff hrefl htrans hantisymm, ?_, ?_⟩
  · intro d
    refine (hdom.parent?_eq_some_iff hantisymm).trans ⟨fun h => ⟨?_, h⟩, And.right⟩
    exact h.1.2.reachable_of_ne h.1.1
  · exact hdom.parent?_eq_none_iff.trans Program.FlowDominates.forall_eq_iff

/-- What the tree of the tangled function has entries for, and what its paths are therefore. -/
theorem dominators_agree_with_paths_tangled :
    ∃ dominance, ofFunc Tangled.program ⟨0⟩ = .ok dominance ∧
      dominance.idom? ⟨2⟩ = some ⟨0⟩ ∧ dominance.idom? ⟨4⟩ = none ∧
      Tangled.program.FlowDominates Tangled.func.blocks ⟨2⟩ ⟨3⟩ ∧
      ¬ Tangled.program.FlowDominates Tangled.func.blocks ⟨1⟩ ⟨2⟩ ∧
      ¬ Tangled.program.FlowReachable Tangled.func.blocks ⟨4⟩ := by
  have hfunc : Tangled.program.func? ⟨0⟩ = some Tangled.func := rfl
  obtain ⟨hexists, hagree⟩ := dominators_agree_with_paths hfunc (by decide)
  obtain ⟨dominance, hdominance⟩ := hexists.2 Tangled.exists_successors
  have hvalues : (ofFunc Tangled.program ⟨0⟩).toOption.all fun dominance =>
      dominance.idom? ⟨2⟩ = some ⟨0⟩ ∧ dominance.idom? ⟨4⟩ = none ∧
        dominance.dominates ⟨2⟩ ⟨3⟩ ∧ dominance.dominates ⟨1⟩ ⟨2⟩ = false := by decide +kernel
  rw [hdominance] at hvalues
  obtain ⟨hright, haside, hend, hleft⟩ := of_decide_eq_true hvalues
  refine ⟨dominance, hdominance, hright, haside, ?_, ?_, ?_⟩
  · exact ((hagree dominance hdominance ⟨3⟩ (by decide)).2.1 ⟨2⟩ (by decide)).1 hend
  · rw [← (hagree dominance hdominance ⟨2⟩ (by decide)).2.1 ⟨1⟩ (by decide), hleft]
    exact Bool.false_ne_true
  · exact ((hagree dominance hdominance ⟨4⟩ (by decide)).2.2.2.1 haside).resolve_left (by decide)

/-- The post-dominator tree of a function without repeated blocks is there whenever its branches
can be read, and agrees with the paths to the final blocks. Every way up ends; a block is found
on the way up from another one if it lies on every path from there to a final block; the
immediate post-dominator of a block is the nearest other block that post-dominates it, and only
blocks without one, and those that lead to no final block, have none. -/
theorem postDominators_agree_with_paths (hfunc : p.func? f = some func)
    (hnodup : func.blocks.Nodup) :
    ((∃ dominance, ofFunc p f = .ok dominance) ↔
      ∀ b ∈ func.blocks, ∃ targets, p.successors b = .ok targets) ∧
    ∀ dominance, ofFunc p f = .ok dominance → ∀ b ∈ func.blocks,
      (∃ top, (dominance.postDom.chain b).getLast? = some top ∧ dominance.ipdom? top = none) ∧
      (∀ a ∈ func.blocks, dominance.postDominates a b = true ↔
        p.FlowPostDominates func.blocks a b) ∧
      (∀ d, dominance.ipdom? b = some d ↔
        (∃ c, p.FlowFinal func.blocks c ∧ Reaches (p.FlowEdge func.blocks) b c) ∧
          (d ∈ func.blocks ∧ d ≠ b ∧ p.FlowPostDominates func.blocks d b) ∧
          ∀ a, a ≠ b → p.FlowPostDominates func.blocks a b →
            p.FlowPostDominates func.blocks a d) ∧
      (dominance.ipdom? b = none ↔
        (¬ ∃ c, p.FlowFinal func.blocks c ∧ Reaches (p.FlowEdge func.blocks) b c) ∨
          ∀ a ∈ func.blocks, p.FlowPostDominates func.blocks a b → a = b) := by
  refine ⟨exists_ofFunc_iff hfunc hnodup, ?_⟩
  intro dominance hdominance b hb
  obtain ⟨-, hpost⟩ := represents_of_ofFunc hdominance hfunc hnodup
  have hrefl : ∀ b, p.FlowPostDominates func.blocks b b := fun _ => .refl _ _ _
  have htrans : ∀ a b c, p.FlowPostDominates func.blocks a b →
      p.FlowPostDominates func.blocks b c → p.FlowPostDominates func.blocks a c :=
    fun _ _ _ => PostDominates.trans
  have hantisymm : ∀ a b, p.FlowPostDominates func.blocks a b →
      p.FlowPostDominates func.blocks b a → a = b := fun _ _ => PostDominates.antisymm
  -- a block that post-dominates another one lies on a path from there
  have hmem : ∀ a, a ≠ b → p.FlowPostDominates func.blocks a b → a ∈ func.blocks := by
    intro a hne hab
    obtain ⟨c, hfinal, visited, hwalk⟩ := hab.exists_final_of_ne hne
    exact Program.mem_layout_of_walk hb hwalk a (hab.mem_of_walk hfinal hwalk)
  refine ⟨hpost.exists_top hrefl htrans hantisymm (Nat.le_refl _),
    fun a _ => hpost.isAbove_iff hrefl htrans hantisymm, ?_, ?_⟩
  · intro d
    refine (hpost.parent?_eq_some_iff hantisymm).trans ⟨?_, ?_⟩
    · rintro ⟨⟨hne, hdb⟩, hnearest⟩
      exact ⟨hdb.exists_final_of_ne hne, ⟨hmem d hne hdb, hne, hdb⟩, hnearest⟩
    · rintro ⟨-, ⟨-, hne, hdb⟩, hnearest⟩
      exact ⟨⟨hne, hdb⟩, hnearest⟩
  · refine hpost.parent?_eq_none_iff.trans ⟨fun hall => .inr fun a _ => hall a, ?_⟩
    rintro (hnone | hall) a hab
    · by_contra hne
      exact hnone (hab.exists_final_of_ne hne)
    · by_contra hne
      exact hne (hall a (hmem a hne hab) hab)

/-- The same for the post-dominators: block 4 ends although it is out of reach, and block 5 does
not end. -/
theorem postDominators_agree_with_paths_tangled :
    ∃ dominance, ofFunc Tangled.program ⟨0⟩ = .ok dominance ∧
      dominance.ipdom? ⟨0⟩ = some ⟨2⟩ ∧ dominance.ipdom? ⟨4⟩ = some ⟨3⟩ ∧
      Tangled.program.FlowPostDominates Tangled.func.blocks ⟨3⟩ ⟨1⟩ ∧
      ¬ Tangled.program.FlowPostDominates Tangled.func.blocks ⟨3⟩ ⟨5⟩ ∧
      ∃ c, Tangled.program.FlowFinal Tangled.func.blocks c ∧
        Reaches (Tangled.program.FlowEdge Tangled.func.blocks) ⟨4⟩ c := by
  have hfunc : Tangled.program.func? ⟨0⟩ = some Tangled.func := rfl
  obtain ⟨hexists, hagree⟩ := postDominators_agree_with_paths hfunc (by decide)
  obtain ⟨dominance, hdominance⟩ := hexists.2 Tangled.exists_successors
  have hvalues : (ofFunc Tangled.program ⟨0⟩).toOption.all fun dominance =>
      dominance.ipdom? ⟨0⟩ = some ⟨2⟩ ∧ dominance.ipdom? ⟨4⟩ = some ⟨3⟩ ∧
        dominance.postDominates ⟨3⟩ ⟨1⟩ ∧ dominance.postDominates ⟨3⟩ ⟨5⟩ = false := by
    decide +kernel
  rw [hdominance] at hvalues
  obtain ⟨hentry, haside, hend, hspin⟩ := of_decide_eq_true hvalues
  refine ⟨dominance, hdominance, hentry, haside, ?_, ?_, ?_⟩
  · exact ((hagree dominance hdominance ⟨1⟩ (by decide)).2.1 ⟨3⟩ (by decide)).1 hend
  · rw [← (hagree dominance hdominance ⟨5⟩ (by decide)).2.1 ⟨3⟩ (by decide), hspin]
    exact Bool.false_ne_true
  · exact (((hagree dominance hdominance ⟨4⟩ (by decide)).2.2.1 ⟨3⟩).1 haside).1

end Dominance

end Decouple
