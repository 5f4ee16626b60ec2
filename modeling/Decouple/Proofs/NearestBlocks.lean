import Decouple.Proofs.Convergence

/-!
# Climbs find the nearest block with a counterpart

A climb goes up a tree of blocks, and its steps are limited. For the trees of a function both can
be forgotten: what a climb finds is said by the paths of the function alone
(`Worker.climbs_find_nearest`). Of the blocks with a counterpart that lie on every path, there is
one that all others lie behind (`Nearest`), and its counterpart is found; where no such block has a
counterpart, the last block on the way up is reported.

The way up from a block lists all that is above it, the nearest first (`Ascends`), and a limit of
as many steps as there are blocks never cuts it short (`BlockTree.Represents.ancestors_eq_chain`).
-/

namespace Decouple

variable {above : BlockRef → BlockRef → Prop} {a b w w' : BlockRef}

/-- Of the blocks above `b` that are known, `w` is the nearest: the others are above `w` as well. -/
structure Nearest (above : BlockRef → BlockRef → Prop) (known : BlockRef → Prop)
    (b w : BlockRef) : Prop where
  isKnown : known w
  isAbove : above w b
  below : ∀ a, known a → above a b → above a w

theorem Nearest.unique {known : BlockRef → Prop} (hantisymm : ∀ a b, above a b → above b a → a = b)
    (h : Nearest above known b w) (h' : Nearest above known b w') : w = w' :=
  hantisymm w w' (h'.below w h.isKnown h.isAbove) (h.below w' h'.isKnown h'.isAbove)

/-- The list is the way up from `b`: it starts there, and has all that is above `b` in order. -/
structure Ascends (above : BlockRef → BlockRef → Prop) (b : BlockRef) (chain : List BlockRef) :
    Prop where
  head?_eq : chain.head? = some b
  mem_iff : ∀ a, a ∈ chain ↔ above a b
  ordered : chain.Pairwise fun low high => high ≠ low ∧ above high low

namespace BlockTree

variable {tree : BlockTree} {steps : Nat}

theorem head?_ancestors (steps : Nat) (b : BlockRef) :
    (tree.ancestors steps b).head? = some b := by
  cases hup : tree.parent? b with
  | none => rw [ancestors_of_none hup, List.head?_singleton]
  | some up =>
      cases steps with
      | zero => rfl
      | succ steps => rw [ancestors_of_some hup, List.head?_cons]

theorem getLast?_ancestors_of_some {up : BlockRef} (h : tree.parent? b = some up) (steps : Nat) :
    (tree.ancestors (steps + 1) b).getLast? = (tree.ancestors steps up).getLast? := by
  obtain ⟨last, hlast⟩ := Option.isSome_iff_exists.1
    (List.getLast?_isSome.2 (List.ne_nil_of_mem (start_mem_ancestors steps up)))
  rw [ancestors_of_some h, List.getLast?_cons, hlast]
  rfl

/-- More steps lead no further than to a block without a parent. -/
theorem ancestors_add {top : BlockRef} (htop : (tree.ancestors steps b).getLast? = some top)
    (hnone : tree.parent? top = none) (more : Nat) :
    tree.ancestors (steps + more) b = tree.ancestors steps b := by
  induction steps generalizing b with
  | zero =>
      obtain rfl : b = top := Option.some.inj htop
      rw [ancestors_of_none hnone, ancestors_of_none hnone]
  | succ steps ih =>
      cases hup : tree.parent? b with
      | none => rw [ancestors_of_none hup, ancestors_of_none hup]
      | some up =>
          rw [getLast?_ancestors_of_some hup] at htop
          rw [Nat.add_right_comm, ancestors_of_some hup, ancestors_of_some hup, ih htop]

/-- A climb that finds nothing on a way up to its end reports the block at that end. -/
theorem eq_top_of_climb_eq_error {α : Type} {lookup? : BlockRef → Option α} {top last : BlockRef}
    (htop : (tree.ancestors steps b).getLast? = some top) (hnone : tree.parent? top = none)
    (hclimb : climb tree.parent? lookup? steps b = .error last) : last = top := by
  fun_induction climb tree.parent? lookup? steps b with
  | case1 => cases hclimb
  | case2 steps b _ hup =>
      rw [ancestors_of_none hup, List.getLast?_singleton] at htop
      exact (Except.error.inj hclimb).symm.trans (Option.some.inj htop)
  | case3 b _ up hup =>
      obtain rfl : b = top := Option.some.inj htop
      cases hup.symm.trans hnone
  | case4 b _ up hup steps ih =>
      rw [getLast?_ancestors_of_some hup] at htop
      exact ih htop hclimb

namespace Represents

variable (hrefl : ∀ b, above b b) (htrans : ∀ a b c, above a b → above b c → above a c)
  (hantisymm : ∀ a b, above a b → above b a → a = b)

include hrefl htrans hantisymm

/-- A limit of as many steps as there are blocks, or more, does not cut a way up short. -/
theorem ancestors_eq_chain (h : tree.Represents above) (hsteps : tree.blocks.length ≤ steps) :
    tree.ancestors steps b = tree.chain b := by
  obtain ⟨top, htop, hnone⟩ := h.exists_top hrefl htrans hantisymm (Nat.le_refl _) (b := b)
  obtain ⟨more, rfl⟩ := Nat.exists_eq_add_of_le hsteps
  exact ancestors_add htop hnone more

theorem pairwise_ancestors (h : tree.Represents above) :
    (tree.ancestors steps b).Pairwise fun low high => high ≠ low ∧ above high low := by
  induction steps generalizing b with
  | zero => exact List.pairwise_singleton _ b
  | succ steps ih =>
      cases hup : tree.parent? b with
      | none =>
          rw [ancestors_of_none hup]
          exact List.pairwise_singleton _ b
      | some up =>
          rw [ancestors_of_some hup]
          refine List.pairwise_cons.2 ⟨fun a ha => ?_, ih⟩
          obtain ⟨hne, hupb, -⟩ := h.parent b up hup
          have haup := h.above_of_mem_ancestors hrefl htrans ha
          refine ⟨?_, htrans a up b haup hupb⟩
          rintro rfl
          exact hne (hantisymm up a hupb haup)

/-- The chain of a block is the way up from it. -/
theorem ascends_chain (h : tree.Represents above) (b : BlockRef) :
    Ascends above b (tree.chain b) where
  head?_eq := head?_ancestors _ b
  mem_iff := fun _ => h.mem_ancestors_iff hrefl htrans hantisymm (Nat.le_refl _)
  ordered := h.pairwise_ancestors hrefl htrans hantisymm

variable {α : Type} {lookup? : BlockRef → Option α}

/-- A climb finds what the lookup has for the nearest known block above its start. -/
theorem climb_eq_ok_iff (h : tree.Represents above) (hsteps : tree.blocks.length ≤ steps)
    {found : α} :
    Decouple.climb tree.parent? lookup? steps b = .ok found ↔
      ∃ w, Nearest above (fun a => (lookup? a).isSome) b w ∧ lookup? w = some found := by
  constructor
  · intro hclimb
    obtain ⟨w, hw, hwb, hnearest⟩ := h.climb hrefl htrans hclimb
    have hknown : (lookup? w).isSome := Option.isSome_iff_exists.2 ⟨found, hw⟩
    exact ⟨w, ⟨hknown, hwb, fun a ha hab => hnearest a hab ha⟩, hw⟩
  · rintro ⟨w, hw, hfound⟩
    obtain ⟨found', hclimb⟩ := h.exists_climb hrefl htrans hantisymm hsteps hw.isAbove hw.isKnown
    obtain ⟨w', hfound', hwb', hnearest'⟩ := h.climb hrefl htrans hclimb
    have hknown' : (lookup? w').isSome := Option.isSome_iff_exists.2 ⟨found', hfound'⟩
    obtain rfl := hw.unique hantisymm ⟨hknown', hwb', fun a ha hab => hnearest' a hab ha⟩
    rw [hclimb, Option.some.inj (hfound.symm.trans hfound')]

/-- A climb fails if nothing above its start is known, and reports the last block on the way. -/
theorem climb_eq_error_iff (h : tree.Represents above) (hsteps : tree.blocks.length ≤ steps)
    {last : BlockRef} :
    Decouple.climb tree.parent? lookup? steps b = .error last ↔
      (∀ a, (lookup? a).isSome → ¬ above a b) ∧ (tree.chain b).getLast? = some last := by
  obtain ⟨top, htop, hnone⟩ := h.exists_top hrefl htrans hantisymm hsteps (b := b)
  have hchain := h.ancestors_eq_chain hrefl htrans hantisymm hsteps (b := b)
  constructor
  · intro hclimb
    refine ⟨fun a ha hab => ?_, ?_⟩
    · obtain ⟨found, hfound⟩ := h.exists_climb hrefl htrans hantisymm hsteps hab ha
      cases hclimb.symm.trans hfound
    · rw [← hchain, htop, eq_top_of_climb_eq_error htop hnone hclimb]
  · rintro ⟨hunknown, hlast⟩
    rw [← hchain, htop] at hlast
    obtain rfl := Option.some.inj hlast
    cases hclimb : Decouple.climb tree.parent? lookup? steps b with
    | ok found =>
        obtain ⟨w, hw, -⟩ := (h.climb_eq_ok_iff hrefl htrans hantisymm hsteps).1 hclimb
        exact absurd hw.isAbove (hunknown w hw.isKnown)
    | error last => rw [eq_top_of_climb_eq_error htop hnone hclimb]

end Represents

end BlockTree

namespace Program

/-- The block `a` is `b`, or control from the first block of the layout cannot get to `b` but
through `a`. A layout without blocks has no first block, and what is not in it is dominated by
itself all the same. -/
def FlowDominatesEq (p : Program) (layout : List BlockRef) (a b : BlockRef) : Prop :=
  a = b ∨ p.FlowDominates layout a b

namespace FlowDominatesEq

variable {p : Program} {layout : List BlockRef} {c : BlockRef}

theorem trans (h : p.FlowDominatesEq layout a b) (h' : p.FlowDominatesEq layout b c) :
    p.FlowDominatesEq layout a c := by
  rcases h with rfl | h
  · exact h'
  · rcases h' with rfl | h'
    · exact .inr h
    · exact .inr (h.trans h')

theorem antisymm (h : p.FlowDominatesEq layout a b) (h' : p.FlowDominatesEq layout b a) :
    a = b := by
  rcases h with rfl | h
  · rfl
  · rcases h' with rfl | h'
    · rfl
    · exact h.antisymm h'

theorem represents {tree : BlockTree} (h : tree.Represents (p.FlowDominates layout)) :
    tree.Represents (p.FlowDominatesEq layout) where
  parent := by
    intro b up hup
    obtain ⟨hne, hupb, hnearest⟩ := h.parent b up hup
    exact ⟨hne, .inr hupb, fun a hab ha => .inr (hnearest a hab (ha.resolve_left hab))⟩
  orphan := fun b hup a hab => hab.elim id (h.orphan b hup a)

end FlowDominatesEq

end Program

/-- What is answered for a block `b`: the counterpart of the nearest block above it that has one,
which is one block, and if no block above it has one then a refusal that names the last block on
the way up. -/
structure FindsNearest (above : BlockRef → BlockRef → Prop)
    (blockMap : Std.TreeMap BlockRef BlockRef) (b : BlockRef) (chain : List BlockRef)
    (refusal : BlockRef → Rejection) (answer : Except Failure BlockRef) : Prop where
  ascends : Ascends above b chain
  existsUnique : (∃ a ∈ blockMap, above a b) → ∃! w, Nearest above (· ∈ blockMap) b w
  found_iff : ∀ copy, answer = .ok copy ↔
    ∃ w, Nearest above (· ∈ blockMap) b w ∧ blockMap[w]? = some copy
  refused_iff : ∀ failure, answer = .error failure ↔
    (∀ a ∈ blockMap, ¬ above a b) ∧
      ∃ last, chain.getLast? = some last ∧ failure = .rejected (refusal last)

/-- A climb in a tree with blocks enough for its limit answers like this. -/
theorem BlockTree.Represents.findsNearest {tree : BlockTree} {limit : Nat}
    {blockMap : Std.TreeMap BlockRef BlockRef} {refusal : BlockRef → Rejection}
    {answer : Except Failure BlockRef} (h : tree.Represents above) (hrefl : ∀ b, above b b)
    (htrans : ∀ a b c, above a b → above b c → above a c)
    (hantisymm : ∀ a b, above a b → above b a → a = b) (hlimit : tree.blocks.length ≤ limit)
    (hanswer : answer = (Decouple.climb tree.parent? (blockMap[·]?) limit b).mapError
      fun last => .rejected (refusal last)) :
    FindsNearest above blockMap b (tree.chain b) refusal answer := by
  have hok {copy : BlockRef} : Decouple.climb tree.parent? (blockMap[·]?) limit b = .ok copy ↔
      ∃ w, Nearest above (· ∈ blockMap) b w ∧ blockMap[w]? = some copy := by
    simp only [h.climb_eq_ok_iff hrefl htrans hantisymm hlimit, Std.TreeMap.mem_iff_isSome_getElem?]
  have herror {last : BlockRef} :
      Decouple.climb tree.parent? (blockMap[·]?) limit b = .error last ↔
        (∀ a ∈ blockMap, ¬ above a b) ∧ (tree.chain b).getLast? = some last := by
    simp only [h.climb_eq_error_iff hrefl htrans hantisymm hlimit,
      Std.TreeMap.mem_iff_isSome_getElem?]
  refine ⟨h.ascends_chain hrefl htrans hantisymm b, ?_, ?_, ?_⟩
  · rintro ⟨a, ha, hab⟩
    cases hclimb : Decouple.climb tree.parent? (blockMap[·]?) limit b with
    | error last => exact absurd hab ((herror.1 hclimb).1 a ha)
    | ok copy =>
        obtain ⟨w, hw, -⟩ := hok.1 hclimb
        exact ⟨w, hw, fun w' hw' => hw'.unique hantisymm hw⟩
  · intro copy
    rw [hanswer, ← hok]
    cases Decouple.climb tree.parent? (blockMap[·]?) limit b <;> simp [Except.mapError]
  · intro failure
    rw [hanswer]
    cases hclimb : Decouple.climb tree.parent? (blockMap[·]?) limit b with
    | ok copy =>
        obtain ⟨w, hw, -⟩ := hok.1 hclimb
        exact ⟨nofun, fun hnone => absurd hw.isAbove (hnone.1 w hw.isKnown)⟩
    | error last =>
        obtain ⟨hnone, hlast⟩ := herror.1 hclimb
        constructor
        · intro heq
          exact ⟨hnone, last, hlast, (Except.error.inj heq).symm⟩
        · rintro ⟨-, last', hlast', rfl⟩
          rw [Option.some.inj (hlast.symm.trans hlast')]
          rfl

namespace Tangled

/-- The circle of blocks 1 and 2 as a loop, to which block 5 is counted as well. -/
def circle : Loop := ⟨⟨1⟩, ⟨0⟩, ⟨3⟩, [⟨1⟩, ⟨2⟩, ⟨5⟩]⟩

def setting (dominance : Dominance) : Setting where
  func := ⟨0⟩
  loop := circle
  deps := ⟨[]⟩
  plan := ⟨1, []⟩
  config := { threads := 1 }
  loopId := 0
  threads := 1
  live := ⟨[], [], []⟩
  dominance := dominance
  climbLimit := 7

def blockMap : Std.TreeMap BlockRef BlockRef :=
  ((∅ : Std.TreeMap BlockRef BlockRef).insert ⟨0⟩ ⟨10⟩).insert ⟨2⟩ ⟨12⟩

end Tangled

namespace Worker

/-- **The nearest block with a counterpart.** Let a function list no block twice, let the setting
have the trees of this function, and let climbs go as many steps as there are blocks, or more. A
branch to a block of the loop or to its exit then goes to the counterpart of the nearest block that
post-dominates the target and has one, and a φ comes from the counterpart of the nearest block that
dominates the one it came from and has one. Either is refused if there is no such block, and only
then, and the refusal names the last block on the way up. -/
theorem climbs_find_nearest {s : Setting} {p : Program} {func : Func}
    (hfunc : p.func? s.func = some func) (hnodup : func.blocks.Nodup)
    (hdominance : Dominance.ofFunc p s.func = .ok s.dominance)
    (hlimit : func.blocks.length ≤ s.climbLimit) (blockMap : Std.TreeMap BlockRef BlockRef) :
    (∀ target, target ∈ s.loop ∨ target = s.loop.exit →
      FindsNearest (p.FlowPostDominates func.blocks) blockMap target
        (s.dominance.postDom.chain target) .brokenPostDominance (copyOfTarget s blockMap target)) ∧
    ∀ pred, FindsNearest (p.FlowDominatesEq func.blocks) blockMap pred
      (s.dominance.dom.chain pred) .brokenDominance (copyOfPred s blockMap pred) := by
  obtain ⟨hdom, hpostDom⟩ := Dominance.represents_of_ofFunc hdominance hfunc hnodup
  obtain ⟨hblocks, hblocks'⟩ := Dominance.blocks_of_ofFunc hdominance hfunc
  constructor
  · intro target htarget
    refine hpostDom.findsNearest (fun _ => .refl _ _ _) (fun _ _ _ => PostDominates.trans)
      (fun _ _ => PostDominates.antisymm) (hblocks' ▸ hlimit) ?_
    rw [copyOfTarget, if_neg (by tauto)]
    change _ = (climb s.dominance.ipdom? (blockMap[·]?) s.climbLimit target).mapError _
    cases climb s.dominance.ipdom? (blockMap[·]?) s.climbLimit target <;> rfl
  · intro pred
    refine (Program.FlowDominatesEq.represents hdom).findsNearest (fun _ => .inl rfl)
      (fun _ _ _ => Program.FlowDominatesEq.trans) (fun _ _ => Program.FlowDominatesEq.antisymm)
      (hblocks ▸ hlimit) ?_
    change copyOfPred s blockMap pred =
      (climb s.dominance.idom? (blockMap[·]?) s.climbLimit pred).mapError _
    unfold copyOfPred
    cases climb s.dominance.idom? (blockMap[·]?) s.climbLimit pred <;> rfl

/-- In the tangled function the circle is left through block 2 and entered from block 0, so these
are found for block 1. Block 5 does not end and block 4 is out of reach, and both are refused. -/
theorem climbs_find_nearest_tangled :
    ∃ dominance, Dominance.ofFunc Tangled.program ⟨0⟩ = .ok dominance ∧
      copyOfTarget (Tangled.setting dominance) Tangled.blockMap ⟨1⟩ = .ok ⟨12⟩ ∧
      copyOfPred (Tangled.setting dominance) Tangled.blockMap ⟨1⟩ = .ok ⟨10⟩ ∧
      copyOfTarget (Tangled.setting dominance) Tangled.blockMap ⟨5⟩ =
        .error (.rejected (.brokenPostDominance ⟨5⟩)) ∧
      Nearest (Tangled.program.FlowPostDominates Tangled.func.blocks) (· ∈ Tangled.blockMap)
        ⟨1⟩ ⟨2⟩ ∧
      ∀ a ∈ Tangled.blockMap, ¬ Tangled.program.FlowDominatesEq Tangled.func.blocks a ⟨4⟩ := by
  have hfunc : Tangled.program.func? ⟨0⟩ = some Tangled.func := rfl
  obtain ⟨dominance, hdominance⟩ :=
    (Dominance.exists_ofFunc_iff hfunc (by decide)).2 Tangled.exists_successors
  obtain ⟨htargets, hpreds⟩ := climbs_find_nearest (s := Tangled.setting dominance) hfunc
    (by decide) hdominance (Nat.le_succ 6) Tangled.blockMap
  have hvalues : (Dominance.ofFunc Tangled.program ⟨0⟩).toOption.all fun dominance =>
      copyOfTarget (Tangled.setting dominance) Tangled.blockMap ⟨1⟩ = .ok ⟨12⟩ ∧
      copyOfPred (Tangled.setting dominance) Tangled.blockMap ⟨1⟩ = .ok ⟨10⟩ ∧
      copyOfTarget (Tangled.setting dominance) Tangled.blockMap ⟨5⟩ =
        .error (.rejected (.brokenPostDominance ⟨5⟩)) ∧
      copyOfPred (Tangled.setting dominance) Tangled.blockMap ⟨4⟩ =
        .error (.rejected (.brokenDominance ⟨4⟩)) := by
    decide +kernel
  rw [hdominance] at hvalues
  obtain ⟨htarget, hpred, hspin, haside⟩ := of_decide_eq_true hvalues
  refine ⟨dominance, hdominance, htarget, hpred, hspin, ?_, ?_⟩
  · have hmem : (⟨1⟩ : BlockRef) ∈ Tangled.circle := by decide
    obtain ⟨w, hw, hcopy⟩ := ((htargets ⟨1⟩ (.inl hmem)).found_iff ⟨12⟩).1 htarget
    obtain rfl : ⟨2⟩ = w := by
      simp only [Tangled.blockMap, Std.TreeMap.getElem?_insert,
        Std.LawfulEqOrd.compare_eq_iff_eq] at hcopy
      split at hcopy
      · assumption
      · simp at hcopy
    exact hw
  · exact (((hpreds ⟨4⟩).refused_iff _).1 haside).1

end Worker

end Decouple
