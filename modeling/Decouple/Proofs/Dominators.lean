import Decouple.Digraph.Dominators
import Decouple.Proofs.DepthFirst

/-!
# Settled entries are immediate dominators

Two facts about the entries meet in the middle:

* at every moment, all that strictly dominates a node dominates its entry
  (`Optimistic`). Computing an entry anew keeps this, because the climb of
  `meet?` never passes a common dominator: of two nodes it moves the one of higher
  rank, and a node has a higher rank than what strictly dominates it;
* once the entries are settled, the entry of a node is found by climbing from each
  of its reachable predecessors, so every walk to the node visits what is found by
  climbing from it.

Together the nodes found by climbing are the dominators, and the entry is the
nearest one (`idoms?_immediateDominators`).
-/

namespace Decouple

namespace Digraph

variable {g : Digraph} {root : Nat} {rank : Nat → Nat} {idom next : Array (Option Nat)}

def Edge (g : Digraph) (u v : Nat) : Prop := v ∈ g.succsOf u

def Climbs (idom : Array (Option Nat)) (v a : Nat) : Prop :=
  Reaches (fun x y => entry idom x = some y) v a

theorem Climbs.of_entry {v d : Nat} (h : entry idom v = some d) : Climbs idom v d :=
  ⟨[v, d], .step h (.stay d)⟩

theorem Consistent.searchEdge_iff (h : g.Consistent) {u v : Nat} :
    SearchEdge g.succs u v ↔ g.Edge u v :=
  ⟨fun hedge => hedge.1, fun hedge => ⟨hedge, h.mem_succs_lt u v hedge⟩⟩

theorem Consistent.searchEdge_eq (h : g.Consistent) : SearchEdge g.succs = g.Edge := by
  funext u v
  exact propext h.searchEdge_iff

theorem Consistent.mem_reversePostorder_iff (h : g.Consistent) (hroot : root < g.size) {v : Nat} :
    v ∈ reversePostorder g.succs root ↔ Reaches g.Edge root v := by
  rw [Digraph.mem_reversePostorder_iff hroot, h.searchEdge_eq]

theorem entry_setIfInBounds (idom : Array (Option Nat)) {v : Nat} (hv : v < idom.size)
    (d w : Nat) :
    entry (idom.setIfInBounds v (some d)) w = if w = v then some d else entry idom w := by
  by_cases hw : w = v
  · subst hw
    simp [entry, hv]
  · simp [entry, hw, Ne.symm hw]

/-- Entries of the same number of nodes that agree everywhere are equal. -/
theorem eq_of_entry_eq (hsize : next.size = idom.size)
    (h : ∀ v, entry next v = entry idom v) : next = idom := by
  refine Array.ext hsize ?_
  intro v hv hv'
  have hentry := h v
  simpa [entry, hv, hv'] using hentry

theorem meet?_climbs {a b m : Nat} (h : meet? rank idom a b = some m) :
    Climbs idom a m ∧ Climbs idom b m := by
  fun_induction meet? rank idom a b with
  | case1 a =>
      obtain rfl := Option.some.inj h
      exact ⟨.refl _, .refl _⟩
  | case2 a b hne hlt up hup hfall ih =>
      obtain ⟨ha, hb⟩ := ih h
      exact ⟨(Climbs.of_entry hup).trans ha, hb⟩
  | case5 a b hne hle up hup hfall ih =>
      obtain ⟨ha, hb⟩ := ih h
      exact ⟨ha, (Climbs.of_entry hup).trans hb⟩
  | _ => simp at h

/-- What holds of the entries at every moment: they belong to reachable nodes, and
all that strictly dominates a node dominates its entry. -/
structure Optimistic (g : Digraph) (root : Nat) (idom : Array (Option Nat)) : Prop where
  size_eq : idom.size = g.size
  rooted : entry idom root = some root
  reached : ∀ v d, entry idom v = some d → Reaches g.Edge root v
  above : ∀ v d, entry idom v = some d → v ≠ root →
    ∀ x, x ≠ v → Dominates g.Edge root x v → Dominates g.Edge root x d

/-- The climb to the nearest common ancestor does not pass a common dominator. -/
theorem Optimistic.meet? (h : Optimistic g root idom)
    (hrank : ∀ x y, x ≠ y → Dominates g.Edge root x y → rank x < rank y) {a b m x : Nat}
    (hmeet : meet? rank idom a b = some m) (ha : Dominates g.Edge root x a)
    (hb : Dominates g.Edge root x b) : Dominates g.Edge root x m := by
  -- an entry of lower rank is not the node's own, so the node is not the root
  have hmoved : ∀ v up, entry idom v = some up → rank up < rank v → v ≠ root := by
    rintro v up hup hfall rfl
    rw [h.rooted] at hup
    obtain rfl := Option.some.inj hup
    exact Nat.lt_irrefl _ hfall
  fun_induction Digraph.meet? rank idom a b with
  | case1 a =>
      obtain rfl := Option.some.inj hmeet
      exact ha
  | case2 a b hne hlt up hup hfall ih =>
      have hx : x ≠ a := by
        rintro rfl
        exact Nat.lt_asymm hlt (hrank x b hne hb)
      exact ih hmeet (h.above a up hup (hmoved a up hup hfall) x hx ha) hb
  | case5 a b hne hle up hup hfall ih =>
      have hx : x ≠ b := by
        rintro rfl
        exact hle (hrank x a (Ne.symm hne) ha)
      exact ih hmeet ha (h.above b up hup (hmoved b up hup hfall) x hx hb)
  | _ => simp at hmeet

/-- The nearest common ancestor of several nodes is found by climbing from each of
them, and the climbs do not pass a common dominator. -/
theorem Optimistic.foldlM_meet? (h : Optimistic g root idom)
    (hrank : ∀ x y, x ≠ y → Dominates g.Edge root x y → rank x < rank y)
    (rest : List Nat) {u m : Nat}
    (hfold : rest.foldlM (fun common u => Digraph.meet? rank idom u common) u = some m) :
    (∀ w ∈ u :: rest, Climbs idom w m) ∧
      ∀ x, (∀ w ∈ u :: rest, Dominates g.Edge root x w) → Dominates g.Edge root x m := by
  induction rest generalizing u with
  | nil =>
      obtain rfl : u = m := Option.some.inj hfold
      refine ⟨?_, fun x hx => hx u (List.mem_cons_self ..)⟩
      intro w hw
      rw [List.mem_singleton.1 hw]
      exact .refl _
  | cons v rest ih =>
      rw [List.foldlM_cons] at hfold
      obtain ⟨common, hcommon, hfold⟩ := Option.bind_eq_some_iff.1 hfold
      obtain ⟨hv, hu⟩ := meet?_climbs hcommon
      obtain ⟨hclimb, hdom⟩ := ih hfold
      have hm := hclimb common (List.mem_cons_self ..)
      constructor
      · intro w hw
        simp only [List.mem_cons] at hw
        rcases hw with rfl | rfl | hw
        · exact hu.trans hm
        · exact hv.trans hm
        · exact hclimb w (List.mem_cons_of_mem _ hw)
      · intro x hx
        have hxcommon : Dominates g.Edge root x common :=
          h.meet? hrank hcommon (hx v (by simp)) (hx u (by simp))
        refine hdom x ?_
        intro w hw
        rcases List.mem_cons.1 hw with rfl | hw
        · exact hxcommon
        · exact hx w (by simp [hw])

/-- Computing an entry anew: either no predecessor has one yet, or the entry is now
the nearest common ancestor of those that do. -/
theorem Optimistic.refine?_cases (h : Optimistic g root idom)
    (hrank : ∀ x y, x ≠ y → Dominates g.Edge root x y → rank x < rank y) {v : Nat}
    (hrefine : refine? g rank idom v = some next) :
    next = idom ∧ (∀ u ∈ g.predsOf v, entry idom u = none) ∨
      ∃ d, next = idom.setIfInBounds v (some d) ∧
        (∃ u ∈ g.predsOf v, (entry idom u).isSome) ∧
        (∀ u ∈ g.predsOf v, (entry idom u).isSome → Climbs idom u d) ∧
        ∀ x, (∀ u ∈ g.predsOf v, (entry idom u).isSome → Dominates g.Edge root x u) →
          Dominates g.Edge root x d := by
  unfold refine? at hrefine
  have hmem : ∀ u, u ∈ (g.predsOf v).filter (fun u => (entry idom u).isSome) ↔
      u ∈ g.predsOf v ∧ (entry idom u).isSome := fun u => List.mem_filter
  split at hrefine
  · next hnone =>
      left
      refine ⟨(Option.some.inj hrefine).symm, ?_⟩
      intro u hu
      by_contra hsome
      have hin := (hmem u).2 ⟨hu, Option.isSome_iff_ne_none.2 hsome⟩
      rw [hnone] at hin
      exact List.not_mem_nil hin
  · next u rest hsome =>
      right
      obtain ⟨d, hd, hnext⟩ := Option.bind_eq_some_iff.1 hrefine
      obtain ⟨hclimb, hdom⟩ := h.foldlM_meet? hrank rest hd
      refine ⟨d, (Option.some.inj hnext).symm, ?_, ?_, ?_⟩
      · have hu := (hmem u).1 (by rw [hsome]; exact List.mem_cons_self ..)
        exact ⟨u, hu.1, hu.2⟩
      · intro w hw hentry
        exact hclimb w (by rw [← hsome]; exact (hmem w).2 ⟨hw, hentry⟩)
      · intro x hx
        refine hdom x ?_
        intro w hw
        rw [← hsome] at hw
        obtain ⟨hpred, hentry⟩ := (hmem w).1 hw
        exact hx w hpred hentry

/-- Computing the entry of a reachable node anew keeps what holds at every
moment. -/
theorem Optimistic.refine? (h : Optimistic g root idom) (hg : g.Consistent)
    (hrank : ∀ x y, x ≠ y → Dominates g.Edge root x y → rank x < rank y) {v : Nat}
    (hv : v < g.size) (hreach : Reaches g.Edge root v) (hne : v ≠ root)
    (hrefine : Digraph.refine? g rank idom v = some next) : Optimistic g root next := by
  rcases h.refine?_cases hrank hrefine with ⟨rfl, -⟩ | ⟨d, rfl, -, -, hdom⟩
  · exact h
  · have hentry := entry_setIfInBounds idom (h.size_eq ▸ hv) d
    constructor
    · rw [Array.size_setIfInBounds, h.size_eq]
    · rw [hentry, if_neg (Ne.symm hne), h.rooted]
    · intro w e hw
      rw [hentry] at hw
      split at hw
      · next hwv => exact hwv ▸ hreach
      · exact h.reached w e hw
    · intro w e hw hwroot x hxw hx
      rw [hentry] at hw
      split at hw
      · next hwv =>
          subst hwv
          obtain rfl := Option.some.inj hw
          refine hdom x ?_
          intro u hu husome
          obtain ⟨e, he⟩ := Option.isSome_iff_exists.1 husome
          exact hx.of_edge hxw (h.reached u e he) ((hg.mem_succs_iff u w).2 hu)
      · exact h.above w e hw hwroot x hxw hx

/-- A sweep changes the entries of the listed nodes only. -/
theorem entry_foldlM_refine? (nodes : List Nat) {w : Nat} (hw : w ∉ nodes)
    (hfold : nodes.foldlM (refine? g rank) idom = some next) :
    next.size = idom.size ∧ entry next w = entry idom w := by
  induction nodes generalizing idom with
  | nil =>
      obtain rfl : idom = next := Option.some.inj hfold
      exact ⟨rfl, rfl⟩
  | cons v nodes ih =>
      rw [List.foldlM_cons] at hfold
      obtain ⟨between, hbetween, hfold⟩ := Option.bind_eq_some_iff.1 hfold
      obtain ⟨hwv, hw⟩ := List.ne_and_not_mem_of_not_mem_cons hw
      have hkept : between.size = idom.size ∧ entry between w = entry idom w := by
        unfold refine? at hbetween
        split at hbetween
        · obtain rfl := Option.some.inj hbetween
          exact ⟨rfl, rfl⟩
        · obtain ⟨d, -, hset⟩ := Option.bind_eq_some_iff.1 hbetween
          obtain rfl := Option.some.inj hset
          simp [entry, Ne.symm hwv]
      obtain ⟨hsize, hentry⟩ := ih hw hfold
      exact ⟨hsize.trans hkept.1, hentry.trans hkept.2⟩

theorem Optimistic.foldlM_refine? (hg : g.Consistent)
    (hrank : ∀ x y, x ≠ y → Dominates g.Edge root x y → rank x < rank y) (nodes : List Nat)
    (hnodes : ∀ v ∈ nodes, v < g.size ∧ Reaches g.Edge root v ∧ v ≠ root)
    (h : Optimistic g root idom)
    (hfold : nodes.foldlM (Digraph.refine? g rank) idom = some next) :
    Optimistic g root next := by
  induction nodes generalizing idom with
  | nil =>
      obtain rfl : idom = next := Option.some.inj hfold
      exact h
  | cons v nodes ih =>
      rw [List.foldlM_cons] at hfold
      obtain ⟨between, hbetween, hfold⟩ := Option.bind_eq_some_iff.1 hfold
      obtain ⟨hv, hreach, hne⟩ := hnodes v (List.mem_cons_self ..)
      exact ih (fun w hw => hnodes w (List.mem_cons_of_mem _ hw))
        (h.refine? hg hrank hv hreach hne hbetween) hfold

/-- A sweep that changes nothing changes nothing at any of its nodes. -/
theorem refine?_eq_of_foldlM_eq (nodes : List Nat) (hnodup : nodes.Nodup)
    (hrange : ∀ v ∈ nodes, v < idom.size)
    (hfold : nodes.foldlM (refine? g rank) idom = some idom) :
    ∀ v ∈ nodes, refine? g rank idom v = some idom := by
  induction nodes with
  | nil => simp
  | cons v nodes ih =>
      obtain ⟨hv, hnodup⟩ := List.nodup_cons.1 hnodup
      have hlt := hrange v (List.mem_cons_self ..)
      have hsingle : ∀ between, refine? g rank idom v = some between →
          [v].foldlM (refine? g rank) idom = some between := by
        intro between hbetween
        simp [hbetween]
      rw [List.foldlM_cons] at hfold
      obtain ⟨between, hbetween, hfold⟩ := Option.bind_eq_some_iff.1 hfold
      -- the later nodes do not touch the entry of `v`, so its first value is its last one
      have hsame : between = idom := by
        have hsize := (entry_foldlM_refine? nodes hv hfold).1.symm
        refine eq_of_entry_eq hsize ?_
        intro w
        by_cases hw : w = v
        · rw [hw]
          exact (entry_foldlM_refine? nodes hv hfold).2.symm
        · exact (entry_foldlM_refine? [v] (by simpa using hw) (hsingle between hbetween)).2
      subst hsame
      intro w hw
      rcases List.mem_cons.1 hw with rfl | hw
      · exact hbetween
      · exact ih hnodup (fun x hx => hrange x (List.mem_cons_of_mem _ hx)) hfold w hw

theorem Optimistic.settle? (hg : g.Consistent)
    (hrank : ∀ x y, x ≠ y → Dominates g.Edge root x y → rank x < rank y) {order : List Nat}
    (horder : ∀ v ∈ order.tail, v < g.size ∧ Reaches g.Edge root v ∧ v ≠ root)
    (h : Optimistic g root idom)
    (hsettle : Digraph.settle? g rank order idom = some next) :
    Optimistic g root next ∧ order.tail.foldlM (Digraph.refine? g rank) next = some next := by
  fun_induction Digraph.settle? g rank order idom with
  | case1 => simp at hsettle
  | case2 idom hfold =>
      obtain rfl := Option.some.inj hsettle
      exact ⟨h, hfold⟩
  | case3 idom swept hfold hne hlt ih =>
      exact ih (h.foldlM_refine? hg hrank order.tail horder hfold) hsettle
  | case4 => simp at hsettle

/-- The entries are the immediate dominators: the root has itself, nodes that are
not reachable have none, and any other node has the nearest of the nodes that
strictly dominate it. -/
structure ImmediateDominators (g : Digraph) (root : Nat) (idom : Array (Option Nat)) :
    Prop where
  rooted : entry idom root = some root
  isSome_iff : ∀ v, (entry idom v).isSome ↔ Reaches g.Edge root v
  dominates : ∀ v d, entry idom v = some d → Dominates g.Edge root d v
  ne : ∀ v d, entry idom v = some d → v ≠ root → d ≠ v
  nearest : ∀ v d, entry idom v = some d → v ≠ root →
    ∀ x, x ≠ v → Dominates g.Edge root x v → Dominates g.Edge root x d

/-- Settled entries: every reachable node has one, and it is found by climbing from
each reachable predecessor. -/
structure Settled (g : Digraph) (root : Nat) (idom : Array (Option Nat)) : Prop
    extends Optimistic g root idom where
  complete : ∀ v, Reaches g.Edge root v → (entry idom v).isSome
  climbs : ∀ u v d, Reaches g.Edge root u → g.Edge u v → v ≠ root → entry idom v = some d →
    Climbs idom u d

theorem Optimistic.settled (h : Optimistic g root idom) (hg : g.Consistent)
    (hrank : ∀ x y, x ≠ y → Dominates g.Edge root x y → rank x < rank y)
    (hfix : ∀ v, Reaches g.Edge root v → v ≠ root →
      Digraph.refine? g rank idom v = some idom) : Settled g root idom := by
  have hcomplete : ∀ v, Reaches g.Edge root v → (entry idom v).isSome := by
    intro v hreach
    refine hreach.induction_on (motive := fun v => (entry idom v).isSome) (by simp [h.rooted]) ?_
    intro x y hx hsome hedge
    by_cases hy : y = root
    · simp [hy, h.rooted]
    · have hpred : x ∈ g.predsOf y := (hg.mem_succs_iff x y).1 hedge
      rcases h.refine?_cases hrank (hfix y (hx.snoc hedge) hy) with ⟨-, hnone⟩ | ⟨d, hset, -⟩
      · rw [hnone x hpred] at hsome
        cases hsome
      · have hlt : y < idom.size := h.size_eq ▸ hg.mem_succs_lt x y hedge
        have hentry := entry_setIfInBounds idom hlt d y
        rw [← hset, if_pos rfl] at hentry
        simp [hentry]
  refine { h with complete := hcomplete, climbs := ?_ }
  intro u v d hu hedge hne hd
  have hpred : u ∈ g.predsOf v := (hg.mem_succs_iff u v).1 hedge
  rcases h.refine?_cases hrank (hfix v (hu.snoc hedge) hne) with
    ⟨-, hnone⟩ | ⟨d', hset, -, hclimb, -⟩
  · have hsome := hcomplete u hu
    rw [hnone u hpred] at hsome
    cases hsome
  · have hlt : v < idom.size := h.size_eq ▸ hg.mem_succs_lt u v hedge
    have hentry := entry_setIfInBounds idom hlt d' v
    rw [← hset, if_pos rfl, hd] at hentry
    rw [Option.some.inj hentry]
    exact hclimb u hpred (hcomplete u hu)

namespace Settled

/-- From the root, climbing leads nowhere else. -/
theorem eq_root_of_climbs (h : Settled g root idom) {a : Nat} (hclimb : Climbs idom root a) :
    a = root := by
  refine hclimb.induction_on (motive := fun a => a = root) rfl ?_
  rintro x y - rfl hxy
  rw [h.rooted] at hxy
  exact (Option.some.inj hxy).symm

/-- What climbing from a node leads to is the node, or found from its entry. -/
theorem climbs_cases {v a : Nat} (hclimb : Climbs idom v a) :
    a = v ∨ ∃ d, entry idom v = some d ∧ Climbs idom d a := by
  obtain ⟨visited, hwalk⟩ := hclimb
  cases hwalk with
  | stay => exact .inl rfl
  | step hup hrest => exact .inr ⟨_, hup, _, hrest⟩

/-- A walk from the root visits all that climbing from its end leads to. -/
theorem mem_of_climbs (h : Settled g root idom) {v a : Nat} {visited : List Nat}
    (hwalk : Walk g.Edge root v visited) (hclimb : Climbs idom v a) : a ∈ visited := by
  refine hwalk.grow (motive := fun v visited => ∀ a, Climbs idom v a → a ∈ visited) ?_ ?_ a hclimb
  · intro a ha
    rw [h.eq_root_of_climbs ha]
    exact List.mem_singleton.2 rfl
  · intro x y before hbefore ih hedge a ha
    by_cases hy : y = root
    · subst hy
      rw [h.eq_root_of_climbs ha]
      exact List.mem_append_right _ (List.mem_singleton.2 rfl)
    · rcases climbs_cases ha with rfl | ⟨d, hd, ha⟩
      · exact List.mem_append_right _ (List.mem_singleton.2 rfl)
      · have hx := h.climbs x y d ⟨before, hbefore⟩ hedge hy hd
        exact List.mem_append_left _ (ih a (hx.trans ha))

/-- Climbing from a reachable node leads to the root. -/
theorem climbs_root (h : Settled g root idom) {v : Nat} (hreach : Reaches g.Edge root v) :
    Climbs idom v root := by
  refine hreach.induction_on (motive := fun v => Climbs idom v root) (.refl root) ?_
  intro x y hx hclimb hedge
  by_cases hy : y = root
  · rw [hy]
    exact .refl root
  · obtain ⟨d, hd⟩ := Option.isSome_iff_exists.1 (h.complete y (hx.snoc hedge))
    have hxd := h.climbs x y d hx hedge hy hd
    -- the entry lies on the way from `x` to the root, for entries leave no choice
    have hdroot : Climbs idom d root := by
      refine hxd.induction_on (motive := fun a => Climbs idom a root) hclimb ?_
      intro a b _ ha hab
      rcases climbs_cases ha with rfl | ⟨c, hc, hrest⟩
      · rw [h.rooted] at hab
        obtain rfl := Option.some.inj hab
        exact .refl _
      · rw [hab] at hc
        obtain rfl := Option.some.inj hc
        exact hrest
    exact (Climbs.of_entry hd).trans hdroot

theorem immediateDominators (h : Settled g root idom) : ImmediateDominators g root idom where
  rooted := h.rooted
  isSome_iff := by
    intro v
    constructor
    · intro hsome
      obtain ⟨d, hd⟩ := Option.isSome_iff_exists.1 hsome
      exact h.reached v d hd
    · exact h.complete v
  dominates := by
    intro v d hd
    refine .of_forall_walk (h.reached v d hd) ?_
    intro visited hwalk
    exact h.mem_of_climbs hwalk (.of_entry hd)
  ne := by
    rintro v d hd hne rfl
    -- a node that is its own entry does not climb to the root
    have hstuck : ∀ a, Climbs idom d a → a = d := by
      intro a ha
      refine ha.induction_on (motive := fun a => a = d) rfl ?_
      rintro x y - rfl hxy
      rw [hd] at hxy
      exact (Option.some.inj hxy).symm
    exact hne (hstuck root (h.climbs_root (h.reached d d hd))).symm
  nearest := h.above

end Settled

/-- A node has a higher rank in depth-first order than what strictly dominates it. -/
theorem idxOf_lt_of_dominates (hg : g.Consistent) (hroot : root < g.size) {x v : Nat}
    (hne : x ≠ v) (hx : Dominates g.Edge root x v) :
    (reversePostorder g.succs root).idxOf x < (reversePostorder g.succs root).idxOf v := by
  have hv : v ∈ reversePostorder g.succs root :=
    (hg.mem_reversePostorder_iff hroot).2 (hx.reaches_of_ne hne)
  obtain ⟨visited, hwalk, hsmall⟩ :=
    (reversePostorder_parentsFirst g.succs root).exists_walk hv
  rw [hg.searchEdge_eq] at hwalk
  rcases hsmall x (hx.mem_of_walk hwalk) with rfl | hlt
  · exact absurd rfl hne
  · exact hlt

/-- Before the first sweep only the root has an entry, its own. -/
theorem Optimistic.start (hroot : root < g.size) :
    Optimistic g root ((Array.replicate g.size none).setIfInBounds root (some root)) := by
  have hentry := entry_setIfInBounds (Array.replicate g.size none) (v := root) (by simpa) root
  have hempty : ∀ w, entry (Array.replicate g.size (none : Option Nat)) w = none := by
    intro w
    by_cases hw : w < g.size
    · simp [entry, hw]
    · rw [entry, Array.getElem?_eq_none (by simpa using Nat.le_of_not_lt hw)]
      rfl
  constructor
  · simp
  · rw [hentry, if_pos rfl]
  · intro v d hd
    rw [hentry, hempty] at hd
    split at hd
    · next hv =>
        rw [hv]
        exact .refl root
    · cases hd
  · intro v d hd hne
    rw [hentry, hempty, if_neg hne] at hd
    cases hd

theorem idoms?_immediateDominators (hg : g.Consistent) (hroot : root < g.size)
    (h : idoms? g root = some idom) : ImmediateDominators g root idom := by
  have hrank : ∀ x y, x ≠ y → Dominates g.Edge root x y →
      (reversePostorder g.succs root).idxOf x < (reversePostorder g.succs root).idxOf y :=
    fun x y => idxOf_lt_of_dominates hg hroot
  have hfirst := reversePostorder_parentsFirst g.succs root
  obtain ⟨rest, horder⟩ : ∃ rest, reversePostorder g.succs root = root :: rest :=
    reversePostorder_eq_cons hroot
  have hnodup := hfirst.nodup
  rw [horder] at hnodup
  obtain ⟨hrest, hnodup⟩ := List.nodup_cons.1 hnodup
  have htail : ∀ v ∈ (reversePostorder g.succs root).tail,
      v < g.size ∧ Reaches g.Edge root v ∧ v ≠ root := by
    intro v hv
    have hv' : v ∈ reversePostorder g.succs root := List.mem_of_mem_tail hv
    refine ⟨hfirst.inRange v hv', (hg.mem_reversePostorder_iff hroot).1 hv', ?_⟩
    rintro rfl
    rw [horder] at hv
    exact hrest hv
  obtain ⟨hopt, hfold⟩ := (Optimistic.start hroot).settle? hg hrank htail h
  have hfix := refine?_eq_of_foldlM_eq _ (by rw [horder]; exact hnodup)
    (fun v hv => hopt.size_eq ▸ (htail v hv).1) hfold
  refine (hopt.settled hg hrank ?_).immediateDominators
  intro v hreach hne
  refine hfix v ?_
  have hv := (hg.mem_reversePostorder_iff hroot).2 hreach
  rw [horder] at hv ⊢
  rcases List.mem_cons.1 hv with rfl | hv
  · exact absurd rfl hne
  · exact hv

end Digraph

end Decouple
