import Decouple.Walk
import Mathlib.Data.List.Forall2
import Mathlib.Data.List.Induction
import Mathlib.Data.List.Nodup

/-!
# Walks, continued

Ways of taking walks apart and of carrying them over to another relation, and
the order that dominance is:

* a walk can be shortened until it visits no place twice, cut where it first
  meets a property, and taken apart at its last step;
* along a relation between places that both sides can follow step by step, walks
  and dominance carry over (`Walk.transfer`, `Dominates.transfer`);
* dominance is transitive and antisymmetric, and post-dominance is dominance
  along the reversed edges, seen from one more place that leads to all final ones
  (`postDominates_iff`). So it is transitive and antisymmetric as well.
-/

namespace Decouple

namespace Walk

variable {α β : Type} {edge : α → α → Prop} {a b c : α} {visited : List α}

theorem ne_nil (h : Walk edge a b visited) : visited ≠ [] := by
  cases h <;> exact List.cons_ne_nil _ _

/-- The places of a walk after the first one are those of a walk from a place one
step further. -/
theorem cons_cases {rest : List α} (h : Walk edge a b (c :: rest)) :
    c = a ∧ (rest = [] ∧ a = b ∨ ∃ d, edge a d ∧ Walk edge d b rest) := by
  cases h with
  | stay => exact ⟨rfl, .inl ⟨rfl, rfl⟩⟩
  | step hedge hwalk => exact ⟨rfl, .inr ⟨_, hedge, hwalk⟩⟩

/-- A walk stays where it is, or has a last step. -/
theorem last_cases (h : Walk edge a c visited) :
    a = c ∧ visited = [c] ∨
      ∃ b before, Walk edge a b before ∧ edge b c ∧ visited = before ++ [c] := by
  induction h with
  | stay a => exact .inl ⟨rfl, rfl⟩
  | @step a d c visited hedge hwalk ih =>
      right
      rcases ih with ⟨rfl, rfl⟩ | ⟨b, before, hbefore, hlast, rfl⟩
      · exact ⟨a, [a], stay a, hedge, rfl⟩
      · exact ⟨b, a :: before, step hedge hbefore, hlast, rfl⟩

/-- Induction along a walk that grows at its end. -/
theorem grow {motive : α → List α → Prop} (h : Walk edge a b visited) (hstart : motive a [a])
    (hstep : ∀ x y before, Walk edge a x before → motive x before → edge x y →
      motive y (before ++ [y])) : motive b visited := by
  induction visited using List.reverseRecOn generalizing b with
  | nil => exact absurd rfl h.ne_nil
  | append_singleton front last ih =>
      rcases h.last_cases with ⟨rfl, heq⟩ | ⟨x, before, hbefore, hedge, heq⟩
      · rw [heq]
        exact hstart
      · obtain ⟨rfl, hlast⟩ := List.append_inj heq (by simpa using congrArg List.length heq)
        obtain rfl := List.singleton_inj.1 hlast
        exact hstep x last front hbefore (ih hbefore) hedge

/-- A walk in two parts, with the place between them in both. -/
theorem parts {before after : List α} (h : Walk edge a b (before ++ c :: after)) :
    Walk edge a c (before ++ [c]) ∧ Walk edge c b (c :: after) := by
  induction before generalizing a with
  | nil =>
      obtain ⟨rfl, -⟩ := h.cons_cases
      exact ⟨stay c, h⟩
  | cons x before ih =>
      obtain ⟨rfl, ⟨hnil, -⟩ | ⟨d, hedge, hrest⟩⟩ := h.cons_cases
      · simp at hnil
      · obtain ⟨hfirst, hsecond⟩ := ih hrest
        exact ⟨step hedge hfirst, hsecond⟩

/-- Where a walk leads between two places, one leads that visits no place twice and
none that the first one does not visit. -/
theorem exists_nodup (h : Walk edge a b visited) :
    ∃ simple, Walk edge a b simple ∧ simple.Nodup ∧ ∀ x ∈ simple, x ∈ visited := by
  classical
  induction h with
  | stay a => exact ⟨[a], stay a, List.nodup_singleton a, fun x hx => hx⟩
  | @step a d b visited hedge hwalk ih =>
      obtain ⟨simple, hsimple, hnodup, hsub⟩ := ih
      by_cases ha : a ∈ simple
      · -- the shortened rest comes back to the start, so what it does before is left out
        obtain ⟨before, after, hbefore, hafter, rfl⟩ := hsimple.cut ha
        refine ⟨after, hafter, ?_, ?_⟩
        · cases hafter with
          | stay => exact List.nodup_singleton _
          | @step _ e _ rest hedge' hrest =>
              have hdisjoint := (List.nodup_append.1 hnodup).2.2
              have hrestnodup := (List.nodup_append.1 hnodup).2.1
              refine List.nodup_cons.2 ⟨?_, hrestnodup⟩
              intro hmem
              exact hdisjoint a hbefore.end_mem a hmem rfl
        · intro x hx
          cases hafter with
          | stay =>
              rw [List.mem_singleton.1 hx]
              exact List.mem_cons_self ..
          | @step _ e _ rest hedge' hrest =>
              rcases List.mem_cons.1 hx with rfl | hx
              · exact List.mem_cons_self ..
              · exact List.mem_cons_of_mem _ (hsub x (List.mem_append_right _ hx))
      · refine ⟨a :: simple, step hedge hsimple, List.nodup_cons.2 ⟨ha, hnodup⟩, ?_⟩
        intro x hx
        rcases List.mem_cons.1 hx with rfl | hx
        · exact List.mem_cons_self ..
        · exact List.mem_cons_of_mem _ (hsub x hx)

/-- A walk that meets a property can be cut where it does so first. -/
theorem cut_first {good : α → Prop} (h : Walk edge a b visited) (hmem : ∃ x ∈ visited, good x) :
    ∃ d before after, good d ∧ (∀ x ∈ before, ¬ good x) ∧ Walk edge a d (before ++ [d]) ∧
      Walk edge d b (d :: after) ∧ visited = before ++ d :: after := by
  classical
  induction h with
  | stay a =>
      obtain ⟨x, hx, hgood⟩ := hmem
      obtain rfl := List.mem_singleton.1 hx
      exact ⟨x, [], [], hgood, by simp, stay x, stay x, rfl⟩
  | @step a e b visited hedge hwalk ih =>
      by_cases ha : good a
      · exact ⟨a, [], visited, ha, by simp, stay a, step hedge hwalk, rfl⟩
      · have hrest : ∃ x ∈ visited, good x := by
          obtain ⟨x, hx, hgood⟩ := hmem
          rcases List.mem_cons.1 hx with rfl | hx
          · exact absurd hgood ha
          · exact ⟨x, hx, hgood⟩
        obtain ⟨d, before, after, hgood, hbefore, hto, hfrom, rfl⟩ := ih hrest
        refine ⟨d, a :: before, after, hgood, ?_, step hedge hto, hfrom, rfl⟩
        intro x hx
        rcases List.mem_cons.1 hx with rfl | hx
        · exact ha
        · exact hbefore x hx

/-- A walk that meets a property can be cut where it does so last. -/
theorem cut_last {good : α → Prop} (h : Walk edge a b visited) (hmem : ∃ x ∈ visited, good x) :
    ∃ d before after, good d ∧ (∀ x ∈ after, ¬ good x) ∧ Walk edge a d (before ++ [d]) ∧
      Walk edge d b (d :: after) ∧ visited = before ++ d :: after := by
  have hreverse : ∃ x ∈ visited.reverse, good x := by
    obtain ⟨x, hx, hgood⟩ := hmem
    exact ⟨x, List.mem_reverse.2 hx, hgood⟩
  obtain ⟨d, before, after, hgood, hbefore, hto, hfrom, heq⟩ := h.reverse.cut_first hreverse
  refine ⟨d, after.reverse, before.reverse, hgood, ?_, ?_, ?_, ?_⟩
  · intro x hx
    exact hbefore x (List.mem_reverse.1 hx)
  · simpa using hfrom.reverse
  · simpa using hto.reverse
  · have := congrArg List.reverse heq
    simpa using this

/-- Walks carry over along a relation that can follow every step. -/
theorem transfer {edge' : β → β → Prop} {a' : β} (related : α → β → Prop)
    (hstep : ∀ x x' y, related x x' → edge x y → ∃ y', related y y' ∧ edge' x' y')
    (h : Walk edge a b visited) (ha : related a a') :
    ∃ b' others, related b b' ∧ Walk edge' a' b' others ∧ List.Forall₂ related visited others := by
  induction h generalizing a' with
  | stay a => exact ⟨a', [a'], ha, stay a', .cons ha .nil⟩
  | step hedge hwalk ih =>
      obtain ⟨d', hd, hedge'⟩ := hstep _ _ _ ha hedge
      obtain ⟨b', others, hb, hwalk', hall⟩ := ih hd
      exact ⟨b', a' :: others, hb, step hedge' hwalk', .cons ha hall⟩

end Walk

namespace Reaches

variable {α : Type} {edge : α → α → Prop} {a b c : α}

theorem snoc (h : Reaches edge a b) (hedge : edge b c) : Reaches edge a c :=
  h.trans (of_edge hedge)

/-- What holds at the start and is kept by every step holds wherever a walk
leads. -/
theorem induction_on {motive : α → Prop} (h : Reaches edge a b) (hstart : motive a)
    (hstep : ∀ x y, Reaches edge a x → motive x → edge x y → motive y) : motive b := by
  obtain ⟨visited, hwalk⟩ := h
  refine hwalk.grow (motive := fun x _ => motive x) hstart ?_
  intro x y before hbefore hx hedge
  exact hstep x y ⟨before, hbefore⟩ hx hedge

end Reaches

namespace Dominates

variable {α β : Type} {edge : α → α → Prop} {root a b c : α}

theorem refl (edge : α → α → Prop) (root a : α) : Dominates edge root a a := .inl rfl

/-- A place that dominates another one is visited by every walk to it. -/
theorem mem_of_walk {visited : List α} (h : Dominates edge root a b)
    (hwalk : Walk edge root b visited) : a ∈ visited := by
  rcases h with rfl | ⟨-, hall⟩
  · exact hwalk.end_mem
  · exact hall visited hwalk

theorem of_forall_walk (hreach : Reaches edge root b)
    (h : ∀ visited, Walk edge root b visited → a ∈ visited) : Dominates edge root a b :=
  .inr ⟨hreach, h⟩

theorem reaches_of_ne (h : Dominates edge root a b) (hne : a ≠ b) : Reaches edge root b := by
  rcases h with rfl | ⟨hreach, -⟩
  · exact absurd rfl hne
  · exact hreach

/-- What dominates a reachable place is reachable. -/
theorem reaches (h : Dominates edge root a b) (hreach : Reaches edge root b) :
    Reaches edge root a := by
  obtain ⟨visited, hwalk⟩ := hreach
  obtain ⟨before, after, hbefore, -, -⟩ := hwalk.cut (h.mem_of_walk hwalk)
  exact ⟨before, hbefore⟩

theorem trans (h : Dominates edge root a b) (h' : Dominates edge root b c) :
    Dominates edge root a c := by
  by_cases hbc : b = c
  · exact hbc ▸ h
  · have hreach := h'.reaches_of_ne hbc
    refine of_forall_walk hreach ?_
    intro visited hwalk
    obtain ⟨before, after, hbefore, -, rfl⟩ := hwalk.cut (h'.mem_of_walk hwalk)
    exact List.mem_append_left _ (h.mem_of_walk hbefore)

theorem antisymm (h : Dominates edge root a b) (h' : Dominates edge root b a) : a = b := by
  by_contra hne
  obtain ⟨visited, hwalk⟩ := h.reaches_of_ne hne
  -- a walk without repetition meets `a` on the way to `b`, and `b` on the way to that `a`
  obtain ⟨simple, hsimple, hnodup, -⟩ := hwalk.exists_nodup
  obtain ⟨before, after, hbefore, hafter, rfl⟩ := hsimple.cut (h.mem_of_walk hsimple)
  have hb : b ∈ before := h'.mem_of_walk hbefore
  have hb' : b ∈ after.tail := by
    cases hafter with
    | stay => exact absurd rfl hne
    | step hedge hrest => exact hrest.end_mem
  exact (List.nodup_append.1 hnodup).2.2 b hb b hb' rfl

/-- A place that a step leads from is dominated by all that strictly dominates the
place it leads to. -/
theorem of_edge (h : Dominates edge root a c) (hne : a ≠ c) (hreach : Reaches edge root b)
    (hedge : edge b c) : Dominates edge root a b := by
  refine of_forall_walk hreach ?_
  intro visited hwalk
  have hmem := h.mem_of_walk (hwalk.snoc hedge)
  rcases List.mem_append.1 hmem with hmem | hmem
  · exact hmem
  · exact absurd (List.mem_singleton.1 hmem) hne

/-- Dominance carries over along a one-to-one relation that both sides can follow
step by step. -/
theorem transfer {edge' : β → β → Prop} {root' a' b' : β} (related : α → β → Prop)
    (hforth : ∀ x x' y, related x x' → edge x y → ∃ y', related y y' ∧ edge' x' y')
    (hback : ∀ x x' y', related x x' → edge' x' y' → ∃ y, related y y' ∧ edge x y)
    (hright : ∀ x y z, related x y → related x z → y = z)
    (hleft : ∀ x y z, related x z → related y z → x = y)
    (hroot : related root root') (ha : related a a') (hb : related b b')
    (h : Dominates edge root a b) : Dominates edge' root' a' b' := by
  by_cases hab : a = b
  · subst hab
    exact .inl (hright _ _ _ ha hb)
  · obtain ⟨visited, hwalk⟩ := h.reaches_of_ne hab
    obtain ⟨b'', others, hb'', hwalk', -⟩ := hwalk.transfer related hforth hroot
    obtain rfl := hright _ _ _ hb hb''
    refine of_forall_walk ⟨others, hwalk'⟩ ?_
    intro others' hwalk'
    obtain ⟨b'', visited', hb'', hwalk'', hall⟩ :=
      hwalk'.transfer (fun x' x => related x x') (fun x' x y' => hback x x' y') hroot
    obtain rfl := hleft _ _ _ hb hb''
    -- the two walks correspond place by place, so the places that are `a` do
    obtain ⟨k, hk⟩ := List.mem_iff_getElem?.1 (h.mem_of_walk hwalk'')
    have hlength := hall.length_eq
    obtain ⟨hkv, hkeq⟩ := List.getElem?_eq_some_iff.1 hk
    have hrel := hall.get (i := k) (by omega) hkv
    simp only [List.get_eq_getElem, hkeq] at hrel
    rw [hright _ _ _ ha hrel]
    exact List.getElem_mem _

end Dominates

/-- The edges turned round, with one more place that leads to all final ones. -/
inductive BackEdge {α : Type} (edge : α → α → Prop) (isFinal : α → Prop) :
    Option α → Option α → Prop where
  | enter {c : α} : isFinal c → BackEdge edge isFinal none (some c)
  | back {a b : α} : edge a b → BackEdge edge isFinal (some b) (some a)

namespace PostDominates

variable {α : Type} {edge : α → α → Prop} {isFinal : α → Prop} {a b c : α}

theorem backWalk {visited : List α} (h : Walk edge b c visited) (hfinal : isFinal c) :
    Walk (BackEdge edge isFinal) none (some b) (none :: visited.reverse.map some) := by
  induction h with
  | stay a => exact .step (.enter hfinal) (.stay _)
  | step hedge hwalk ih =>
      rw [List.reverse_cons, List.map_append]
      exact (ih hfinal).snoc (.back hedge)

theorem of_backWalk {others : List (Option α)} {x : Option α}
    (h : Walk (BackEdge edge isFinal) none x others) :
    x = none ∧ others = [none] ∨
      ∃ b c visited, x = some b ∧ isFinal c ∧ Walk edge b c visited ∧
        others = none :: visited.reverse.map some := by
  refine h.grow (motive := fun x others => x = none ∧ others = [none] ∨
    ∃ b c visited, x = some b ∧ isFinal c ∧ Walk edge b c visited ∧
      others = none :: visited.reverse.map some) (.inl ⟨rfl, rfl⟩) ?_
  intro y z before hbefore ih hedge
  right
  cases hedge with
  | @enter c hfinal =>
      -- nothing leads back to the extra place, so the walk has only just begun
      rcases ih with ⟨-, rfl⟩ | ⟨b, _, _, hb, -⟩
      · exact ⟨c, c, [c], rfl, hfinal, .stay c, rfl⟩
      · cases hb
  | @back a b hedge =>
      rcases ih with ⟨hb, -⟩ | ⟨b', c, visited, hb, hfinal, hwalk, rfl⟩
      · cases hb
      · cases hb
        exact ⟨a, c, a :: visited, rfl, hfinal, .step hedge hwalk, by simp⟩

end PostDominates

/-- Post-dominance is dominance in the reversed graph, seen from the place that
leads to all final ones. -/
theorem postDominates_iff {α : Type} {edge : α → α → Prop} {isFinal : α → Prop} {a b : α} :
    PostDominates edge isFinal a b ↔
      Dominates (BackEdge edge isFinal) none (some a) (some b) := by
  constructor
  · rintro (rfl | ⟨⟨c, hfinal, visited, hwalk⟩, hall⟩)
    · exact .refl _ _ _
    · refine .of_forall_walk ⟨_, PostDominates.backWalk hwalk hfinal⟩ ?_
      intro others hback
      rcases PostDominates.of_backWalk hback with ⟨hb, -⟩ | ⟨b', c, visited, hb, hfinal, hwalk, rfl⟩
      · cases hb
      · cases hb
        have hmem := hall c visited hfinal hwalk
        simp [hmem]
  · intro h
    by_cases hab : a = b
    · exact .inl hab
    · right
      obtain ⟨others, hback⟩ := h.reaches_of_ne (by simpa using hab)
      rcases PostDominates.of_backWalk hback with ⟨hb, -⟩ | ⟨b', c, visited, hb, hfinal, hwalk, -⟩
      · cases hb
      · cases hb
        refine ⟨⟨c, hfinal, visited, hwalk⟩, ?_⟩
        intro c visited hfinal hwalk
        have hmem := h.mem_of_walk (PostDominates.backWalk hwalk hfinal)
        simpa using hmem

namespace PostDominates

variable {α : Type} {edge : α → α → Prop} {isFinal : α → Prop} {a b c : α}

theorem refl (edge : α → α → Prop) (isFinal : α → Prop) (a : α) :
    PostDominates edge isFinal a a := .inl rfl

theorem trans (h : PostDominates edge isFinal a b) (h' : PostDominates edge isFinal b c) :
    PostDominates edge isFinal a c := by
  rw [postDominates_iff] at h h' ⊢
  exact h.trans h'

theorem antisymm (h : PostDominates edge isFinal a b) (h' : PostDominates edge isFinal b a) :
    a = b := by
  rw [postDominates_iff] at h h'
  exact Option.some.inj (h.antisymm h')

theorem mem_of_walk {visited : List α} (h : PostDominates edge isFinal a b) (hfinal : isFinal c)
    (hwalk : Walk edge b c visited) : a ∈ visited := by
  rcases h with rfl | ⟨-, hall⟩
  · exact hwalk.start_mem
  · exact hall c visited hfinal hwalk

theorem exists_final_of_ne (h : PostDominates edge isFinal a b) (hne : a ≠ b) :
    ∃ c, isFinal c ∧ Reaches edge b c := by
  rcases h with rfl | ⟨hfinal, -⟩
  · exact absurd rfl hne
  · exact hfinal

theorem of_forall_walk (hreach : ∃ c, isFinal c ∧ Reaches edge b c)
    (h : ∀ c visited, isFinal c → Walk edge b c visited → a ∈ visited) :
    PostDominates edge isFinal a b :=
  .inr ⟨hreach, h⟩

/-- Let `a` be the first place of a walk from `b` with some property. If `a` post-dominates
`b`, it is the nearest place with the property that does: no other one lies between. -/
theorem eq_of_first {good : α → Prop} {skipped : List α} (h : PostDominates edge isFinal a b)
    (hwalk : Walk edge b a (skipped ++ [a])) (hskipped : ∀ x ∈ skipped, ¬ good x) (ha : good a)
    (hc : good c) (hcb : PostDominates edge isFinal c b)
    (hnearest : ∀ x, PostDominates edge isFinal x b → good x → PostDominates edge isFinal x c) :
    c = a := by
  refine antisymm ?_ (hnearest a h ha)
  by_cases hab : a = b
  · exact hab ▸ hcb
  · obtain ⟨final, hfinal, visited, hvisited⟩ := h.exists_final_of_ne hab
    obtain ⟨-, after, -, hafter, -⟩ := hvisited.cut (h.mem_of_walk hfinal hvisited)
    refine of_forall_walk ⟨final, hfinal, after, hafter⟩ ?_
    intro final others hfinal hothers
    have hmem := hcb.mem_of_walk hfinal (hwalk.join hothers)
    rcases List.mem_append.1 hmem with hmem | hmem
    · rcases List.mem_append.1 hmem with hmem | hmem
      · exact absurd hc (hskipped c hmem)
      · exact List.mem_singleton.1 hmem ▸ hothers.start_mem
    · exact List.mem_of_mem_tail hmem

/-- The nearest place with some property that post-dominates `b` can be reached from `b`
past any other place with the property. -/
theorem exists_avoiding {good : α → Prop} (h : PostDominates edge isFinal c b)
    (hnearest : ∀ x, PostDominates edge isFinal x b → good x → PostDominates edge isFinal x c)
    (ha : good a) (hne : a ≠ c) : ∃ visited, Walk edge b c visited ∧ a ∉ visited := by
  by_cases hcb : c = b
  · subst hcb
    exact ⟨[c], .stay c, by simpa using hne⟩
  · obtain ⟨final, hfinal, visited, hvisited⟩ := h.exists_final_of_ne hcb
    by_cases hab : PostDominates edge isFinal a b
    · -- behind `c` all walks to the end meet `a`, so one without repetition does not before
      obtain ⟨simple, hsimple, hnodup, -⟩ := hvisited.exists_nodup
      obtain ⟨before, after, hbefore, hafter, rfl⟩ := hsimple.cut (h.mem_of_walk hfinal hsimple)
      refine ⟨before, hbefore, fun hmem => ?_⟩
      have hmem' : a ∈ after.tail := by
        have hafterMem := (hnearest a hab ha).mem_of_walk hfinal hafter
        cases hafter with
        | stay => exact absurd (List.mem_singleton.1 hafterMem) hne
        | step hedge hrest => exact (List.mem_cons.1 hafterMem).resolve_left hne
      exact (List.nodup_append.1 hnodup).2.2 a hmem a hmem' rfl
    · obtain ⟨final', others, hfinal', hothers, hnot⟩ :
          ∃ final' others, isFinal final' ∧ Walk edge b final' others ∧ a ∉ others := by
        by_contra hall
        refine hab (of_forall_walk ⟨final, hfinal, visited, hvisited⟩ ?_)
        intro final' others hfinal' hothers
        by_contra hnot
        exact hall ⟨final', others, hfinal', hothers, hnot⟩
      obtain ⟨before, after, hbefore, -, rfl⟩ := hothers.cut (h.mem_of_walk hfinal' hothers)
      exact ⟨before, hbefore, fun hmem => hnot (List.mem_append_left _ hmem)⟩

end PostDominates

end Decouple
