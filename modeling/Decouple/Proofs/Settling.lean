import Decouple.Proofs.Dominators

/-!
# The sweeps settle

`idoms?` checks on its way that entries have lower ranks than their nodes and that
a sweep which changes something lowers the total rank. Neither check ever fails, so
every consistent graph gets its entries (`exists_idoms?`).

Entries lead down in rank to the root at every moment (`Descending`), so two nodes
with entries have a nearest common ancestor. That an entry is only ever moved to one
of its own ancestors needs more, because moving the entry of one node moves all nodes
below it as well. Two facts carry it through a sweep (`Sweeping`):

* `above`: what all predecessors of a node have in common as ancestors lies above its
  entry too. So the entry computed anew is an ancestor of the old one;
* `current`: at place `k` of a sweep, the ancestors of a node that this sweep has
  passed are ancestors of the predecessors ranked before it. For a node that the sweep
  is still to pass this holds of the ancestors from rank `k` on, since the sweep has
  not touched an entry up there. It is why moving a node keeps `above` for the nodes
  below it, and the only use of the order in which a sweep goes.
-/

namespace Decouple

namespace Digraph

variable {g : Digraph} {root k : Nat} {rank : Nat → Nat} {order : List Nat}
  {idom next : Array (Option Nat)}

namespace Climbs

variable {u v a b : Nat}

/-- Entries leave no choice: of two nodes found by climbing from the same node, one is
found from the other. -/
theorem total (ha : Climbs idom v a) (hb : Climbs idom v b) :
    Climbs idom a b ∨ Climbs idom b a := by
  refine ha.induction_on (motive := fun a => Climbs idom a b ∨ Climbs idom b a) (.inl hb) ?_
  rintro x y - (hxb | hbx) hxy
  · rcases Settled.climbs_cases hxb with rfl | ⟨d, hd, hdb⟩
    · exact .inr (.of_entry hxy)
    · rw [hxy] at hd
      obtain rfl := Option.some.inj hd
      exact .inl hdb
  · exact .inr (hbx.trans (Climbs.of_entry hxy))

/-- Where something is found by climbing to a node with an entry, the climb starts at a
node with an entry. -/
theorem isSome_start (h : Climbs idom v a) (ha : (entry idom a).isSome) :
    (entry idom v).isSome := by
  rcases Settled.climbs_cases h with rfl | ⟨d, hd, -⟩
  · exact ha
  · simp [hd]

/-- A climb that meets no changed entry before its end leads to the same node. -/
theorem congr (h : Climbs idom v a)
    (hkept : ∀ x, Climbs idom v x → Climbs idom x a → x ≠ a → entry next x = entry idom x) :
    Climbs next v a := by
  obtain ⟨visited, hwalk⟩ := h
  induction hwalk with
  | stay v => exact .refl v
  | @step v b a visited hentry hwalk ih =>
      by_cases hva : v = a
      · subst hva
        exact .refl v
      · have hfirst : entry next v = some b :=
          (hkept v (.refl v) ⟨_, .step hentry hwalk⟩ hva).trans hentry
        refine (Climbs.of_entry hfirst).trans (ih ?_)
        intro x hbx hxa hne
        exact hkept x ((Climbs.of_entry hentry).trans hbx) hxa hne

end Climbs

/-- The nodes of `order` are ranked by their place in it. The root is the first one,
and every other node comes after one of its predecessors. -/
structure Ranked (g : Digraph) (root : Nat) (rank : Nat → Nat) (order : List Nat) : Prop where
  first : order[0]? = some root
  place : ∀ k v, order[k]? = some v → rank v = k
  mem_of_lt : ∀ v, rank v < order.length → v ∈ order
  inRange : ∀ v ∈ order, v < g.size
  parent : ∀ v ∈ order, v ≠ root → ∃ u, g.Edge u v ∧ rank u < rank v

namespace Ranked

theorem getElem?_rank (h : Ranked g root rank order) {v : Nat} (hv : v ∈ order) :
    order[rank v]? = some v := by
  obtain ⟨k, hk⟩ := List.mem_iff_getElem?.1 hv
  rw [h.place k v hk, hk]

theorem lt_length (h : Ranked g root rank order) {v : Nat} (hv : v ∈ order) :
    rank v < order.length :=
  (List.getElem?_eq_some_iff.1 (h.getElem?_rank hv)).1

theorem inj (h : Ranked g root rank order) {v w : Nat} (hv : v ∈ order) (hw : w ∈ order)
    (heq : rank v = rank w) : v = w := by
  have hv' := h.getElem?_rank hv
  rw [heq, h.getElem?_rank hw] at hv'
  exact (Option.some.inj hv').symm

theorem pos (h : Ranked g root rank order) {v : Nat} (hv : v ∈ order) (hne : v ≠ root) :
    0 < rank v := by
  refine Nat.pos_of_ne_zero ?_
  intro hzero
  have hv' := h.getElem?_rank hv
  rw [hzero, h.first] at hv'
  exact hne (Option.some.inj hv').symm

theorem rank_root (h : Ranked g root rank order) : rank root = 0 := h.place 0 root h.first

/-- A node other than the root has a listed predecessor of lower rank. -/
theorem exists_before (h : Ranked g root rank order) {v : Nat} (hv : v ∈ order)
    (hne : v ≠ root) : ∃ u ∈ order, g.Edge u v ∧ rank u < rank v := by
  obtain ⟨u, hedge, hlt⟩ := h.parent v hv hne
  exact ⟨u, h.mem_of_lt u (Nat.lt_trans hlt (h.lt_length hv)), hedge, hlt⟩

end Ranked

/-- What holds of the entries at every moment: they belong to listed nodes, and they
lead down in rank from each of them to the root. -/
structure Descending (root : Nat) (rank : Nat → Nat) (order : List Nat)
    (idom : Array (Option Nat)) : Prop where
  rooted : entry idom root = some root
  listed : ∀ v d, entry idom v = some d → v ∈ order
  falls : ∀ v d, entry idom v = some d → v ≠ root → rank d < rank v
  closed : ∀ v d, entry idom v = some d → (entry idom d).isSome

namespace Descending

variable {u v w a b d : Nat}

theorem mem_order (h : Descending root rank order idom) (hv : (entry idom v).isSome) :
    v ∈ order := by
  obtain ⟨d, hd⟩ := Option.isSome_iff_exists.1 hv
  exact h.listed v d hd

theorem le_of_entry (h : Descending root rank order idom) (hd : entry idom v = some d) :
    rank d ≤ rank v := by
  by_cases hv : v = root
  · rw [hv, h.rooted] at hd
    exact Nat.le_of_eq (by rw [hv, Option.some.inj hd])
  · exact Nat.le_of_lt (h.falls v d hd hv)

theorem le_of_climbs (h : Descending root rank order idom) (hclimb : Climbs idom v a) :
    rank a ≤ rank v := by
  refine hclimb.induction_on (motive := fun a => rank a ≤ rank v) (Nat.le_refl _) ?_
  intro x y _ hx hxy
  exact Nat.le_trans (h.le_of_entry hxy) hx

theorem isSome_of_climbs (h : Descending root rank order idom) (hv : (entry idom v).isSome)
    (hclimb : Climbs idom v a) : (entry idom a).isSome := by
  refine hclimb.induction_on (motive := fun a => (entry idom a).isSome) hv ?_
  intro x y _ _ hxy
  exact h.closed x y hxy

theorem lt_of_climbs (h : Descending root rank order idom) (horder : Ranked g root rank order)
    (hclimb : Climbs idom v a) (hne : a ≠ v) : rank a < rank v := by
  rcases Settled.climbs_cases hclimb with rfl | ⟨d, hd, -⟩
  · exact absurd rfl hne
  · have hv : (entry idom v).isSome := by simp [hd]
    refine Nat.lt_of_le_of_ne (h.le_of_climbs hclimb) ?_
    intro heq
    exact hne (horder.inj (h.mem_order (h.isSome_of_climbs hv hclimb)) (h.mem_order hv) heq)

/-- A node ranked after another one is not the root, so its entry is below it. -/
theorem exists_entry_of_lt (h : Descending root rank order idom)
    (horder : Ranked g root rank order) (ha : (entry idom a).isSome) (hlt : rank b < rank a) :
    ∃ up, entry idom a = some up ∧ rank up < rank a ∧ (entry idom up).isSome := by
  obtain ⟨up, hup⟩ := Option.isSome_iff_exists.1 ha
  refine ⟨up, hup, h.falls a up hup ?_, h.closed a up hup⟩
  rintro rfl
  rw [horder.rank_root] at hlt
  exact Nat.not_lt_zero _ hlt

/-- Different nodes with entries differ in rank. -/
theorem rank_lt_of_not_lt (h : Descending root rank order idom)
    (horder : Ranked g root rank order) (ha : (entry idom a).isSome) (hb : (entry idom b).isSome)
    (hne : a ≠ b) (hnot : ¬ rank b < rank a) : rank a < rank b := by
  refine Nat.lt_of_le_of_ne (Nat.le_of_not_lt hnot) ?_
  intro heq
  exact hne (horder.inj (h.mem_order ha) (h.mem_order hb) heq)

/-- Two nodes with entries have a nearest common ancestor, and it is found. -/
theorem exists_meet? (h : Descending root rank order idom) (horder : Ranked g root rank order)
    (ha : (entry idom a).isSome) (hb : (entry idom b).isSome) :
    ∃ m, meet? rank idom a b = some m ∧
      ∀ x, Climbs idom a x → Climbs idom b x → Climbs idom m x := by
  -- a common ancestor of two different nodes lies above the one of higher rank
  have hpast : ∀ {a b up x : Nat}, entry idom a = some up → a ≠ b → rank b ≤ rank a →
      Climbs idom a x → Climbs idom b x → Climbs idom up x := by
    intro a b up x hup hne hle hax hbx
    rcases Settled.climbs_cases hax with rfl | ⟨d, hd, hdx⟩
    · exact absurd (h.lt_of_climbs horder hbx hne) (Nat.not_lt_of_le hle)
    · rw [hup] at hd
      obtain rfl := Option.some.inj hd
      exact hdx
  fun_induction meet? rank idom a b with
  | case1 a => exact ⟨a, rfl, fun x hx _ => hx⟩
  | case2 a b hne hlt up hup hfall ih =>
      obtain ⟨m, hm, hnearest⟩ := ih (h.closed a up hup) hb
      exact ⟨m, hm, fun x hax hbx =>
        hnearest x (hpast hup hne (Nat.le_of_lt hlt) hax hbx) hbx⟩
  | case3 a b hne hlt up hup hnot =>
      obtain ⟨up', hup', hfall, -⟩ := h.exists_entry_of_lt horder ha hlt
      rw [hup] at hup'
      obtain rfl := Option.some.inj hup'
      exact absurd hfall hnot
  | case4 a b hne hlt hnone =>
      rw [hnone] at ha
      cases ha
  | case5 a b hne hle up hup hfall ih =>
      obtain ⟨m, hm, hnearest⟩ := ih ha (h.closed b up hup)
      exact ⟨m, hm, fun x hax hbx =>
        hnearest x hax (hpast hup (Ne.symm hne) (Nat.le_of_not_lt hle) hbx hax)⟩
  | case6 a b hne hle up hup hnot =>
      have hlt := h.rank_lt_of_not_lt horder ha hb hne hle
      obtain ⟨up', hup', hfall, -⟩ := h.exists_entry_of_lt horder hb hlt
      rw [hup] at hup'
      obtain rfl := Option.some.inj hup'
      exact absurd hfall hnot
  | case7 a b hne hle hnone =>
      rw [hnone] at hb
      cases hb

/-- Several nodes with entries have a nearest common ancestor, and it is found. -/
theorem exists_foldlM_meet? (h : Descending root rank order idom)
    (horder : Ranked g root rank order) (rest : List Nat) {u : Nat}
    (hsome : ∀ w ∈ u :: rest, (entry idom w).isSome) :
    ∃ m, rest.foldlM (fun common u => meet? rank idom u common) u = some m ∧
      (∀ w ∈ u :: rest, Climbs idom w m) ∧
      ∀ x, (∀ w ∈ u :: rest, Climbs idom w x) → Climbs idom m x := by
  induction rest generalizing u with
  | nil =>
      refine ⟨u, rfl, ?_, fun x hx => hx u (List.mem_cons_self ..)⟩
      intro w hw
      rw [List.mem_singleton.1 hw]
      exact .refl _
  | cons v rest ih =>
      have hu := hsome u (by simp)
      obtain ⟨common, hcommon, hnearest⟩ := h.exists_meet? horder (hsome v (by simp)) hu
      obtain ⟨hvc, huc⟩ := meet?_climbs hcommon
      obtain ⟨m, hm, hclimb, hbest⟩ : ∃ m, _ ∧ (∀ w ∈ common :: rest, Climbs idom w m) ∧ _ := by
        refine ih ?_
        intro w hw
        rcases List.mem_cons.1 hw with rfl | hw
        · exact h.isSome_of_climbs hu huc
        · exact hsome w (by simp [hw])
      have hcm := hclimb common (List.mem_cons_self ..)
      refine ⟨m, by rw [List.foldlM_cons, hcommon]; exact hm, ?_, ?_⟩
      · intro w hw
        simp only [List.mem_cons] at hw
        rcases hw with rfl | rfl | hw
        · exact huc.trans hcm
        · exact hvc.trans hcm
        · exact hclimb w (List.mem_cons_of_mem _ hw)
      · intro x hx
        refine hbest x ?_
        intro w hw
        rcases List.mem_cons.1 hw with rfl | hw
        · exact hnearest x (hx v (by simp)) (hx u (by simp))
        · exact hx w (by simp [hw])

/-- Computing an entry anew where some predecessor has one: the entry becomes the
nearest common ancestor of the predecessors that have one. -/
theorem exists_refine? (h : Descending root rank order idom) (hg : g.Consistent)
    (horder : Ranked g root rank order) (hedge : g.Edge u v) (hu : (entry idom u).isSome) :
    ∃ d, refine? g rank idom v = some (idom.setIfInBounds v (some d)) ∧
      (∀ u, g.Edge u v → (entry idom u).isSome → Climbs idom u d) ∧
      ∀ x, (∀ u, g.Edge u v → (entry idom u).isSome → Climbs idom u x) → Climbs idom d x := by
  have hmem : ∀ w, w ∈ (g.predsOf v).filter (fun w => (entry idom w).isSome) ↔
      g.Edge w v ∧ (entry idom w).isSome := by
    intro w
    rw [List.mem_filter, ← hg.mem_succs_iff]
    rfl
  unfold refine?
  split
  · next hnone =>
      have hin := (hmem u).2 ⟨hedge, hu⟩
      rw [hnone] at hin
      exact absurd hin List.not_mem_nil
  · next first rest hpreds =>
      rw [hpreds] at hmem
      obtain ⟨d, hd, hclimb, hnearest⟩ :=
        h.exists_foldlM_meet? horder rest fun w hw => ((hmem w).1 hw).2
      refine ⟨d, by rw [hd]; rfl, fun w hw hsome => hclimb w ((hmem w).2 ⟨hw, hsome⟩), ?_⟩
      intro x hx
      refine hnearest x ?_
      intro w hw
      exact hx w ((hmem w).1 hw).1 ((hmem w).1 hw).2

end Descending

structure Sweeping (g : Digraph) (root : Nat) (rank : Nat → Nat) (order : List Nat) (k : Nat)
    (idom : Array (Option Nat)) : Prop extends Descending root rank order idom where
  size_eq : idom.size = g.size
  passed : ∀ v ∈ order, rank v < k → (entry idom v).isSome
  current : ∀ u w a, g.Edge u w → rank u < rank w → w ≠ root → (entry idom w).isSome →
    Climbs idom w a → a ≠ w → rank w < k ∨ k ≤ rank a → Climbs idom u a
  above : ∀ w d a, w ≠ root → entry idom w = some d →
    (∀ u, g.Edge u w → (entry idom u).isSome → Climbs idom u a) → Climbs idom d a

def entryRank (rank : Nat → Nat) (order : List Nat) (idom : Array (Option Nat)) (v : Nat) : Nat :=
  ((entry idom v).map rank).getD order.length

namespace Sweeping

variable {v d : Nat}

/-- The node `v` at place `k` of a sweep, and the nearest common ancestor `d` of its
predecessors that have an entry. -/
structure Turn (g : Digraph) (root : Nat) (rank : Nat → Nat) (order : List Nat)
    (idom : Array (Option Nat)) (v d : Nat) : Prop where
  ranked : Ranked g root rank order
  sweeping : Sweeping g root rank order (rank v) idom
  mem : v ∈ order
  ne : v ≠ root
  common : ∀ u, g.Edge u v → (entry idom u).isSome → Climbs idom u d
  nearest : ∀ x, (∀ u, g.Edge u v → (entry idom u).isSome → Climbs idom u x) → Climbs idom d x

namespace Turn

variable {w a : Nat}

theorem entry_eq (h : Turn g root rank order idom v d) (w : Nat) :
    entry (idom.setIfInBounds v (some d)) w = if w = v then some d else entry idom w :=
  entry_setIfInBounds idom (h.sweeping.size_eq ▸ h.ranked.inRange v h.mem) d w

/-- The new entry is an ancestor of a predecessor ranked before the node. -/
theorem exists_before (h : Turn g root rank order idom v d) :
    ∃ u, (entry idom u).isSome ∧ Climbs idom u d ∧ rank u < rank v := by
  obtain ⟨u, hu, hedge, hlt⟩ := h.ranked.exists_before h.mem h.ne
  have hsome := h.sweeping.passed u hu hlt
  exact ⟨u, hsome, h.common u hedge hsome, hlt⟩

theorem rank_lt (h : Turn g root rank order idom v d) : rank d < rank v := by
  obtain ⟨u, -, hclimb, hlt⟩ := h.exists_before
  exact Nat.lt_of_le_of_lt (h.sweeping.le_of_climbs hclimb) hlt

theorem isSome_entry (h : Turn g root rank order idom v d) : (entry idom d).isSome := by
  obtain ⟨u, hsome, hclimb, -⟩ := h.exists_before
  exact h.sweeping.isSome_of_climbs hsome hclimb

/-- An old entry of the node is moved to one of its own ancestors. -/
theorem climbs_new (h : Turn g root rank order idom v d) {e : Nat} (he : entry idom v = some e) :
    Climbs idom e d :=
  h.sweeping.above v e d h.ne he h.common

theorem isSome_kept (h : Turn g root rank order idom v d) (hw : (entry idom w).isSome) :
    (entry (idom.setIfInBounds v (some d)) w).isSome := by
  rw [h.entry_eq]
  split
  · rfl
  · exact hw

theorem descending (h : Turn g root rank order idom v d) :
    Descending root rank order (idom.setIfInBounds v (some d)) where
  rooted := by rw [h.entry_eq, if_neg h.ne.symm, h.sweeping.rooted]
  listed := by
    intro w e hw
    rw [h.entry_eq] at hw
    split at hw
    · next hwv => exact hwv ▸ h.mem
    · exact h.sweeping.listed w e hw
  falls := by
    intro w e hw hne
    rw [h.entry_eq] at hw
    split at hw
    · next hwv =>
        rw [hwv, ← Option.some.inj hw]
        exact h.rank_lt
    · exact h.sweeping.falls w e hw hne
  closed := by
    intro w e hw
    refine h.isSome_kept ?_
    rw [h.entry_eq] at hw
    split at hw
    · rw [← Option.some.inj hw]
      exact h.isSome_entry
    · exact h.sweeping.closed w e hw

/-- A climb that ends at a rank from the node's on does not use its entry. -/
theorem climbs_of_le (h : Turn g root rank order idom v d) (hclimb : Climbs idom w a)
    (hle : rank v ≤ rank a) : Climbs (idom.setIfInBounds v (some d)) w a := by
  refine hclimb.congr ?_
  intro x _ hxa hne
  have hlt := h.sweeping.lt_of_climbs h.ranked hxa hne.symm
  rw [h.entry_eq, if_neg]
  rintro rfl
  omega

theorem climbs_before_of_le (h : Turn g root rank order idom v d)
    (hclimb : Climbs (idom.setIfInBounds v (some d)) w a) (hle : rank v ≤ rank a) :
    Climbs idom w a := by
  refine hclimb.congr ?_
  intro x _ hxa hne
  have hlt := h.descending.lt_of_climbs h.ranked hxa hne.symm
  rw [h.entry_eq, if_neg]
  rintro rfl
  omega

/-- A climb that starts at a rank before the node's does not use its entry. -/
theorem climbs_iff_of_lt (h : Turn g root rank order idom v d) (hlt : rank w < rank v) :
    Climbs (idom.setIfInBounds v (some d)) w a ↔ Climbs idom w a := by
  constructor
  · intro hclimb
    refine hclimb.congr ?_
    intro x hwx _ _
    have hle := h.descending.le_of_climbs hwx
    rw [h.entry_eq, if_neg]
    rintro rfl
    omega
  · intro hclimb
    refine hclimb.congr ?_
    intro x hwx _ _
    have hle := h.sweeping.le_of_climbs hwx
    rw [h.entry_eq, if_neg]
    rintro rfl
    omega

/-- A node that had an entry has no new ancestors. -/
theorem climbs_before (h : Turn g root rank order idom v d) (hw : (entry idom w).isSome)
    (hclimb : Climbs (idom.setIfInBounds v (some d)) w a) : Climbs idom w a := by
  have hboth : (entry idom a).isSome ∧ Climbs idom w a := by
    refine hclimb.induction_on
      (motive := fun a => (entry idom a).isSome ∧ Climbs idom w a) ⟨hw, .refl w⟩ ?_
    rintro x y - ⟨hx, hwx⟩ hxy
    rw [h.entry_eq] at hxy
    split at hxy
    · next hxv =>
        subst hxv
        obtain rfl := Option.some.inj hxy
        obtain ⟨e, he⟩ := Option.isSome_iff_exists.1 hx
        exact ⟨h.isSome_entry, hwx.trans ((Climbs.of_entry he).trans (h.climbs_new he))⟩
    · exact ⟨h.sweeping.closed x y hxy, hwx.trans (Climbs.of_entry hxy)⟩
  exact hboth.2

theorem passed (h : Turn g root rank order idom v d) :
    ∀ w ∈ order, rank w < rank v + 1 →
      (entry (idom.setIfInBounds v (some d)) w).isSome := by
  intro w hw hlt
  by_cases hwv : w = v
  · rw [h.entry_eq, if_pos hwv]
    rfl
  · have hne : rank w ≠ rank v := fun heq => hwv (h.ranked.inj hw h.mem heq)
    exact h.isSome_kept (h.sweeping.passed w hw (by omega))

theorem current (h : Turn g root rank order idom v d) (u w a : Nat) (hedge : g.Edge u w)
    (huw : rank u < rank w) (hw : w ≠ root)
    (hsome : (entry (idom.setIfInBounds v (some d)) w).isSome)
    (hclimb : Climbs (idom.setIfInBounds v (some d)) w a) (hne : a ≠ w)
    (hplace : rank w < rank v + 1 ∨ rank v + 1 ≤ rank a) :
    Climbs (idom.setIfInBounds v (some d)) u a := by
  by_cases hwv : w = v
  · -- the ancestors of the node are now those of `d`, which are common to its predecessors
    subst hwv
    rcases Settled.climbs_cases hclimb with rfl | ⟨e, he, hea⟩
    · exact absurd rfl hne
    · rw [h.entry_eq, if_pos rfl] at he
      obtain rfl := Option.some.inj he
      have hda := (h.climbs_iff_of_lt h.rank_lt).1 hea
      have hu := h.ranked.mem_of_lt u (Nat.lt_trans huw (h.ranked.lt_length h.mem))
      have hud := h.common u hedge (h.sweeping.passed u hu huw)
      exact (h.climbs_iff_of_lt huw).2 (hud.trans hda)
  · have hwsome : (entry idom w).isSome := by
      rw [h.entry_eq, if_neg hwv] at hsome
      exact hsome
    have hnerank : rank w ≠ rank v :=
      fun heq => hwv (h.ranked.inj (h.sweeping.mem_order hwsome) h.mem heq)
    by_cases hlt : rank w < rank v
    · have hwa := (h.climbs_iff_of_lt hlt).1 hclimb
      have hua := h.sweeping.current u w a hedge huw hw hwsome hwa hne (.inl hlt)
      exact (h.climbs_iff_of_lt (by omega)).2 hua
    · have hle : rank v ≤ rank a := by omega
      have hwa := h.climbs_before_of_le hclimb hle
      exact h.climbs_of_le (h.sweeping.current u w a hedge huw hw hwsome hwa hne (.inr hle)) hle

theorem above (h : Turn g root rank order idom v d) (w e a : Nat) (hw : w ≠ root)
    (he : entry (idom.setIfInBounds v (some d)) w = some e)
    (hall : ∀ u, g.Edge u w → (entry (idom.setIfInBounds v (some d)) u).isSome →
      Climbs (idom.setIfInBounds v (some d)) u a) :
    Climbs (idom.setIfInBounds v (some d)) e a := by
  have hbefore : ∀ u, g.Edge u w → (entry idom u).isSome → Climbs idom u a :=
    fun u hedge hu => h.climbs_before hu (hall u hedge (h.isSome_kept hu))
  rw [h.entry_eq] at he
  split at he
  · next hwv =>
      obtain rfl := Option.some.inj he
      exact (h.climbs_iff_of_lt h.rank_lt).2 (h.nearest a (hwv ▸ hbefore))
  · next hwv =>
      have hea := h.sweeping.above w e a hw he hbefore
      by_cases hev : Climbs idom e v
      · -- the node moved below `w`: `a` and it are both above a predecessor of `w`
        have hwsome : (entry idom w).isSome := by simp [he]
        have hwv' : Climbs idom w v := (Climbs.of_entry he).trans hev
        obtain ⟨u, -, hedge, huw⟩ := h.ranked.exists_before (h.sweeping.mem_order hwsome) hw
        have huv := h.sweeping.current u w v hedge huw hw hwsome hwv' (Ne.symm hwv)
          (.inr (Nat.le_refl _))
        have husome := huv.isSome_start (h.sweeping.isSome_of_climbs hwsome hwv')
        have hua := hall u hedge (h.isSome_kept husome)
        rcases (h.climbs_of_le huv (Nat.le_refl _)).total hua with hva | hav
        · exact (h.climbs_of_le hev (Nat.le_refl _)).trans hva
        · exact h.climbs_of_le hea (h.descending.le_of_climbs hav)
      · refine hea.congr ?_
        intro x hex _ _
        rw [h.entry_eq, if_neg]
        rintro rfl
        exact hev hex

/-- A node's turn brings the sweep to the next place. -/
theorem step (h : Turn g root rank order idom v d) :
    Sweeping g root rank order (rank v + 1) (idom.setIfInBounds v (some d)) where
  toDescending := h.descending
  size_eq := by rw [Array.size_setIfInBounds, h.sweeping.size_eq]
  passed := h.passed
  current := h.current
  above := h.above

/-- A node's turn raises the rank of no entry. -/
theorem entryRank_le (h : Turn g root rank order idom v d) (w : Nat) :
    entryRank rank order (idom.setIfInBounds v (some d)) w ≤ entryRank rank order idom w := by
  simp only [entryRank, h.entry_eq]
  split
  · next hwv =>
      subst hwv
      cases he : entry idom w with
      | none => exact Nat.le_of_lt (Nat.lt_trans h.rank_lt (h.ranked.lt_length h.mem))
      | some e => exact h.sweeping.le_of_climbs (h.climbs_new he)
  · exact Nat.le_refl _

end Turn

/-- Each node of a sweep gets its turn. -/
theorem exists_turn (h : Sweeping g root rank order (rank v) idom) (hg : g.Consistent)
    (horder : Ranked g root rank order) (hv : v ∈ order) (hne : v ≠ root) :
    ∃ d, refine? g rank idom v = some (idom.setIfInBounds v (some d)) ∧
      Turn g root rank order idom v d := by
  obtain ⟨u, hu, hedge, hlt⟩ := horder.exists_before hv hne
  obtain ⟨d, hrefine, hcommon, hnearest⟩ :=
    h.exists_refine? hg horder hedge (h.passed u hu hlt)
  exact ⟨d, hrefine, horder, h, hv, hne, hcommon, hnearest⟩

/-- A sweep that is not at its end gives the next node its turn. -/
theorem exists_next (h : Sweeping g root rank order k idom) (hg : g.Consistent)
    (horder : Ranked g root rank order) (hk : 0 < k) {rest : List Nat}
    (hrest : order.drop k = v :: rest) :
    rank v = k ∧ order.drop (rank v + 1) = rest ∧
      ∃ d, refine? g rank idom v = some (idom.setIfInBounds v (some d)) ∧
        Turn g root rank order idom v d := by
  have hplace : order[k]? = some v := by
    rw [← List.head?_drop, hrest]
    rfl
  obtain rfl := horder.place k v hplace
  have hne : v ≠ root := by
    rintro rfl
    rw [horder.rank_root] at hk
    exact Nat.lt_irrefl _ hk
  refine ⟨rfl, ?_, h.exists_turn hg horder (List.mem_of_getElem? hplace) hne⟩
  rw [← List.tail_drop, hrest]
  rfl

/-- A sweep goes through to its end, and raises the rank of no entry. -/
theorem exists_sweep (hg : g.Consistent) (horder : Ranked g root rank order) (rest : List Nat)
    (hrest : order.drop k = rest) (hk : 0 < k) (h : Sweeping g root rank order k idom) :
    ∃ next, rest.foldlM (refine? g rank) idom = some next ∧
      Sweeping g root rank order order.length next ∧
      ∀ v, entryRank rank order next v ≤ entryRank rank order idom v := by
  induction rest generalizing k idom with
  | nil =>
      have hle : order.length ≤ k := List.drop_eq_nil_iff.1 hrest
      refine ⟨idom, rfl, { h with passed := ?_, current := ?_ }, fun v => Nat.le_refl _⟩
      · intro v hv hlt
        exact h.passed v hv (Nat.lt_of_lt_of_le hlt hle)
      · intro u w a hedge huw hw hsome hclimb hne _
        have hlt := horder.lt_length (h.mem_order hsome)
        exact h.current u w a hedge huw hw hsome hclimb hne (.inl (Nat.lt_of_lt_of_le hlt hle))
  | cons v rest ih =>
      obtain ⟨rfl, hdrop, d, hrefine, hturn⟩ := h.exists_next hg horder hk hrest
      obtain ⟨next, hnext, hsweeping, hle⟩ := ih hdrop (Nat.succ_pos _) hturn.step
      refine ⟨next, by rw [List.foldlM_cons, hrefine]; exact hnext, hsweeping, ?_⟩
      intro w
      exact Nat.le_trans (hle w) (hturn.entryRank_le w)

theorem of_sweep (hg : g.Consistent) (horder : Ranked g root rank order) (rest : List Nat)
    (hrest : order.drop k = rest) (hk : 0 < k) (h : Sweeping g root rank order k idom)
    (hfold : rest.foldlM (refine? g rank) idom = some next) :
    Sweeping g root rank order order.length next ∧
      ∀ v, entryRank rank order next v ≤ entryRank rank order idom v := by
  obtain ⟨last, hlast, hdone, hle⟩ := exists_sweep hg horder rest hrest hk h
  obtain rfl := Option.some.inj (hfold.symm.trans hlast)
  exact ⟨hdone, hle⟩

/-- A finished sweep can be followed by another one. -/
theorem restart (h : Sweeping g root rank order order.length idom)
    (horder : Ranked g root rank order) : Sweeping g root rank order 1 idom :=
  { h with
    passed := fun v hv _ => h.passed v hv (horder.lt_length hv)
    current := fun u w a hedge huw hw hsome hclimb hne _ =>
      h.current u w a hedge huw hw hsome hclimb hne (.inl (horder.lt_length (h.mem_order hsome))) }

/-- Entries of different nodes count differently. -/
theorem entry_eq_of_entryRank_eq (h : Descending root rank order idom)
    (h' : Descending root rank order next) (horder : Ranked g root rank order) {v : Nat}
    (heq : entryRank rank order next v = entryRank rank order idom v) :
    entry next v = entry idom v := by
  have hlt : ∀ {idom}, Descending root rank order idom → ∀ d, entry idom v = some d →
      d ∈ order ∧ rank d < order.length := by
    intro idom h d hd
    have hmem := h.mem_order (h.closed v d hd)
    exact ⟨hmem, horder.lt_length hmem⟩
  unfold entryRank at heq
  cases hd : entry idom v with
  | none =>
      cases he : entry next v with
      | none => rfl
      | some e =>
          rw [hd, he] at heq
          exact absurd heq (Nat.ne_of_lt (hlt h' e he).2)
  | some d =>
      cases he : entry next v with
      | none =>
          rw [hd, he] at heq
          exact absurd heq (Nat.ne_of_gt (hlt h d hd).2)
      | some e =>
          rw [hd, he] at heq
          rw [horder.inj (hlt h' e he).1 (hlt h d hd).1 heq]

end Sweeping

theorem totalWeight_le {weight weight' : Nat → Nat} (hle : ∀ v, weight v ≤ weight' v)
    (nodes : List Nat) : totalWeight weight nodes ≤ totalWeight weight' nodes := by
  induction nodes with
  | nil => exact Nat.le_refl _
  | cons v nodes ih => exact Nat.add_le_add (hle v) ih

theorem totalWeight_lt {weight weight' : Nat → Nat} (hle : ∀ v, weight v ≤ weight' v)
    {nodes : List Nat} {v : Nat} (hv : v ∈ nodes) (hlt : weight v < weight' v) :
    totalWeight weight nodes < totalWeight weight' nodes := by
  induction nodes with
  | nil => exact absurd hv List.not_mem_nil
  | cons u nodes ih =>
      rcases List.mem_cons.1 hv with rfl | hv
      · exact Nat.add_lt_add_of_lt_of_le hlt (totalWeight_le hle nodes)
      · exact Nat.add_lt_add_of_le_of_lt (hle u) (ih hv)

namespace Sweeping

/-- A sweep that changes something lowers the total rank. -/
theorem totalRank_lt (horder : Ranked g root rank order) {k' : Nat}
    (h : Sweeping g root rank order k idom) (h' : Sweeping g root rank order k' next)
    (hle : ∀ v, entryRank rank order next v ≤ entryRank rank order idom v) (hne : next ≠ idom) :
    totalRank rank order next < totalRank rank order idom := by
  obtain ⟨v, hv⟩ : ∃ v, entry next v ≠ entry idom v := by
    by_contra hnone
    push Not at hnone
    exact hne (eq_of_entry_eq (h'.size_eq.trans h.size_eq.symm) hnone)
  have hmem : v ∈ order := by
    by_contra hnot
    have hnone : ∀ {idom}, Descending root rank order idom → entry idom v = none := by
      intro idom h
      rw [← Option.not_isSome_iff_eq_none]
      exact fun hsome => hnot (h.mem_order hsome)
    exact hv ((hnone h'.toDescending).trans (hnone h.toDescending).symm)
  refine totalWeight_lt hle hmem (Nat.lt_of_le_of_ne (hle v) ?_)
  exact fun heq => hv (entry_eq_of_entryRank_eq h.toDescending h'.toDescending horder heq)

/-- The sweeps come to an end. -/
theorem exists_settle? (hg : g.Consistent) (horder : Ranked g root rank order)
    (h : Sweeping g root rank order 1 idom) : ∃ next, settle? g rank order idom = some next := by
  have hsweep {idom next : Array (Option Nat)} (h : Sweeping g root rank order 1 idom)
      (hfold : order.tail.foldlM (refine? g rank) idom = some next) :=
    of_sweep hg horder order.tail List.drop_one Nat.one_pos h hfold
  fun_induction settle? g rank order idom with
  | case1 idom hnone =>
      obtain ⟨next, hnext, -⟩ :=
        exists_sweep hg horder order.tail List.drop_one Nat.one_pos h
      rw [hnone] at hnext
      cases hnext
  | case2 idom hfold => exact ⟨idom, rfl⟩
  | case3 idom next hfold hne hlt ih => exact ih ((hsweep h hfold).1.restart horder)
  | case4 idom next hfold hne hnot =>
      obtain ⟨hdone, hle⟩ := hsweep h hfold
      exact absurd (totalRank_lt horder h hdone hle hne) hnot

/-- Before the first sweep only the root has an entry. -/
theorem start (horder : Ranked g root rank order) :
    Sweeping g root rank order 1
      ((Array.replicate g.size none).setIfInBounds root (some root)) := by
  have hroot : root ∈ order := List.mem_of_getElem? horder.first
  have hentry : ∀ w, entry ((Array.replicate g.size none).setIfInBounds root (some root)) w =
      if w = root then some root else none := by
    intro w
    rw [entry_setIfInBounds _ (by simpa using horder.inRange root hroot)]
    by_cases hw : w < g.size <;> simp [entry, hw]
  have hroot_of_isSome : ∀ {w d}, entry ((Array.replicate g.size none).setIfInBounds root
      (some root)) w = some d → w = root ∧ d = root := by
    intro w d hd
    rw [hentry] at hd
    split at hd
    · next hw => exact ⟨hw, (Option.some.inj hd).symm⟩
    · cases hd
  constructor
  · constructor
    · rw [hentry, if_pos rfl]
    · intro v d hd
      exact (hroot_of_isSome hd).1 ▸ hroot
    · intro v d hd hne
      exact absurd (hroot_of_isSome hd).1 hne
    · intro v d hd
      rw [(hroot_of_isSome hd).2, hentry, if_pos rfl]
      rfl
  · simp
  · intro v hv hlt
    by_cases hne : v = root
    · rw [hne, hentry, if_pos rfl]
      rfl
    · exact absurd (horder.pos hv hne) (by omega)
  · intro u w a _ _ hne hsome
    obtain ⟨d, hd⟩ := Option.isSome_iff_exists.1 hsome
    exact absurd (hroot_of_isSome hd).1 hne
  · intro w d a hne hd
    exact absurd (hroot_of_isSome hd).1 hne

end Sweeping

/-- Depth-first order ranks the nodes as the sweeps need it. -/
theorem ranked_reversePostorder (hroot : root < g.size) :
    Ranked g root (fun v => (reversePostorder g.succs root).idxOf v)
      (reversePostorder g.succs root) := by
  have hfirst := reversePostorder_parentsFirst g.succs root
  obtain ⟨rest, horder⟩ : ∃ rest, reversePostorder g.succs root = root :: rest :=
    reversePostorder_eq_cons hroot
  constructor
  · rw [horder]
    rfl
  · intro k v hk
    obtain ⟨hlt, rfl⟩ := List.getElem?_eq_some_iff.1 hk
    exact hfirst.nodup.idxOf_getElem k hlt
  · intro v hlt
    exact List.idxOf_lt_length_iff.1 hlt
  · exact hfirst.inRange
  · intro v hv hne
    obtain ⟨u, -, hedge, hlt⟩ := hfirst.exists_lt hv hne
    exact ⟨u, hedge.1, hlt⟩

/-- The entries of a consistent graph are always found. -/
theorem exists_idoms? (hg : g.Consistent) (hroot : root < g.size) :
    ∃ idom, idoms? g root = some idom :=
  (Sweeping.start (ranked_reversePostorder hroot)).exists_settle? hg
    (ranked_reversePostorder hroot)

end Digraph

end Decouple
