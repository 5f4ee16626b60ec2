import Decouple.Digraph.Postorder
import Decouple.Proofs.Walks

/-!
# What a depth-first search lists

The nodes of `reversePostorder succs root` are those that the root leads to, each
once, and every node but the root stands after one of its predecessors.

While the search is underway, the nodes that it has entered and not left are
those that the agenda still leaves. They will be listed before everything that
has been listed so far, the one to be left last in front; `listed` is that list.
Leaving a node does not change it, and entering one puts the node behind the
nodes from which it was reached. So it only ever grows, and an order between two
of its nodes is final. `Underway` says what holds of it at every step.
-/

namespace Decouple

namespace Digraph

variable {succs : Array (List Nat)} {root u v : Nat} {agenda rest : List Step}
  {seen done order : List Nat}

/-- A step from a node to one of its successors that the search can take. -/
def SearchEdge (succs : Array (List Nat)) (u v : Nat) : Prop :=
  v ∈ succs[u]?.getD [] ∧ v < succs.size

/-- The nodes that an agenda still leaves, in that order. -/
def leaving : List Step → List Nat
  | [] => []
  | .enter _ :: rest => leaving rest
  | .leave v :: rest => v :: leaving rest

/-- The nodes entered so far, in the order in which they will be listed. -/
def listed (agenda : List Step) (done : List Nat) : List Nat :=
  (leaving agenda).reverse ++ done

/-- Every node that is still to be entered is the root, or a successor of a node
that is left later. -/
def Pending (succs : Array (List Nat)) (root : Nat) : List Step → Prop
  | [] => True
  | .enter v :: rest =>
      (v = root ∨ ∃ u ∈ leaving rest, v ∈ succs[u]?.getD []) ∧ Pending succs root rest
  | .leave _ :: rest => Pending succs root rest

theorem leaving_map_enter (nodes : List Nat) (rest : List Step) :
    leaving (nodes.map .enter ++ rest) = leaving rest := by
  induction nodes with
  | nil => rfl
  | cons w nodes ih => exact ih

theorem listed_leave (v : Nat) (rest : List Step) (done : List Nat) :
    listed (.leave v :: rest) done = listed rest (v :: done) := by
  simp [listed, leaving]

theorem Pending.enter_all (nodes : List Nat) (hnodes : ∀ w ∈ nodes, w ∈ succs[v]?.getD [])
    (h : Pending succs root rest) :
    Pending succs root (nodes.map .enter ++ .leave v :: rest) := by
  induction nodes with
  | nil => exact h
  | cons w nodes ih =>
      refine ⟨.inr ⟨v, ?_, hnodes w (List.mem_cons_self ..)⟩, ih ?_⟩
      · change v ∈ leaving (nodes.map .enter ++ .leave v :: rest)
        rw [leaving_map_enter]
        exact List.mem_cons_self ..
      · intro x hx
        exact hnodes x (List.mem_cons_of_mem _ hx)

/-- A list of nodes, each once, in which every node but the root comes after one of
its predecessors. -/
structure ParentsFirst (succs : Array (List Nat)) (root : Nat) (order : List Nat) : Prop where
  nodup : order.Nodup
  inRange : ∀ v ∈ order, v < succs.size
  parent : ∀ v ∈ order, v ≠ root → ∃ u, SearchEdge succs u v ∧ [u, v].Sublist order

/-- What holds at every step of a search from the root. -/
structure Underway (succs : Array (List Nat)) (root : Nat) (agenda : List Step)
    (seen done : List Nat) : Prop extends ParentsFirst succs root (listed agenda done) where
  seen_iff : ∀ v, v ∈ seen ↔ v ∈ listed agenda done
  pending : Pending succs root agenda
  closed : ∀ u ∈ listed agenda done, ∀ v, SearchEdge succs u v → v ∈ seen ∨ .enter v ∈ agenda
  rooted : root < succs.size → root ∈ seen ∨ .enter root ∈ agenda

theorem Underway.start (succs : Array (List Nat)) (root : Nat) :
    Underway succs root [.enter root] [] [] where
  nodup := List.nodup_nil
  inRange := by simp [listed, leaving]
  parent := by simp [listed, leaving]
  seen_iff := by simp [listed, leaving]
  pending := ⟨.inl rfl, trivial⟩
  closed := by simp [listed, leaving]
  rooted := fun _ => .inr (List.mem_singleton.2 rfl)

/-- Leaving a node keeps what is listed. -/
theorem Underway.leave (h : Underway succs root (.leave v :: rest) seen done) :
    Underway succs root rest seen (v :: done) where
  nodup := listed_leave v rest done ▸ h.nodup
  inRange := listed_leave v rest done ▸ h.inRange
  parent := listed_leave v rest done ▸ h.parent
  seen_iff := listed_leave v rest done ▸ h.seen_iff
  pending := h.pending
  closed := by
    intro u hu w hedge
    rw [← listed_leave] at hu
    simpa using h.closed u hu w hedge
  rooted := by
    intro hroot
    simpa using h.rooted hroot

/-- Passing over a node that is seen already, or is no node. -/
theorem Underway.skip (h : Underway succs root (.enter v :: rest) seen done)
    (hskip : ¬ (v < succs.size ∧ v ∉ seen)) : Underway succs root rest seen done where
  nodup := h.nodup
  inRange := h.inRange
  parent := h.parent
  seen_iff := h.seen_iff
  pending := h.pending.2
  closed := by
    intro u hu w hedge
    rcases h.closed u hu w hedge with hw | hw
    · exact .inl hw
    · rcases List.mem_cons.1 hw with heq | hw
      · cases heq
        exact .inl (not_not.1 fun hnot => hskip ⟨hedge.2, hnot⟩)
      · exact .inr hw
  rooted := by
    intro hroot
    rcases h.rooted hroot with hw | hw
    · exact .inl hw
    · rcases List.mem_cons.1 hw with heq | hw
      · cases heq
        exact .inl (not_not.1 fun hnot => hskip ⟨hroot, hnot⟩)
      · exact .inr hw

/-- Entering a node puts it behind the nodes that are left later. -/
theorem listed_enter (succs : Array (List Nat)) (v : Nat) (rest : List Step) (done : List Nat) :
    listed ((succs[v]?.getD []).reverse.map .enter ++ .leave v :: rest) done =
      (leaving rest).reverse ++ v :: done := by
  rw [listed, leaving_map_enter]
  simp [leaving]

theorem mem_listed_enter_iff {x : Nat} :
    x ∈ listed ((succs[v]?.getD []).reverse.map .enter ++ .leave v :: rest) done ↔
      x = v ∨ x ∈ listed (.enter v :: rest) done := by
  have hbefore : listed (.enter v :: rest) done = (leaving rest).reverse ++ done := rfl
  rw [hbefore, listed_enter]
  simp only [List.mem_append, List.mem_cons]
  tauto

/-- Entering a node leaves parents first: the node comes behind the one it is entered from. -/
theorem ParentsFirst.enter (h : ParentsFirst succs root (listed (.enter v :: rest) done))
    (hpending : Pending succs root (.enter v :: rest)) (hrange : v < succs.size)
    (hnew : v ∉ listed (.enter v :: rest) done) :
    ParentsFirst succs root
      (listed ((succs[v]?.getD []).reverse.map .enter ++ .leave v :: rest) done) where
  nodup := by
    rw [listed_enter, List.nodup_middle]
    exact List.nodup_cons.2 ⟨hnew, h.nodup⟩
  inRange := by
    intro x hx
    rcases mem_listed_enter_iff.1 hx with rfl | hx
    · exact hrange
    · exact h.inRange x hx
  parent := by
    intro x hx hxroot
    rw [listed_enter]
    rcases mem_listed_enter_iff.1 hx with rfl | hx
    · obtain hx | ⟨u, hu, hedge⟩ := hpending.1
      · exact absurd hx hxroot
      · have hleft : [u].Sublist (leaving rest).reverse :=
          List.singleton_sublist.2 (List.mem_reverse.2 hu)
        exact ⟨u, ⟨hedge, hrange⟩,
          hleft.append (List.singleton_sublist.2 (List.mem_cons_self ..))⟩
    · obtain ⟨u, hedge, hsub⟩ := h.parent x hx hxroot
      exact ⟨u, hedge, hsub.trans ((List.Sublist.refl _).append (List.sublist_cons_self _ _))⟩

/-- Entering a node keeps the order of what is listed and announces its successors. -/
theorem Underway.enter (h : Underway succs root (.enter v :: rest) seen done)
    (hrange : v < succs.size) (hnew : v ∉ seen) :
    Underway succs root ((succs[v]?.getD []).reverse.map .enter ++ .leave v :: rest)
      (v :: seen) done := by
  have hkept : ∀ w, w ∈ seen ∨ Step.enter w ∈ Step.enter v :: rest → w ∈ v :: seen ∨
      Step.enter w ∈ (succs[v]?.getD []).reverse.map .enter ++ .leave v :: rest := by
    rintro w (hw | hw)
    · exact .inl (List.mem_cons_of_mem _ hw)
    · rcases List.mem_cons.1 hw with heq | hw
      · cases heq
        exact .inl (List.mem_cons_self ..)
      · right
        simp [hw]
  refine ⟨h.toParentsFirst.enter h.pending hrange (mt (h.seen_iff v).2 hnew), ?_, ?_, ?_, ?_⟩
  · intro x
    rw [mem_listed_enter_iff, List.mem_cons, h.seen_iff]
  · exact Pending.enter_all _ (fun w hw => List.mem_reverse.1 hw) h.pending.2
  · intro x hx w hedge
    rcases mem_listed_enter_iff.1 hx with rfl | hx
    · right
      simp [hedge.1]
    · exact hkept w (h.closed x hx w hedge)
  · exact fun hroot => hkept root (h.rooted hroot)

/-- A finished search lists its nodes with parents first, and with each node all its
successors. -/
theorem Underway.search (h : Underway succs root agenda seen done) :
    ParentsFirst succs root (search succs agenda seen done) ∧
      (∀ u ∈ Digraph.search succs agenda seen done, ∀ v, SearchEdge succs u v →
        v ∈ Digraph.search succs agenda seen done) ∧
      (root < succs.size → root ∈ Digraph.search succs agenda seen done) := by
  fun_induction Digraph.search succs agenda seen done with
  | case1 seen done =>
      refine ⟨h.toParentsFirst, ?_, ?_⟩
      · intro u hu v hedge
        have hv := h.closed u hu v hedge
        simpa [h.seen_iff, listed, leaving] using hv
      · intro hroot
        have hr := h.rooted hroot
        simpa [h.seen_iff, listed, leaving] using hr
  | case2 v rest seen done ih => exact ih h.leave
  | case3 v rest seen done hv ih => exact ih (h.enter hv.1 hv.2)
  | case4 v rest seen done hv ih => exact ih (h.skip hv)

theorem reversePostorder_parentsFirst (succs : Array (List Nat)) (root : Nat) :
    ParentsFirst succs root (reversePostorder succs root) :=
  (Underway.start succs root).search.1

namespace ParentsFirst

/-- The predecessor that comes first has the smaller position. -/
theorem exists_lt (h : ParentsFirst succs root order) (hv : v ∈ order) (hne : v ≠ root) :
    ∃ u ∈ order, SearchEdge succs u v ∧ order.idxOf u < order.idxOf v := by
  obtain ⟨u, hedge, hsub⟩ := h.parent v hv hne
  have hpositions : order.Pairwise fun x y => order.idxOf x < order.idxOf y := by
    rw [List.pairwise_iff_getElem]
    intro i j hi hj hij
    rw [h.nodup.idxOf_getElem, h.nodup.idxOf_getElem]
    exact hij
  have hpair := hpositions.sublist hsub
  exact ⟨u, hsub.subset (List.mem_cons_self ..), hedge, by simpa using hpair⟩

/-- Going back from predecessor to predecessor leads to the root: every listed node
is at the end of a walk from the root on which the positions of all other nodes
are smaller. -/
theorem exists_walk (h : ParentsFirst succs root order) (hv : v ∈ order) :
    ∃ visited, Walk (SearchEdge succs) root v visited ∧
      ∀ x ∈ visited, x = v ∨ order.idxOf x < order.idxOf v := by
  induction hn : order.idxOf v using Nat.strongRecOn generalizing v with
  | _ n ih =>
      subst hn
      by_cases hroot : v = root
      · subst hroot
        exact ⟨[v], .stay v, fun x hx => .inl (List.mem_singleton.1 hx)⟩
      · obtain ⟨u, hu, hedge, hlt⟩ := h.exists_lt hv hroot
        obtain ⟨visited, hwalk, hsmall⟩ := ih _ hlt hu rfl
        refine ⟨visited ++ [v], hwalk.snoc hedge, ?_⟩
        intro x hx
        rcases List.mem_append.1 hx with hx | hx
        · right
          rcases hsmall x hx with rfl | hxu
          · exact hlt
          · exact Nat.lt_trans hxu hlt
        · exact .inl (List.mem_singleton.1 hx)

end ParentsFirst

/-- A search lists the nodes that the root leads to. -/
theorem mem_reversePostorder_iff (hroot : root < succs.size) :
    v ∈ reversePostorder succs root ↔ Reaches (SearchEdge succs) root v := by
  obtain ⟨hfirst, hclosed, hrooted⟩ := (Underway.start succs root).search
  constructor
  · intro hv
    obtain ⟨visited, hwalk, -⟩ := hfirst.exists_walk hv
    exact ⟨visited, hwalk⟩
  · intro hreach
    exact hreach.induction_on (hrooted hroot) fun x y _ hx hedge => hclosed x hx y hedge

/-- The root is listed first. -/
theorem reversePostorder_eq_cons (hroot : root < succs.size) :
    ∃ rest, reversePostorder succs root = root :: rest := by
  have hfirst := reversePostorder_parentsFirst succs root
  have hmem : root ∈ reversePostorder succs root :=
    (mem_reversePostorder_iff hroot).2 (.refl root)
  cases horder : reversePostorder succs root with
  | nil => simp [horder] at hmem
  | cons x rest =>
      by_cases hx : x = root
      · exact ⟨rest, by rw [hx]⟩
      · rw [horder] at hfirst
        obtain ⟨u, -, -, hlt⟩ := hfirst.exists_lt (List.mem_cons_self ..) hx
        simp at hlt

end Digraph

end Decouple
