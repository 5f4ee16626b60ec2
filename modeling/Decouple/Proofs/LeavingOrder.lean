import Decouple.Proofs.DepthFirst

/-!
# The order in which a search leaves its nodes

`postorder succs root` is a depth-first postorder (`IsPostorder`): it lists the nodes that the root
leads to, each once and the root last, every node before one of its predecessors, and an edge that
leads to a node listed later, or to the node itself, lies on a cycle.

The last point is about the nodes that a search has entered and not left. Each of them leads to
those entered after it and to what is still to be entered from there (`Descends`), and before a
node is left, all its successors are entered (`Covered`). So a successor of a node that is left is
listed already, or it is one of the nodes that lead to it.

`StackSearch` is the same search with a stack. It takes in less than an agenda does: a successor
that was seen before is not pushed at all. What is left out would have been passed over
(`Thins`), so the run of the stack ends with the same list, and it ends after no more steps than
`agendaWeight` counts (`Thins.exists_run`).
-/

namespace Decouple

namespace Digraph

variable {succs : Array (List Nat)} {root u v : Nat} {agenda rest stack : List Step}
  {seen done : List Nat}

/-- A search with a stack: the steps to take, the top of the stack first, the nodes that were
entered, and those that were left, in this order. -/
structure StackSearch where
  stack : List Step
  seen : List Nat
  left : List Nat
deriving DecidableEq, Repr

namespace StackSearch

def start (root : Nat) : StackSearch := ⟨[.enter root], [], []⟩

/-- The successors of `v` that are pushed when it is entered. -/
def unseen (succs : Array (List Nat)) (seen : List Nat) (v : Nat) : List Nat :=
  (succs[v]?.getD []).filter fun w => w < succs.size ∧ w ∉ seen

/-- The search after one step, unless the stack is empty. A node that is entered stays on the
stack, marked as one to leave, and its successors are pushed on top of it. -/
def next? (succs : Array (List Nat)) : StackSearch → Option StackSearch
  | ⟨[], _, _⟩ => none
  | ⟨.leave v :: rest, seen, left⟩ => some ⟨rest, seen, left ++ [v]⟩
  | ⟨.enter v :: rest, seen, left⟩ =>
      if v < succs.size ∧ v ∉ seen then
        some ⟨(unseen succs (v :: seen) v).reverse.map .enter ++ .leave v :: rest, v :: seen, left⟩
      else
        some ⟨rest, seen, left⟩

def Next (succs : Array (List Nat)) (s t : StackSearch) : Prop := s.next? succs = some t

end StackSearch

/-- The stack has the steps of the agenda, but may lack some that would be passed over. -/
inductive Thins (succs : Array (List Nat)) (seen : List Nat) : List Step → List Step → Prop where
  | nil : Thins succs seen [] []
  | keep (step : Step) {agenda stack : List Step} :
      Thins succs seen agenda stack → Thins succs seen (step :: agenda) (step :: stack)
  | lack {v : Nat} {agenda stack : List Step} : ¬ (v < succs.size ∧ v ∉ seen) →
      Thins succs seen agenda stack → Thins succs seen (.enter v :: agenda) stack

namespace Thins

/-- What would be passed over is passed over later as well. -/
theorem cons_seen (h : Thins succs seen agenda stack) (v : Nat) :
    Thins succs (v :: seen) agenda stack := by
  induction h with
  | nil => exact .nil
  | keep step _ ih => exact .keep step ih
  | lack hskip _ ih =>
      refine .lack (fun hw => hskip ⟨hw.1, fun hseen => hw.2 ?_⟩) ih
      exact List.mem_cons_of_mem _ hseen

theorem enter_all (h : Thins succs seen agenda stack) (nodes : List Nat) :
    Thins succs seen (nodes.map .enter ++ agenda)
      ((nodes.filter fun w => w < succs.size ∧ w ∉ seen).map .enter ++ stack) := by
  induction nodes with
  | nil => exact h
  | cons w nodes ih =>
      by_cases hw : w < succs.size ∧ w ∉ seen
      · rw [List.filter_cons_of_pos (by simpa using hw)]
        exact .keep (.enter w) ih
      · rw [List.filter_cons_of_neg (by simpa using hw)]
        exact .lack hw ih

/-- Entering a node puts the same steps on the stack as on the agenda, but for some that would be
passed over. -/
theorem enter (h : Thins succs seen rest stack) (v : Nat) :
    Thins succs (v :: seen) ((succs[v]?.getD []).reverse.map .enter ++ .leave v :: rest)
      ((StackSearch.unseen succs (v :: seen) v).reverse.map .enter ++ .leave v :: stack) := by
  rw [StackSearch.unseen, ← List.filter_reverse]
  exact enter_all (.keep _ (h.cons_seen v)) _

/-- The run of the stack follows the search, step by step or ahead of it. -/
theorem exists_run (h : Thins succs seen agenda stack) (done : List Nat) :
    ∃ seen' visited, Walk (StackSearch.Next succs) ⟨stack, seen, done.reverse⟩
        ⟨[], seen', (search succs agenda seen done).reverse⟩ visited ∧
      visited.length ≤ agendaWeight succs agenda seen + 1 := by
  fun_induction search succs agenda seen done generalizing stack with
  | case1 seen done =>
      cases h
      exact ⟨seen, _, .stay _, by simp⟩
  | case2 v rest seen done ih =>
      cases h with
      | keep _ h =>
          obtain ⟨seen', visited, hwalk, hlength⟩ := ih h
          rw [List.reverse_cons] at hwalk
          refine ⟨seen', _, .step rfl hwalk, ?_⟩
          simp only [agendaWeight, List.length_cons] at hlength ⊢
          omega
  | case3 v rest seen done hv ih =>
      cases h with
      | keep _ h =>
          obtain ⟨seen', visited, hwalk, hlength⟩ := ih (h.enter v)
          refine ⟨seen', _, .step (if_pos hv) hwalk, ?_⟩
          have hweight := pendingWeight_cons succs hv.1 hv.2
          simp only [agendaWeight, List.length_append, List.length_map, List.length_reverse,
            List.length_cons] at hlength ⊢
          omega
      | lack hskip _ => exact absurd hv hskip
  | case4 v rest seen done hv ih =>
      have hweight :
          agendaWeight succs (.enter v :: rest) seen = agendaWeight succs rest seen + 1 := by
        simp only [agendaWeight, List.length_cons]
        omega
      cases h with
      | keep _ h =>
          obtain ⟨seen', visited, hwalk, hlength⟩ := ih h
          refine ⟨seen', _, .step (if_neg hv) hwalk, ?_⟩
          rw [List.length_cons]
          omega
      | lack _ h =>
          obtain ⟨seen', visited, hwalk, hlength⟩ := ih h
          exact ⟨seen', visited, hwalk, by omega⟩

end Thins

/-- Every node on the agenda can be reached from the nodes that are left after it. -/
def Descends (succs : Array (List Nat)) : List Step → Prop
  | [] => True
  | .enter v :: rest =>
      (v < succs.size → ∀ u ∈ leaving rest, Reaches (SearchEdge succs) u v) ∧ Descends succs rest
  | .leave v :: rest =>
      (∀ u ∈ leaving rest, Reaches (SearchEdge succs) u v) ∧ Descends succs rest

theorem Descends.enter_all (h : Descends succs (.leave v :: rest)) (nodes : List Nat)
    (hnodes : ∀ w ∈ nodes, w ∈ succs[v]?.getD []) :
    Descends succs (nodes.map .enter ++ .leave v :: rest) := by
  induction nodes with
  | nil => exact h
  | cons w nodes ih =>
      obtain ⟨hw, hnodes⟩ := List.forall_mem_cons.1 hnodes
      have hreach : ∀ u ∈ v :: leaving rest, w < succs.size → Reaches (SearchEdge succs) u w := by
        intro u hu hrange
        have hedge : SearchEdge succs v w := ⟨hw, hrange⟩
        rcases List.mem_cons.1 hu with rfl | hu
        · exact .of_edge hedge
        · exact (h.1 u hu).snoc hedge
      have hleaving : leaving (nodes.map .enter ++ .leave v :: rest) = v :: leaving rest :=
        leaving_map_enter nodes _
      exact ⟨fun hrange u hu => hreach u (hleaving ▸ hu) hrange, ih hnodes⟩

/-- When a node is left, all its successors have been entered: they are among the nodes `seen` so
far, or a step before takes them in. -/
def Covered (succs : Array (List Nat)) : List Nat → List Step → Prop
  | _, [] => True
  | seen, .enter v :: rest => Covered succs (v :: seen) rest
  | seen, .leave v :: rest => (∀ w, SearchEdge succs v w → w ∈ seen) ∧ Covered succs seen rest

namespace Covered

theorem mono {others : List Nat} (h : Covered succs seen agenda)
    (hsub : ∀ w ∈ seen, w < succs.size → w ∈ others) : Covered succs others agenda := by
  induction agenda generalizing seen others with
  | nil => trivial
  | cons step agenda ih =>
      cases step with
      | enter v =>
          refine ih h fun w hw hrange => ?_
          rcases List.mem_cons.1 hw with rfl | hw
          · exact List.mem_cons_self ..
          · exact List.mem_cons_of_mem _ (hsub w hw hrange)
      | leave v => exact ⟨fun w hedge => hsub w (h.1 w hedge) hedge.2, ih h.2 hsub⟩

theorem enter_all (nodes : List Nat) (h : Covered succs (nodes.reverse ++ seen) agenda) :
    Covered succs seen (nodes.map .enter ++ agenda) := by
  induction nodes generalizing seen with
  | nil => exact h
  | cons w nodes ih => exact ih (by simpa using h)

/-- Entering a node announces its successors. -/
theorem enter (h : Covered succs (v :: seen) rest) :
    Covered succs (v :: seen) ((succs[v]?.getD []).reverse.map .enter ++ .leave v :: rest) := by
  refine enter_all _ ⟨fun w hedge => ?_, h.mono fun w hw _ => List.mem_append_right _ hw⟩
  rw [List.reverse_reverse]
  exact List.mem_append_left _ hedge.1

end Covered

/-- The edges between the nodes lead on in the list, or back to where one came from. -/
def BackOrOn (succs : Array (List Nat)) (order : List Nat) : Prop :=
  ∀ u ∈ order, ∀ v, SearchEdge succs u v →
    [u, v].Sublist order ∨ Reaches (SearchEdge succs) v u

/-- What holds at every step of a search about the nodes that were left. -/
structure Backtracks (succs : Array (List Nat)) (root : Nat) (agenda : List Step)
    (seen done : List Nat) : Prop extends Underway succs root agenda seen done where
  descends : Descends succs agenda
  covered : Covered succs seen agenda
  backOrOn : BackOrOn succs done

namespace Backtracks

theorem start (succs : Array (List Nat)) (root : Nat) :
    Backtracks succs root [.enter root] [] [] where
  toUnderway := .start succs root
  descends := ⟨by simp [leaving], trivial⟩
  covered := trivial
  backOrOn := by simp [BackOrOn]

/-- The successors of a node that is left were left before, or lead to it. -/
theorem leave (h : Backtracks succs root (.leave v :: rest) seen done) :
    Backtracks succs root rest seen (v :: done) where
  toUnderway := h.toUnderway.leave
  descends := h.descends.2
  covered := h.covered.2
  backOrOn := by
    intro u hu w hedge
    rcases List.mem_cons.1 hu with rfl | hu
    · have hw := (h.seen_iff w).1 (h.covered.1 w hedge)
      simp only [listed, leaving, List.reverse_cons, List.mem_append, List.mem_reverse,
        List.mem_singleton] at hw
      rcases hw with (hw | rfl) | hw
      · exact .inr (h.descends.1 w hw)
      · exact .inr (.refl w)
      · exact .inl (.cons_cons _ (List.singleton_sublist.2 hw))
    · rcases h.backOrOn u hu w hedge with hon | hback
      · exact .inl (hon.cons v)
      · exact .inr hback

theorem skip (h : Backtracks succs root (.enter v :: rest) seen done)
    (hskip : ¬ (v < succs.size ∧ v ∉ seen)) : Backtracks succs root rest seen done where
  toUnderway := h.toUnderway.skip hskip
  descends := h.descends.2
  covered := by
    refine Covered.mono h.covered fun w hw hrange => ?_
    rcases List.mem_cons.1 hw with rfl | hw
    · exact not_not.1 fun hnot => hskip ⟨hrange, hnot⟩
    · exact hw
  backOrOn := h.backOrOn

theorem enter (h : Backtracks succs root (.enter v :: rest) seen done) (hrange : v < succs.size)
    (hnew : v ∉ seen) :
    Backtracks succs root ((succs[v]?.getD []).reverse.map .enter ++ .leave v :: rest)
      (v :: seen) done where
  toUnderway := h.toUnderway.enter hrange hnew
  descends :=
    Descends.enter_all ⟨h.descends.1 hrange, h.descends.2⟩ _ fun _ => List.mem_reverse.1
  covered := Covered.enter h.covered
  backOrOn := h.backOrOn

theorem search (h : Backtracks succs root agenda seen done) :
    BackOrOn succs (search succs agenda seen done) := by
  fun_induction Digraph.search succs agenda seen done with
  | case1 seen done => exact h.backOrOn
  | case2 v rest seen done ih => exact ih h.leave
  | case3 v rest seen done hv ih => exact ih (h.enter hv.1 hv.2)
  | case4 v rest seen done hv ih => exact ih (h.skip hv)

end Backtracks

structure IsPostorder (succs : Array (List Nat)) (root : Nat) (order : List Nat) : Prop where
  nodup : order.Nodup
  mem_iff : ∀ v, v ∈ order ↔ root < succs.size ∧ Reaches (SearchEdge succs) root v
  root_last : root < succs.size → order.getLast? = some root
  /-- Every node but the root comes before one of its predecessors. -/
  parent_later : ∀ v ∈ order, v ≠ root → ∃ u, SearchEdge succs u v ∧ [v, u].Sublist order
  /-- An edge to a node that does not come before lies on a cycle. -/
  back : ∀ u ∈ order, ∀ v ∈ order, v ∈ succs[u]?.getD [] → ¬ [v, u].Sublist order →
    Reaches (SearchEdge succs) v u

theorem reversePostorder_eq_nil (hroot : ¬ root < succs.size) :
    reversePostorder succs root = [] := by
  simp [reversePostorder, search, hroot]

theorem pair_sublist_postorder_iff :
    [v, u].Sublist (postorder succs root) ↔ [u, v].Sublist (reversePostorder succs root) := by
  rw [postorder, ← List.reverse_sublist, List.reverse_reverse]
  rfl

theorem isPostorder_postorder (succs : Array (List Nat)) (root : Nat) :
    IsPostorder succs root (postorder succs root) := by
  have hfirst := reversePostorder_parentsFirst succs root
  refine ⟨List.nodup_reverse.2 hfirst.nodup, fun v => ?_, fun hroot => ?_, fun v hv hne => ?_,
    fun u hu v hv hedge hnot => ?_⟩
  · rw [postorder, List.mem_reverse]
    by_cases hroot : root < succs.size
    · rw [mem_reversePostorder_iff hroot, and_iff_right hroot]
    · simp [reversePostorder_eq_nil hroot, hroot]
  · obtain ⟨rest, horder⟩ : ∃ rest, reversePostorder succs root = root :: rest :=
      reversePostorder_eq_cons hroot
    rw [postorder, horder, List.getLast?_reverse, List.head?_cons]
  · obtain ⟨u, hedge, hsub⟩ := hfirst.parent v (List.mem_reverse.1 hv) hne
    exact ⟨u, hedge, pair_sublist_postorder_iff.2 hsub⟩
  · rw [pair_sublist_postorder_iff] at hnot
    have hrange : v < succs.size := hfirst.inRange v (List.mem_reverse.1 hv)
    have hcases := (Backtracks.start succs root).search u (List.mem_reverse.1 hu) v ⟨hedge, hrange⟩
    exact hcases.resolve_left hnot

/-- **A search with a stack comes to its end and lists a depth-first postorder.** This holds for any
lists of successors, with repetitions and numbers of no node in them, and for any root. A search
has at most one next step, so the walk is its run. -/
theorem stackSearch_lists_postorder (succs : Array (List Nat)) (root : Nat) :
    (∃ seen visited, Walk (StackSearch.Next succs) (.start root)
        ⟨[], seen, postorder succs root⟩ visited ∧
      visited.length ≤ agendaWeight succs [.enter root] [] + 1) ∧
    IsPostorder succs root (postorder succs root) := by
  refine ⟨?_, isPostorder_postorder succs root⟩
  exact Thins.exists_run (.keep (.enter root) .nil) []

end Digraph

end Decouple
