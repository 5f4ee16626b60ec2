import Decouple.Proofs.FlowTrees
import Decouple.Proofs.Settling

/-!
# The sweeps, step by step

`settle?` and `meet?` test on their way that ranks go down, and stop where they do not. A
`SweepState` is a moment of the same sweeps without these tests: nothing but the entries, a mark
that this sweep has changed something, and what is to be done next. There it could happen that a
finger climbs from a node without an entry, that two fingers at different nodes of one rank wait
for each other, or that the sweeps never end.

None of this happens. A climb ends where `meet?` does, a sweep where the fold of `refine?` does
and the sweeps where `settle?` does, each by the recursion that its definition goes through; and
at every moment on the way the entries lead down in rank to the root (`exists_settling_run`).
-/

namespace Decouple

variable {α : Type} {edge : α → α → Prop} {good : α → Prop} {a b c : α}

/-- There is a walk from `a` to `b` on which every place is a good one. -/
def ReachesIn (good : α → Prop) (edge : α → α → Prop) (a b : α) : Prop :=
  ∃ visited, Walk edge a b visited ∧ ∀ x ∈ visited, good x

namespace ReachesIn

theorem refl (ha : good a) : ReachesIn good edge a a :=
  ⟨[a], .stay a, by simpa using ha⟩

theorem step (ha : good a) (hedge : edge a b) (h : ReachesIn good edge b c) :
    ReachesIn good edge a c := by
  obtain ⟨visited, hwalk, hgood⟩ := h
  exact ⟨a :: visited, .step hedge hwalk, List.forall_mem_cons.2 ⟨ha, hgood⟩⟩

theorem trans (h : ReachesIn good edge a b) (h' : ReachesIn good edge b c) :
    ReachesIn good edge a c := by
  obtain ⟨visited, hwalk, hgood⟩ := h
  obtain ⟨others, hwalk', hgood'⟩ := h'
  refine ⟨_, hwalk.join hwalk', ?_⟩
  intro x hx
  rcases List.mem_append.1 hx with hx | hx
  · exact hgood x hx
  · exact hgood' x (List.mem_of_mem_tail hx)

theorem reaches (h : ReachesIn good edge a b) : Reaches edge a b := by
  obtain ⟨visited, hwalk, -⟩ := h
  exact ⟨visited, hwalk⟩

end ReachesIn

namespace Digraph

variable {g : Digraph} {root k : Nat} {rank : Nat → Nat} {order : List Nat}
  {idom next : Array (Option Nat)}

/-- What a sweep is to do next; `left` lists the nodes that wait for their turn. -/
inductive SweepStage where
  /-- Take the next node. -/
  | turn (left : List Nat)
  /-- Bring in the predecessors `rest` of `v`, given what those before have in common. -/
  | join (v common : Nat) (rest left : List Nat)
  /-- Climb from `a` and `b` until the two fingers meet. -/
  | climb (v a b : Nat) (rest left : List Nat)
  /-- A finger was to climb from a node that has no entry. -/
  | broken
deriving DecidableEq, Repr

/-- A moment of the sweeps: the entries, whether this sweep has changed one, and what is next. -/
structure SweepState where
  idom : Array (Option Nat)
  changed : Bool
  stage : SweepStage
deriving DecidableEq, Repr

/-- A change is not undone later in a sweep: it lowers the total rank, and no turn raises it. -/
theorem Sweeping.Turn.not_undone {v d : Nat} {rest : List Nat}
    (h : Sweeping.Turn g root rank order idom v d) (hg : g.Consistent)
    (hdrop : order.drop (rank v + 1) = rest)
    (hfold : rest.foldlM (refine? g rank) (idom.setIfInBounds v (some d)) = some idom) :
    idom.setIfInBounds v (some d) = idom := by
  by_contra hne
  have hlt := Sweeping.totalRank_lt h.ranked h.sweeping h.step h.entryRank_le hne
  obtain ⟨-, hle⟩ := Sweeping.of_sweep hg h.ranked rest hdrop (Nat.succ_pos _) h.step hfold
  exact absurd (totalWeight_le hle order) (Nat.not_le_of_lt hlt)

namespace SweepState

/-- Only the root has an entry, and all other nodes of `order` wait for their turn. -/
def start (g : Digraph) (root : Nat) (order : List Nat) : SweepState :=
  ⟨(Array.replicate g.size none).setIfInBounds root (some root), false, .turn order.tail⟩

/-- The moment after this one. The sweeps are over after one that changed nothing. -/
def next? (g : Digraph) (rank : Nat → Nat) (order : List Nat) : SweepState → Option SweepState
  | ⟨idom, changed, .turn []⟩ =>
      if changed then some ⟨idom, false, .turn order.tail⟩ else none
  | ⟨idom, changed, .turn (v :: left)⟩ =>
      match (g.predsOf v).filter fun u => (entry idom u).isSome with
      | [] => some ⟨idom, changed, .turn left⟩
      | u :: rest => some ⟨idom, changed, .join v u rest left⟩
  | ⟨idom, changed, .join v common [] left⟩ =>
      if entry idom v = some common then
        some ⟨idom, changed, .turn left⟩
      else
        some ⟨idom.setIfInBounds v (some common), true, .turn left⟩
  | ⟨idom, changed, .join v common (u :: rest) left⟩ =>
      some ⟨idom, changed, .climb v u common rest left⟩
  | ⟨idom, changed, .climb v a b rest left⟩ =>
      if a = b then
        some ⟨idom, changed, .join v a rest left⟩
      else if rank b < rank a then
        match entry idom a with
        | some up => some ⟨idom, changed, .climb v up b rest left⟩
        | none => some ⟨idom, changed, .broken⟩
      else if rank a < rank b then
        match entry idom b with
        | some up => some ⟨idom, changed, .climb v a up rest left⟩
        | none => some ⟨idom, changed, .broken⟩
      else
        some ⟨idom, changed, .climb v a b rest left⟩
  | ⟨_, _, .broken⟩ => none

def Next (g : Digraph) (rank : Nat → Nat) (order : List Nat) (s t : SweepState) : Prop :=
  s.next? g rank order = some t

/-- Both fingers of a climb stand at nodes with entries. -/
def Stands (idom : Array (Option Nat)) : SweepStage → Prop
  | .turn _ => True
  | .join .. => True
  | .climb _ a b _ _ => (entry idom a).isSome ∧ (entry idom b).isSome
  | .broken => False

structure Steady (root : Nat) (rank : Nat → Nat) (order : List Nat) (s : SweepState) : Prop where
  descending : Descending root rank order s.idom
  stands : Stands s.idom s.stage

variable {v : Nat} {rest : List Nat} (changed : Bool) (left : List Nat)

/-- The fingers meet where `meet?` finds the nearest common ancestor. -/
theorem climb_run (h : Descending root rank order idom) (horder : Ranked g root rank order)
    {a b m : Nat} (ha : (entry idom a).isSome) (hb : (entry idom b).isSome)
    (hmeet : meet? rank idom a b = some m) :
    ReachesIn (Steady root rank order) (Next g rank order)
      ⟨idom, changed, .climb v a b rest left⟩ ⟨idom, changed, .join v m rest left⟩ := by
  have hsteady {a b : Nat} (ha : (entry idom a).isSome) (hb : (entry idom b).isSome) :
      Steady root rank order ⟨idom, changed, .climb v a b rest left⟩ := ⟨h, ha, hb⟩
  fun_induction meet? rank idom a b with
  | case1 a =>
      obtain rfl := Option.some.inj hmeet
      exact .step (hsteady ha hb) (if_pos rfl) (.refl ⟨h, trivial⟩)
  | case2 a b hne hlt up hup hfall ih =>
      refine .step (hsteady ha hb) ?_ (ih (h.closed a up hup) hb hmeet)
      simp only [Next, next?, if_neg hne, if_pos hlt, hup]
  | case5 a b hne hle up hup hfall ih =>
      -- the fingers do not wait for each other
      have hlt := h.rank_lt_of_not_lt horder ha hb hne hle
      refine .step (hsteady ha hb) ?_ (ih ha (h.closed b up hup) hmeet)
      simp only [Next, next?, if_neg hne, if_neg hle, if_pos hlt, hup]
  | _ => simp at hmeet

/-- The predecessors are brought in one after another. -/
theorem join_run (h : Descending root rank order idom) (horder : Ranked g root rank order)
    {u d : Nat} (hsome : ∀ w ∈ u :: rest, (entry idom w).isSome)
    (hfold : rest.foldlM (fun common u => meet? rank idom u common) u = some d) :
    ReachesIn (Steady root rank order) (Next g rank order)
      ⟨idom, changed, .join v u rest left⟩ ⟨idom, changed, .join v d [] left⟩ := by
  induction rest generalizing u with
  | nil =>
      obtain rfl : u = d := Option.some.inj hfold
      exact .refl ⟨h, trivial⟩
  | cons w rest ih =>
      rw [List.foldlM_cons] at hfold
      obtain ⟨common, hcommon, hfold⟩ := Option.bind_eq_some_iff.1 hfold
      have hu := hsome u (by simp)
      have hrest : ∀ x ∈ common :: rest, (entry idom x).isSome := by
        intro x hx
        rcases List.mem_cons.1 hx with rfl | hx
        · exact h.isSome_of_climbs hu (meet?_climbs hcommon).2
        · exact hsome x (by simp [hx])
      exact .step ⟨h, trivial⟩ rfl
        ((climb_run changed left h horder (hsome w (by simp)) hu hcommon).trans (ih hrest hfold))

theorem setIfInBounds_eq_iff {d : Nat} (hv : v < idom.size) :
    idom.setIfInBounds v (some d) = idom ↔ entry idom v = some d := by
  have hentry := entry_setIfInBounds idom hv d
  constructor
  · intro heq
    have hd := hentry v
    rwa [heq, if_pos rfl] at hd
  · intro hd
    refine eq_of_entry_eq (Array.size_setIfInBounds ..) fun w => ?_
    rw [hentry]
    split
    · next hw => rw [hw, hd]
    · rfl

/-- The turn of a node computes its entry anew, and marks the sweep if that is a change. -/
theorem turn_run (h : Descending root rank order idom) (horder : Ranked g root rank order)
    (hv : v < idom.size) (hrefine : refine? g rank idom v = some next)
    (h' : Descending root rank order next) :
    ReachesIn (Steady root rank order) (Next g rank order)
      ⟨idom, changed, .turn (v :: left)⟩
      ⟨next, changed || decide (next ≠ idom), .turn left⟩ := by
  unfold refine? at hrefine
  split at hrefine
  · next hnone =>
      obtain rfl := Option.some.inj hrefine
      refine .step ⟨h, trivial⟩ ?_ (.refl ⟨h, trivial⟩)
      simp only [Next, next?, hnone, ne_eq, not_true_eq_false, decide_false, Bool.or_false]
  · next u rest hpreds =>
      obtain ⟨d, hd, hnext⟩ := Option.bind_eq_some_iff.1 hrefine
      obtain rfl := Option.some.inj hnext
      have hsome : ∀ w ∈ u :: rest, (entry idom w).isSome := by
        intro w hw
        rw [← hpreds] at hw
        exact (List.mem_filter.1 hw).2
      refine .step ⟨h, trivial⟩ (b := ⟨idom, changed, .join v u rest left⟩) ?_ ?_
      · simp only [Next, next?, hpreds]
      refine (join_run changed left h horder hsome hd).trans ?_
      refine .step ⟨h, trivial⟩ ?_ (.refl ⟨h', trivial⟩)
      by_cases hsame : entry idom v = some d
      · have heq := (setIfInBounds_eq_iff hv).2 hsame
        simp [Next, next?, hsame, heq]
      · have hne : idom.setIfInBounds v (some d) ≠ idom :=
          fun heq => hsame ((setIfInBounds_eq_iff hv).1 heq)
        simp [Next, next?, hsame, hne]

/-- A sweep goes through its nodes, and is marked if they leave a change behind. -/
theorem sweep_run (hg : g.Consistent) (horder : Ranked g root rank order) (rest : List Nat)
    (changed : Bool) (hrest : order.drop k = rest) (hk : 0 < k)
    (h : Sweeping g root rank order k idom)
    (hfold : rest.foldlM (refine? g rank) idom = some next) :
    ReachesIn (Steady root rank order) (Next g rank order)
      ⟨idom, changed, .turn rest⟩ ⟨next, changed || decide (next ≠ idom), .turn []⟩ := by
  induction rest generalizing k idom changed with
  | nil =>
      obtain rfl : idom = next := Option.some.inj hfold
      simpa using ReachesIn.refl ⟨h.toDescending, trivial⟩
  | cons v rest ih =>
      obtain ⟨rfl, hdrop, d, hrefine, hturn⟩ := h.exists_next hg horder hk hrest
      rw [List.foldlM_cons, hrefine] at hfold
      have hv : v < idom.size := h.size_eq ▸ horder.inRange v hturn.mem
      have hmark : (idom.setIfInBounds v (some d) ≠ idom ∨
          next ≠ idom.setIfInBounds v (some d)) ↔ next ≠ idom := by
        by_cases hsame : idom.setIfInBounds v (some d) = idom
        · simp [hsame]
        · exact ⟨fun _ heq => hsame (hturn.not_undone hg hdrop (heq ▸ hfold)), fun _ => .inl hsame⟩
      have hrun := (turn_run changed rest h.toDescending horder hv hrefine hturn.descending).trans
        (ih _ hdrop (Nat.succ_pos _) hturn.step hfold)
      rwa [Bool.or_assoc, ← Bool.decide_or, decide_eq_decide.2 hmark] at hrun

/-- The sweeps end where `settle?` does. -/
theorem settle_run (hg : g.Consistent) (horder : Ranked g root rank order)
    (h : Sweeping g root rank order 1 idom) (hsettle : settle? g rank order idom = some next) :
    ReachesIn (Steady root rank order) (Next g rank order)
      ⟨idom, false, .turn order.tail⟩ ⟨next, false, .turn []⟩ := by
  have hsweep {idom next : Array (Option Nat)} (h : Sweeping g root rank order 1 idom)
      (hfold : order.tail.foldlM (refine? g rank) idom = some next) :=
    sweep_run hg horder order.tail false List.drop_one Nat.one_pos h hfold
  fun_induction settle? g rank order idom with
  | case2 idom hfold =>
      obtain rfl := Option.some.inj hsettle
      simpa using hsweep h hfold
  | case3 idom swept hfold hne hlt ih =>
      obtain ⟨hdone, -⟩ :=
        Sweeping.of_sweep hg horder order.tail List.drop_one Nat.one_pos h hfold
      have hrun := hsweep h hfold
      rw [decide_eq_true hne, Bool.or_true] at hrun
      exact hrun.trans (.step ⟨hdone.toDescending, trivial⟩ rfl
        (ih (hdone.restart horder) hsettle))
  | _ => simp at hsettle

end SweepState

/-- From every node with an entry the entries lead to the root. -/
theorem Descending.climbs_root (h : Descending root rank order idom) {v d : Nat}
    (hd : entry idom v = some d) : Climbs idom v root := by
  induction hrank : rank v using Nat.strongRecOn generalizing v d with
  | ind r ih =>
      by_cases hv : v = root
      · rw [hv]
        exact .refl root
      · have hlt : rank d < r := hrank ▸ h.falls v d hd hv
        obtain ⟨up, hup⟩ := Option.isSome_iff_exists.1 (h.closed v d hd)
        exact (Climbs.of_entry hd).trans (ih (rank d) hlt hup rfl)

structure SweepState.Sound (g : Digraph) (root : Nat) (rank : Nat → Nat) (order : List Nat)
    (s : SweepState) : Prop where
  not_broken : s.stage ≠ .broken
  /-- Two fingers that climb are going to meet. -/
  meets : ∀ v a b rest left, s.stage = .climb v a b rest left →
    ∃ m, meet? rank s.idom a b = some m ∧
      Reaches (Next g rank order) s ⟨s.idom, s.changed, .join v m rest left⟩
  reached : ∀ v d, entry s.idom v = some d → Reaches g.Edge root v
  falls : ∀ v d, entry s.idom v = some d → v ≠ root → rank d < rank v
  climbs_root : ∀ v d, entry s.idom v = some d → Climbs s.idom v root

theorem SweepState.Steady.sound {s : SweepState} (h : s.Steady root rank order)
    (horder : Ranked g root rank order) (hreach : ∀ v ∈ order, Reaches g.Edge root v) :
    s.Sound g root rank order where
  not_broken := by
    intro hbroken
    have hstands := h.stands
    rw [hbroken] at hstands
    exact hstands
  meets := by
    intro v a b rest left hclimb
    obtain ⟨idom, changed, stage⟩ := s
    obtain rfl : stage = _ := hclimb
    obtain ⟨ha, hb⟩ := h.stands
    obtain ⟨m, hm, -⟩ := h.descending.exists_meet? horder ha hb
    exact ⟨m, hm, (climb_run changed left h.descending horder ha hb hm).reaches⟩
  reached v d hd := hreach v (h.descending.listed v d hd)
  falls := h.descending.falls
  climbs_root v d hd := h.descending.climbs_root hd

/-- **The sweeps settle, and their fingers always meet.** On every consistent graph, the sweeps
from any root come to an end, with the entries that `idoms?` gives. No finger ever stands at a
node without an entry, two fingers that climb meet after finitely many steps, and at each moment
the entries belong to nodes that the root leads to, and lead down in depth-first order to the
root. A moment has at most one next moment, so the walk is the run of the sweeps. -/
theorem exists_settling_run (hg : g.Consistent) (hroot : root < g.size) :
    let order := reversePostorder g.succs root
    let rank := fun v => order.idxOf v
    ∃ last visited,
      Walk (SweepState.Next g rank order) (.start g root order) last visited ∧
      last.next? g rank order = none ∧ idoms? g root = some last.idom ∧
      ∀ s ∈ visited, s.Sound g root rank order := by
  intro order rank
  have horder : Ranked g root rank order := ranked_reversePostorder hroot
  obtain ⟨idom, hidom⟩ := exists_idoms? hg hroot
  obtain ⟨visited, hwalk, hsteady⟩ :=
    SweepState.settle_run hg horder (Sweeping.start horder) hidom
  refine ⟨_, visited, hwalk, rfl, hidom, fun s hs => (hsteady s hs).sound horder ?_⟩
  exact fun v hv => (hg.mem_reversePostorder_iff hroot).1 hv

/-- A loop with two entries, a node that leads to itself, and a node that is not reachable but
leads into the loop. -/
theorem exists_settling_run_irreducible :
    let g := ofSuccs #[[1, 2], [2], [1, 2], [1]]
    let order := reversePostorder g.succs 0
    let rank := fun v => order.idxOf v
    g.Consistent ∧ 0 < g.size ∧ ∃ last visited,
      Walk (SweepState.Next g rank order) (.start g 0 order) last visited ∧
      last.next? g rank order = none ∧ idoms? g 0 = some last.idom ∧
      ∀ s ∈ visited, s.Sound g 0 rank order := by
  have hg : (ofSuccs #[[1, 2], [2], [1, 2], [1]]).Consistent := by
    refine ofSuccs_consistent ?_
    rintro (_ | _ | _ | _ | u) v hv <;> simp at hv ⊢ <;> omega
  exact ⟨hg, by decide, exists_settling_run hg (by decide)⟩

end Digraph

end Decouple
