import Decouple.Proofs.Collapse
import Decouple.Proofs.Ownership

/-!
# The blocks that a worker has to copy

A worker copies a block of the loop if its thread runs an instruction of the block or one that
depends on an instruction of the block (`Program.Relevant`). This is said of the plan and of the
list of all dependences. The search for the blocks goes another way: from the thread to its SCCs,
from an SCC to its members, from a member to the dependences that were entered for it, and each
step can be a lookup in a table. `Worker.followTables` makes these lookups, in the tables of a plan
and in an index of the dependences that grows with them (`DependenceIndex`). Whatever was asked of
the plan before and in whatever order the dependences came, no lookup fails, and the instructions
that are found are `Worker.concerns`.

`Worker.concernedBlocks_exact` says for every program what the search ends with. Its one surprise
is a loop whose header does not exist: then there is no name to report the header by.
-/

namespace Decouple

open Outcome

section Positions

variable {α β : Type}

theorem mapM_eq_some_map {f : α → Option β} {g : α → β} {xs : List α}
    (h : ∀ x ∈ xs, f x = some (g x)) : xs.mapM f = some (xs.map g) := by
  induction xs with
  | nil => rfl
  | cons x xs ih =>
      obtain ⟨hx, hrest⟩ := List.forall_mem_cons.1 h
      simp [List.mapM_cons, hx, ih hrest]

/-- Looking up the positions of some elements gives what the table has for them. -/
theorem mapM_positions (xs : List α) (keep : α → Bool) (g : α → β) :
    ((xs.zipIdx.filter fun x => keep x.1).map Prod.snd).mapM (fun k => (xs[k]?).map g) =
      some ((xs.filter keep).map g) := by
  have hfst : (xs.zipIdx.filter fun x => keep x.1).map Prod.fst = xs.filter keep := by
    have hfilter := List.filter_map (f := Prod.fst) (p := keep) (l := xs.zipIdx)
    rw [List.zipIdx_map_fst] at hfilter
    exact hfilter.symm
  rw [List.mapM_map, ← hfst, List.map_map]
  refine mapM_eq_some_map fun x hx => ?_
  have hpos := List.mem_zipIdx_iff_getElem?.1 (List.mem_of_mem_filter hx)
  simp [hpos]

end Positions

namespace Dependences

variable {deps : Dependences} {i : InstrRef}

def addAll (deps : Dependences) (found : List Dependence) : Dependences := found.foldl add deps

def positionsOf (deps : Dependences) (i : InstrRef) : List Nat :=
  (deps.edges.zipIdx.filter fun x => x.1.dependent = i).map Prod.snd

theorem positionsOf_add (edge : Dependence) :
    (deps.add edge).positionsOf i =
      if edge.dependent = i then deps.positionsOf i ++ [deps.edges.length]
      else deps.positionsOf i := by
  by_cases hi : edge.dependent = i
  · simp [positionsOf, add, List.zipIdx_append, hi]
  · simp [positionsOf, add, List.zipIdx_append, hi]

end Dependences

structure DependenceIndex where
  edges : Array Dependence
  positions : Std.TreeMap InstrRef (List Nat)

namespace DependenceIndex

def empty : DependenceIndex := ⟨#[], ∅⟩

def add (index : DependenceIndex) (edge : Dependence) : DependenceIndex where
  edges := index.edges.push edge
  positions := index.positions.insert edge.dependent
    (index.positions.getD edge.dependent [] ++ [index.edges.size])

def addAll (index : DependenceIndex) (found : List Dependence) : DependenceIndex :=
  found.foldl add index

/-- What an instruction needs, which is nothing that can be told if a position lies outside the
table. -/
def dependenciesOf? (index : DependenceIndex) (i : InstrRef) : Option (List Dependence) :=
  (index.positions.getD i []).mapM fun k => index.edges[k]?

structure Describes (index : DependenceIndex) (deps : Dependences) : Prop where
  edges : index.edges = deps.edges.toArray
  positions : ∀ i, index.positions.getD i [] = deps.positionsOf i

theorem describes_empty : empty.Describes Dependences.empty where
  edges := rfl
  positions := fun _ => Std.TreeMap.getD_emptyc

namespace Describes

variable {index : DependenceIndex} {deps : Dependences}

theorem add (h : index.Describes deps) (edge : Dependence) :
    (index.add edge).Describes (deps.add edge) where
  edges := by simp [DependenceIndex.add, Dependences.add, h.edges]
  positions := by
    intro i
    have hsize : index.edges.size = deps.edges.length := by simp [h.edges]
    rw [Dependences.positionsOf_add, DependenceIndex.add, Std.TreeMap.getD_insert, h.positions,
      h.positions, hsize]
    by_cases hi : edge.dependent = i
    · simp [hi]
    · simp [hi]

theorem addAll (h : index.Describes deps) (found : List Dependence) :
    (index.addAll found).Describes (deps.addAll found) := by
  induction found generalizing index deps with
  | nil => exact h
  | cons edge found ih => exact ih (h.add edge)

/-- No position leads astray, and the dependences come in the order in which they were found. -/
theorem dependenciesOf? (h : index.Describes deps) (i : InstrRef) :
    index.dependenciesOf? i = some (deps.dependenciesOf i) := by
  unfold DependenceIndex.dependenciesOf?
  rw [h.positions, h.edges, Dependences.dependenciesOf, Dependences.positionsOf]
  have hpositions := mapM_positions deps.edges (fun edge => decide (edge.dependent = i)) id
  simp only [Option.map_id_fun, id_eq, List.map_id_fun] at hpositions
  simpa only [List.getElem?_toArray] using hpositions

end Describes

end DependenceIndex

namespace Plan

variable {plan : Plan} {thread : Nat} {i : InstrRef}

/-- In an orderly plan, what a thread has to do are the instructions that it runs. -/
theorem Orderly.mem_membersOf_iff (h : plan.Orderly) :
    i ∈ plan.membersOf thread ↔ plan.threadOf? i = some thread := by
  refine ⟨fun hi => ?_, mem_membersOf_of_threadOf?⟩
  obtain ⟨scc, hscc, hi⟩ := List.mem_flatMap.1 hi
  obtain ⟨hscc, hthread⟩ := List.mem_filter.1 hscc
  obtain ⟨s, hs⟩ := List.getElem?_of_mem hscc
  exact (h.coherent.threadOf?_iff i thread).2
    ⟨s, mem_part_iff.2 ⟨scc, hs, of_decide_eq_true hthread⟩, scc, hs, hi⟩

/-- The thread runs the instruction, or one that depends on it. -/
def Needs (plan : Plan) (deps : Dependences) (thread : Nat) (i : InstrRef) : Prop :=
  plan.threadOf? i = some thread ∨
    ∃ edge ∈ deps.edges, plan.threadOf? edge.dependent = some thread ∧ edge.dependency = i

instance {deps : Dependences} : Decidable (plan.Needs deps thread i) :=
  inferInstanceAs (Decidable (_ ∨ _))

end Plan

def Program.Relevant (p : Program) (deps : Dependences) (plan : Plan) (thread : Nat)
    (b : BlockRef) : Prop :=
  ∃ i instr, p.instr? i = some instr ∧ instr.block = some b ∧ plan.Needs deps thread i

instance {p : Program} {deps : Dependences} {plan : Plan} {thread : Nat} {b : BlockRef} :
    Decidable (p.Relevant deps plan thread b) :=
  decidable_of_iff (∃ i ∈ p.instrRefs, ∃ instr ∈ p.instr? i,
      instr.block = some b ∧ plan.Needs deps thread i) <| by
    constructor
    · rintro ⟨i, -, instr, hinstr, hneeds⟩
      exact ⟨i, instr, hinstr, hneeds⟩
    · rintro ⟨i, instr, hinstr, hneeds⟩
      have hlt : i.index < p.instrs.size := (Array.getElem?_eq_some_iff.1 hinstr).1
      exact ⟨i, List.mem_map.2 ⟨i.index, List.mem_range.2 hlt, rfl⟩, instr, hinstr, hneeds⟩

namespace Worker

variable {p : Program} {s : Setting} {thread : Nat}

/-- The instructions of a thread, each followed by what it depends on, found by lookups in tables:
from the thread to its SCCs, on to their members, and from each of them to what it needs. -/
def followTables (t : PlanTables) (index : DependenceIndex) (thread : Nat) :
    Option (List InstrRef) := do
  let part ← t.parts[thread]?
  let sccs ← part.mapM fun scc => t.members[scc]?
  let needs ← sccs.flatten.mapM fun i =>
    (index.dependenciesOf? i).map fun edges => i :: edges.map Dependence.dependency
  return needs.flatten

theorem followTables_eq {t : PlanTables} {index : DependenceIndex} (ht : t.Describes s.plan)
    (hindex : index.Describes s.deps) (hthread : thread < s.plan.threads) :
    followTables t index thread = some (concerns s thread) := by
  have hpart : t.parts[thread]? = some (s.plan.part thread) := by simp [ht.parts, hthread]
  have hsccs : (s.plan.part thread).mapM (fun scc => t.members[scc]?) =
      some ((s.plan.sccs.filter fun scc => scc.thread = thread).map Scc.members) := by
    simp only [ht.members, List.getElem?_toArray, List.getElem?_map]
    exact mapM_positions s.plan.sccs (fun scc => decide (scc.thread = thread)) Scc.members
  have hneeds : (s.plan.membersOf thread).mapM (fun i =>
      (index.dependenciesOf? i).map fun edges => i :: edges.map Dependence.dependency) =
      some ((s.plan.membersOf thread).map fun i =>
        i :: (s.deps.dependenciesOf i).map Dependence.dependency) :=
    mapM_eq_some_map fun i _ => by rw [hindex.dependenciesOf?, Option.map_some]
  rw [Plan.membersOf, List.flatMap_def] at hneeds
  unfold followTables
  simp only [hpart, hsccs, Option.bind_eq_bind, Option.bind_some, hneeds]
  rfl

/-- What is searched for the thread is what it needs. -/
theorem mem_concerns_iff_needs (hplan : s.plan.Orderly) {i : InstrRef} :
    i ∈ concerns s thread ↔ s.plan.Needs s.deps thread i := by
  simp only [mem_concerns_iff, Plan.Needs, hplan.mem_membersOf_iff, Dependences.dependenciesOf,
    List.mem_filter, decide_eq_true_eq]
  refine or_congr_right ⟨?_, ?_⟩
  · rintro ⟨j, hj, edge, ⟨hedge, rfl⟩, hi⟩
    exact ⟨edge, hedge, hj, hi⟩
  · rintro ⟨edge, hedge, hj, hi⟩
    exact ⟨edge.dependent, hj, edge, ⟨hedge, rfl⟩, hi⟩

/-- Instructions that exist have their places looked up. -/
theorem exists_placesOf {is : List InstrRef} (h : ∀ i ∈ is, i.index < p.instrs.size) :
    ∃ places, placesOf p is = .ok places := by
  refine ⟨(is.map fun i => (p.instr? i).bind Instr.block).reduceOption,
    bind_eq_ok_iff.2 ⟨_, mapM_eq_ok_iff.2 ?_, rfl⟩⟩
  refine List.forall₂_map_right_iff.2 (List.forall₂_same.2 fun i hi => ?_)
  have hlt : i.index < p.instrs.size := h i hi
  have hinstr : p.instr? i = some p.instrs[i.index] := Array.getElem?_eq_getElem hlt
  exact bind_eq_ok_iff.2 ⟨_, Program.instr_eq_ok_iff.2 hinstr, by rw [hinstr]; rfl⟩

/-- The whole search: which blocks are kept, and which of the two complaints comes first. -/
theorem concernedBlocks_eq (hplan : s.plan.Orderly) (hthread : thread < s.plan.threads)
    (hrange : ∀ i, s.plan.Needs s.deps thread i → i.index < p.instrs.size) :
    concernedBlocks p s thread =
      if ∃ b ∈ s.loop.blocks, p.Relevant s.deps s.plan thread b then
        if p.Relevant s.deps s.plan thread s.loop.header then
          .ok (s.loop.blocks.filter (p.Relevant s.deps s.plan thread ·))
        else
          p.block s.loop.header >>= fun block =>
            .error (.violated (.headerNotNeeded block.name thread))
      else
        .error (.rejected (.emptyPartition thread)) := by
  have hconcerns : ∀ i ∈ concerns s thread, i.index < p.instrs.size :=
    fun i hi => hrange i ((mem_concerns_iff_needs hplan).1 hi)
  obtain ⟨places, hplaces⟩ := exists_placesOf hconcerns
  have hmem : ∀ b, b ∈ places ↔ p.Relevant s.deps s.plan thread b := by
    intro b
    rw [mem_of_placesOf_eq_ok hplaces]
    simp only [mem_concerns_iff_needs hplan, Program.Relevant]
    grind
  have hempty : (s.loop.blocks.filter (p.Relevant s.deps s.plan thread ·)).isEmpty ↔
      ¬ ∃ b ∈ s.loop.blocks, p.Relevant s.deps s.plan thread b := by
    simp
  unfold concernedBlocks
  simp only [hthread, if_true, hplaces, bind, Except.bind, hmem, hempty]
  by_cases hsome : ∃ b ∈ s.loop.blocks, p.Relevant s.deps s.plan thread b
  · by_cases hheader : p.Relevant s.deps s.plan thread s.loop.header
    · simp only [hsome, hheader, not_true, if_true, if_false]
      rfl
    · simp only [hsome, hheader, not_true, if_true, if_false]
      cases p.block s.loop.header <;> rfl
  · simp only [hsome, not_false_iff, if_true, if_false]
    rfl

/-- What the search for the blocks of a thread ends with, told by which blocks are relevant to the
thread. The header counts wherever it is, also where the loop does not list it. -/
structure FindsRelevant (p : Program) (s : Setting) (thread : Nat) : Prop where
  found_iff : ∀ blocks, concernedBlocks p s thread = .ok blocks ↔
    (∃ b ∈ s.loop.blocks, p.Relevant s.deps s.plan thread b) ∧
      p.Relevant s.deps s.plan thread s.loop.header ∧
      blocks = s.loop.blocks.filter (p.Relevant s.deps s.plan thread ·)
  empty_iff : concernedBlocks p s thread = .error (.rejected (.emptyPartition thread)) ↔
    ¬ ∃ b ∈ s.loop.blocks, p.Relevant s.deps s.plan thread b
  violated_iff : ∀ violation, concernedBlocks p s thread = .error (.violated violation) ↔
    (∃ b ∈ s.loop.blocks, p.Relevant s.deps s.plan thread b) ∧
      ¬ p.Relevant s.deps s.plan thread s.loop.header ∧
      ∃ block, p.block? s.loop.header = some block ∧
        violation = .headerNotNeeded block.name thread
  fault_iff : ∀ fault, concernedBlocks p s thread = .error (.fault fault) ↔
    (∃ b ∈ s.loop.blocks, p.Relevant s.deps s.plan thread b) ∧
      ¬ p.Relevant s.deps s.plan thread s.loop.header ∧
      p.block? s.loop.header = none ∧ fault = .noBlock s.loop.header

theorem findsRelevant (hplan : s.plan.Orderly) (hthread : thread < s.plan.threads)
    (hrange : ∀ i, s.plan.Needs s.deps thread i → i.index < p.instrs.size) :
    FindsRelevant p s thread := by
  have hsearch := concernedBlocks_eq hplan hthread hrange
  by_cases hsome : ∃ b ∈ s.loop.blocks, p.Relevant s.deps s.plan thread b
  · rw [if_pos hsome] at hsearch
    by_cases hheader : p.Relevant s.deps s.plan thread s.loop.header
    · rw [if_pos hheader] at hsearch
      constructor <;> simp [hsearch, hsome, hheader, eq_comm]
    · rw [if_neg hheader, Program.block] at hsearch
      cases hblock : p.block? s.loop.header with
      | none =>
          simp only [hblock, bind, Except.bind] at hsearch
          constructor <;> simp [hsearch, hsome, hheader, hblock, Failure.violated, eq_comm]
      | some block =>
          simp only [hblock, bind, Except.bind] at hsearch
          constructor <;> simp [hsearch, hsome, hheader, hblock, Failure.violated, eq_comm]
  · rw [if_neg hsome] at hsearch
    constructor <;> simp [hsearch, hsome, Failure.violated]

/-- **The search for the blocks of a thread is exact.** Let a plan be what is left of any requests,
granted or refused, and the dependences be any that were found one after the other. The tables of
the plan and the index of the dependences lead from the thread to the instructions that are
searched, without a lookup that fails. If these exist, then the search returns the relevant blocks
of the loop in loop order, refuses a thread that no block of the loop is relevant to, and otherwise
requires the header to be relevant. -/
theorem concernedBlocks_exact (threads : Nat) (calls : List (Nat × List InstrRef))
    (found : List Dependence) (hplan : s.plan = (Plan.empty threads).requestAll calls)
    (hdeps : s.deps = Dependences.empty.addAll found) (hthread : thread < threads)
    (hmembers : ∀ i ∈ s.plan.membersOf thread, i.index < p.instrs.size)
    (hedges : ∀ edge ∈ s.deps.edges, s.plan.threadOf? edge.dependent = some thread →
      edge.dependency.index < p.instrs.size) :
    followTables ((PlanTables.requestAll calls).run (PlanTables.empty threads)).2
        (DependenceIndex.empty.addAll found) thread = some (concerns s thread) ∧
      FindsRelevant p s thread := by
  have horderly : s.plan.Orderly := hplan ▸ (Plan.orderly_empty threads).requestAll calls
  have hlt : thread < s.plan.threads := by
    rw [hplan, Plan.threads_requestAll]
    exact hthread
  constructor
  · refine followTables_eq ?_ ?_ hlt
    · exact hplan ▸ ((PlanTables.describes_empty threads).requestAll calls).1
    · exact hdeps ▸ DependenceIndex.describes_empty.addAll found
  · refine findsRelevant horderly hlt ?_
    rintro i (hi | ⟨edge, hedge, hrun, rfl⟩)
    · exact hmembers i (horderly.mem_membersOf_iff.2 hi)
    · exact hedges edge hedge hrun

/-- The thread that squares needs the header for what it squares, and not the latch. -/
theorem concernedBlocks_exact_counting :
    let calls := [(0, [⟨1⟩, ⟨2⟩, ⟨3⟩, ⟨6⟩, ⟨7⟩]), (1, [⟨4⟩, ⟨5⟩])]
    let index := DependenceIndex.empty.addAll [⟨⟨1⟩, ⟨4⟩, .register⟩]
    followTables ((PlanTables.requestAll calls).run (PlanTables.empty 2)).2 index 1 =
        some [⟨4⟩, ⟨1⟩, ⟨5⟩] ∧
      FindsRelevant Counting.program Counting.setting 1 ∧
      concernedBlocks Counting.program Counting.setting 1 = .ok [⟨1⟩, ⟨2⟩] := by
  intro calls index
  obtain ⟨hfollow, hfinds⟩ := concernedBlocks_exact (p := Counting.program)
    (s := Counting.setting) 2 calls [⟨⟨1⟩, ⟨4⟩, .register⟩] (by decide) rfl Nat.one_lt_two
    (by decide) (by decide)
  exact ⟨hfollow, hfinds, (hfinds.found_iff _).2 (by decide)⟩

end Worker

/-- The counting loop with a header that the program does not have. -/
def Counting.adrift : Setting :=
  { Counting.setting with loop := { Counting.loop with header := ⟨9⟩ } }

/-- A header that does not exist is not relevant, but its name cannot be reported: the search
breaks down where a violated requirement is expected. -/
theorem Worker.concernedBlocks_breaks_adrift :
    let s := Counting.adrift
    s.plan = (Plan.empty 2).requestAll [(0, [⟨1⟩, ⟨2⟩, ⟨3⟩, ⟨6⟩, ⟨7⟩]), (1, [⟨4⟩, ⟨5⟩])] ∧
      s.deps = Dependences.empty.addAll [⟨⟨1⟩, ⟨4⟩, .register⟩] ∧
      (∀ scc ∈ s.plan.sccs, ∀ i ∈ scc.members, i.index < Counting.program.instrs.size) ∧
      (∀ edge ∈ s.deps.edges, edge.dependency.index < Counting.program.instrs.size ∧
        edge.dependent.index < Counting.program.instrs.size) ∧
      (∃ b ∈ s.loop.blocks, Counting.program.Relevant s.deps s.plan 1 b) ∧
      ¬ Counting.program.Relevant s.deps s.plan 1 s.loop.header ∧
      Worker.concernedBlocks Counting.program s 1 = .error (.fault (.noBlock ⟨9⟩)) := by
  decide

end Decouple
