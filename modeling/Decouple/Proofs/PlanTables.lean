import Decouple.Plan
import Decouple.Proofs.Outcomes
import Mathlib.Data.List.Nodup

/-!
# A plan kept in tables

A plan is a list of SCCs, and all else is read off the list: the SCC of an instruction, the SCCs
of a thread. Here the same plan is kept in four tables that repeat each other (`PlanTables`), so
that nothing has to be searched for. An SCC is added to all of them, entry by entry, and only
after the whole of it has been checked.

The tables describe the plan at every moment (`PlanTables.Describes`): a request is refused by the
tables if the plan refuses it, and for the same reason, and then they are what they were. What the
requests keep is said of the plan (`Plan.Orderly`): an instruction has one place in one SCC. Then
whatever can be asked of the plan fits together (`Plan.Coherent`), and so do the tables after any
requests, granted or refused, which is `PlanTables.requests_keep_agreement`.
-/

namespace Decouple

open Outcome

namespace Plan

variable {plan plan' : Plan} {thread : Nat} {members : List InstrRef} {i : InstrRef} {s : Nat}

/-- Members pass the check if the plan does not have them and none comes twice. -/
theorem checkMembers_eq_ok_iff {seen : List InstrRef} :
    plan.checkMembers seen members = .ok () ↔
      (∀ i ∈ members, plan.sccOf? i = none ∧ i ∉ seen) ∧ members.Nodup := by
  induction members generalizing seen with
  | nil => exact ⟨fun _ => ⟨by simp, .nil⟩, fun _ => rfl⟩
  | cons i members ih =>
      unfold checkMembers
      cases hscc : plan.sccOf? i with
      | some s =>
          refine ⟨nofun, fun h => ?_⟩
          cases hscc.symm.trans (h.1 i (List.mem_cons_self ..)).1
      | none =>
          by_cases hseen : i ∈ seen
          · simp only [hseen, if_true]
            refine ⟨nofun, fun h => ?_⟩
            exact absurd hseen (h.1 i (List.mem_cons_self ..)).2
          · simp only [hseen, if_false, ih, List.nodup_cons]
            constructor
            · rintro ⟨hnew, hnodup⟩
              refine ⟨List.forall_mem_cons.2 ⟨⟨hscc, hseen⟩, fun j hj => ?_⟩, ?_, hnodup⟩
              · exact ⟨(hnew j hj).1, fun hj' => (hnew j hj).2 (List.mem_cons_of_mem i hj')⟩
              · exact fun hi => (hnew i hi).2 (List.mem_cons_self ..)
            · rintro ⟨hnew, hi, hnodup⟩
              refine ⟨fun j hj => ?_, hnodup⟩
              obtain ⟨hnone, hseen'⟩ := hnew j (List.mem_cons_of_mem i hj)
              refine ⟨hnone, fun hmem => ?_⟩
              rcases List.mem_cons.1 hmem with rfl | hmem
              · exact hi hj
              · exact hseen' hmem

/-- An SCC is added if its thread exists, there is a number for it, and its members are new. -/
theorem addScc_eq_ok_iff :
    plan.addScc thread members = .ok plan' ↔
      (thread < plan.threads ∧ plan.sccs.length < numberLimit ∧
        (∀ i ∈ members, plan.sccOf? i = none) ∧ members.Nodup) ∧
      plan' = { plan with sccs := plan.sccs ++ [{ thread, members }] } := by
  unfold addScc
  constructor
  · intro h
    obtain ⟨hthread, h⟩ := require_bind_eq_ok h
    obtain ⟨hlimit, h⟩ := require_bind_eq_ok h
    obtain ⟨⟨⟩, hmembers, h⟩ := bind_eq_ok_iff.1 h
    obtain ⟨hnew, hnodup⟩ := checkMembers_eq_ok_iff.1 hmembers
    exact ⟨⟨hthread, hlimit, fun i hi => (hnew i hi).1, hnodup⟩, (pure_eq_ok_iff.1 h).symm⟩
  · rintro ⟨⟨hthread, hlimit, hnew, hnodup⟩, rfl⟩
    have hmembers : plan.checkMembers [] members = .ok () :=
      checkMembers_eq_ok_iff.2 ⟨fun i hi => ⟨hnew i hi, List.not_mem_nil⟩, hnodup⟩
    simp only [hthread, hlimit, if_true]
    exact bind_eq_ok_iff.2 ⟨(), hmembers, rfl⟩

theorem mem_part_iff :
    s ∈ plan.part thread ↔ ∃ scc, plan.sccs[s]? = some scc ∧ scc.thread = thread := by
  simp only [part, List.mem_map, List.mem_filter, decide_eq_true_eq]
  constructor
  · rintro ⟨⟨scc, k⟩, ⟨hmem, hthread⟩, rfl⟩
    exact ⟨scc, List.mem_zipIdx_iff_getElem?.1 hmem, hthread⟩
  · rintro ⟨scc, hscc, hthread⟩
    exact ⟨(scc, s), ⟨List.mem_zipIdx_iff_getElem?.2 hscc, hthread⟩, rfl⟩

/-- The SCCs of a thread are listed in the order of their numbers. -/
theorem pairwise_part (plan : Plan) (thread : Nat) : (plan.part thread).Pairwise (· < ·) := by
  have hsublist : List.Sublist (plan.part thread) (plan.sccs.zipIdx.map Prod.snd) :=
    List.filter_sublist.map Prod.snd
  rw [List.zipIdx_map_snd] at hsublist
  exact List.Pairwise.sublist hsublist List.pairwise_lt_range'

theorem part_concat (scc : Scc) :
    ({ plan with sccs := plan.sccs ++ [scc] } : Plan).part thread =
      if scc.thread = thread then plan.part thread ++ [plan.sccs.length] else plan.part thread := by
  by_cases hthread : scc.thread = thread
  · simp [part, List.zipIdx_append, hthread]
  · simp [part, List.zipIdx_append, hthread]

theorem sccOf?_concat (scc : Scc) :
    ({ plan with sccs := plan.sccs ++ [scc] } : Plan).sccOf? i =
      (plan.sccOf? i).or (if i ∈ scc.members then some plan.sccs.length else none) := by
  by_cases hi : i ∈ scc.members
  · simp [sccOf?, List.findIdx?_append, List.findIdx?_cons, hi]
  · simp [sccOf?, List.findIdx?_append, List.findIdx?_cons, hi]

/-- The thread of an instruction is that of its SCC. -/
theorem threadOf?_eq (plan : Plan) (i : InstrRef) :
    plan.threadOf? i = (plan.sccOf? i).bind fun s => (plan.sccs[s]?).map Scc.thread := by
  obtain ⟨threads, sccs⟩ := plan
  simp only [threadOf?, sccOf?]
  induction sccs with
  | nil => rfl
  | cons scc sccs ih =>
      by_cases hi : i ∈ scc.members
      · simp [List.findIdx?_cons, hi]
      · rw [List.find?_cons_of_neg (by simpa using hi), ih, List.findIdx?_cons]
        simp only [hi, decide_false, Bool.false_eq_true, if_false, Option.bind_map,
          Function.comp_def, List.getElem?_cons_succ]

/-- An instruction has one place in one SCC, and SCCs are run by threads that exist. -/
structure Orderly (plan : Plan) : Prop where
  threads : ∀ scc ∈ plan.sccs, scc.thread < plan.threads
  nodup : ∀ scc ∈ plan.sccs, scc.members.Nodup
  apart : plan.sccs.Pairwise fun scc scc' => scc.members.Disjoint scc'.members

theorem orderly_empty (threads : Nat) : (Plan.empty threads).Orderly where
  threads := fun _ hscc => absurd hscc List.not_mem_nil
  nodup := fun _ hscc => absurd hscc List.not_mem_nil
  apart := .nil

theorem sccOf?_eq_none_iff : plan.sccOf? i = none ↔ ∀ scc ∈ plan.sccs, i ∉ scc.members := by
  simp [sccOf?, List.findIdx?_eq_none_iff]

namespace Orderly

/-- A granted request keeps the order. -/
theorem addScc (h : plan.Orderly) (hadd : plan.addScc thread members = .ok plan') :
    plan'.Orderly := by
  obtain ⟨⟨hthread, -, hnew, hnodup⟩, rfl⟩ := addScc_eq_ok_iff.1 hadd
  refine ⟨?_, ?_, List.pairwise_append.2 ⟨h.apart, List.pairwise_singleton _ _, ?_⟩⟩
  · exact List.forall_mem_append.2 ⟨h.threads, by simpa using hthread⟩
  · exact List.forall_mem_append.2 ⟨h.nodup, by simpa using hnodup⟩
  · rintro scc hscc scc' hscc' i hi hi'
    obtain rfl := List.mem_singleton.1 hscc'
    exact sccOf?_eq_none_iff.1 (hnew i hi') scc hscc hi

/-- The SCC that is found for an instruction is the only one that has it. -/
theorem sccOf?_eq_some_iff (h : plan.Orderly) :
    plan.sccOf? i = some s ↔ ∃ scc, plan.sccs[s]? = some scc ∧ i ∈ scc.members := by
  constructor
  · intro hs
    obtain ⟨hlt, hi, -⟩ := List.findIdx?_eq_some_iff_getElem.1 hs
    exact ⟨plan.sccs[s], List.getElem?_eq_getElem hlt, of_decide_eq_true hi⟩
  · rintro ⟨scc, hscc, hi⟩
    obtain ⟨hlt, rfl⟩ := List.getElem?_eq_some_iff.1 hscc
    refine List.findIdx?_eq_some_iff_getElem.2 ⟨hlt, decide_eq_true hi, ?_⟩
    intro k hk hmem
    exact List.pairwise_iff_getElem.1 h.apart k s (Nat.lt_trans hk hlt) hlt hk
      (of_decide_eq_true hmem) hi

end Orderly

/-- What can be asked of a plan fits together: where an instruction is, what an SCC has, which
thread runs it, and what a thread has to do. -/
structure Coherent (plan : Plan) : Prop where
  sccOf?_iff : ∀ i s, plan.sccOf? i = some s ↔ ∃ scc, plan.sccs[s]? = some scc ∧ i ∈ scc.members
  nodup : ∀ scc ∈ plan.sccs, scc.members.Nodup
  disjoint : ∀ (s s' : Nat) (scc scc' : Scc), plan.sccs[s]? = some scc →
    plan.sccs[s']? = some scc' → s ≠ s' → scc.members.Disjoint scc'.members
  thread_iff : ∀ s t : Nat, (plan.sccs[s]?).map Scc.thread = some t ↔ s ∈ plan.part t
  listed_once : ∀ s < plan.sccs.length, ((List.range plan.threads).flatMap plan.part).count s = 1
  increasing : ∀ t, (plan.part t).Pairwise (· < ·)
  thread_lt : ∀ scc ∈ plan.sccs, scc.thread < plan.threads
  threadOf?_iff : ∀ i t, plan.threadOf? i = some t ↔
    ∃ s ∈ plan.part t, ∃ scc, plan.sccs[s]? = some scc ∧ i ∈ scc.members

/-- No SCC is listed twice, by one thread or by two. -/
theorem nodup_flatMap_part (plan : Plan) :
    ((List.range plan.threads).flatMap plan.part).Nodup := by
  refine List.nodup_flatMap.2 ⟨fun t _ => (pairwise_part plan t).imp Nat.ne_of_lt, ?_⟩
  refine List.nodup_range.imp fun hne s hs hs' => ?_
  obtain ⟨scc, hscc, rfl⟩ := mem_part_iff.1 hs
  obtain ⟨scc', hscc', rfl⟩ := mem_part_iff.1 hs'
  exact hne (congrArg Scc.thread (Option.some.inj (hscc.symm.trans hscc')))

theorem Orderly.coherent (h : plan.Orderly) : plan.Coherent where
  sccOf?_iff := fun _ _ => h.sccOf?_eq_some_iff
  nodup := h.nodup
  disjoint := by
    intro s s' scc scc' hscc hscc' hne i hi hi'
    have hs := h.sccOf?_eq_some_iff.2 ⟨scc, hscc, hi⟩
    have hs' := h.sccOf?_eq_some_iff.2 ⟨scc', hscc', hi'⟩
    exact hne (Option.some.inj (hs.symm.trans hs'))
  thread_iff := by
    intro s t
    rw [mem_part_iff, Option.map_eq_some_iff]
  listed_once := by
    intro s hs
    have hthread := h.threads _ (List.getElem_mem hs)
    refine List.count_eq_one_of_mem (nodup_flatMap_part plan) ?_
    refine List.mem_flatMap.2 ⟨plan.sccs[s].thread, List.mem_range.2 hthread, mem_part_iff.2 ?_⟩
    exact ⟨plan.sccs[s], List.getElem?_eq_getElem hs, rfl⟩
  increasing := pairwise_part plan
  thread_lt := h.threads
  threadOf?_iff := by
    intro i t
    rw [threadOf?_eq, Option.bind_eq_some_iff]
    simp only [Option.map_eq_some_iff, mem_part_iff, h.sccOf?_eq_some_iff]
    constructor
    · rintro ⟨s, ⟨scc, hscc, hi⟩, hthread⟩
      exact ⟨s, hthread, scc, hscc, hi⟩
    · rintro ⟨s, hthread, hi⟩
      exact ⟨s, hi, hthread⟩

/-- The plan after one more request, which is what it was if the request is refused. -/
def request (plan : Plan) (call : Nat × List InstrRef) : Plan :=
  (plan.addScc call.1 call.2).toOption.getD plan

def requestAll (plan : Plan) (calls : List (Nat × List InstrRef)) : Plan := calls.foldl request plan

theorem request_eq_or (plan : Plan) (call : Nat × List InstrRef) :
    plan.request call = plan ∨ plan.addScc call.1 call.2 = .ok (plan.request call) := by
  unfold request
  cases plan.addScc call.1 call.2 with
  | error failure => exact .inl rfl
  | ok plan' => exact .inr rfl

theorem Orderly.request (h : plan.Orderly) (call : Nat × List InstrRef) :
    (plan.request call).Orderly := by
  rcases plan.request_eq_or call with hsame | hadd
  · rwa [hsame]
  · exact h.addScc hadd

theorem Orderly.requestAll (h : plan.Orderly) (calls : List (Nat × List InstrRef)) :
    (plan.requestAll calls).Orderly := by
  induction calls generalizing plan with
  | nil => exact h
  | cons call calls ih => exact ih (h.request call)

theorem threads_requestAll (plan : Plan) (calls : List (Nat × List InstrRef)) :
    (plan.requestAll calls).threads = plan.threads := by
  induction calls generalizing plan with
  | nil => rfl
  | cons call calls ih =>
      refine (ih (plan.request call)).trans ?_
      rcases plan.request_eq_or call with hsame | hadd
      · rw [hsame]
      · rw [(addScc_eq_ok_iff.1 hadd).2]

/-- While there are numbers left, a request is refused only for its thread or its members. -/
theorem addScc_eq_error_iff (hlimit : plan.sccs.length < numberLimit) :
    (∃ failure, plan.addScc thread members = .error failure) ↔
      plan.threads ≤ thread ∨ (∃ i ∈ members, (plan.sccOf? i).isSome) ∨ ¬ members.Nodup := by
  have hok : (∃ plan', plan.addScc thread members = .ok plan') ↔
      thread < plan.threads ∧ (∀ i ∈ members, plan.sccOf? i = none) ∧ members.Nodup := by
    simp [addScc_eq_ok_iff, hlimit]
  have hnot : (∃ failure, plan.addScc thread members = .error failure) ↔
      ¬ ∃ plan', plan.addScc thread members = .ok plan' := by
    cases plan.addScc thread members <;> simp
  rw [hnot, hok, not_and_or, not_and_or, Nat.not_lt]
  simp [Option.isSome_iff_ne_none]

end Plan

/-- A plan in four tables: the SCC of each instruction, the members and the thread of each SCC,
and the SCCs of each thread. -/
structure PlanTables where
  sccOf : Std.TreeMap InstrRef Nat
  members : Array (List InstrRef)
  assigned : Array Nat
  parts : Array (List Nat)

namespace PlanTables

/-- A change of the tables, which may stop and leaves them as they are then. -/
abbrev Update := ExceptT Failure (StateM PlanTables)

def empty (threads : Nat) : PlanTables := ⟨∅, #[], #[], Array.replicate threads []⟩

def threadOf? (t : PlanTables) (i : InstrRef) : Option Nat :=
  t.sccOf[i]?.bind fun s => t.assigned[s]?

/-- Checks the members of the next SCC in order. `seen` holds those that came before. -/
def checkMembers (t : PlanTables) (seen : List InstrRef) : List InstrRef → Except Failure Unit
  | [] => return ()
  | i :: rest =>
      match t.sccOf[i]? with
      | some scc => throw (.violated (.inTwoSccs i scc t.members.size))
      | none =>
          if i ∈ seen then
            throw (.violated (.twiceInScc i t.members.size))
          else
            t.checkMembers (i :: seen) rest

def check (t : PlanTables) (thread : Nat) (members : List InstrRef) : Except Failure Unit := do
  unless thread < t.parts.size do
    throw (.violated (.sccThreadMissing thread t.parts.size))
  unless t.members.size < numberLimit do
    throw (.violated .tooManySccs)
  t.checkMembers [] members

def claim (scc : Nat) : List InstrRef → Update Unit
  | [] => return ()
  | i :: rest => do
      modify fun t => { t with sccOf := t.sccOf.insert i scc }
      claim scc rest

/-- Writes an SCC to the four tables, one after the other, and returns its number. -/
def write (thread : Nat) (members : List InstrRef) : Update Nat := do
  let scc := (← get).members.size
  claim scc members
  modify fun t => { t with members := t.members.push members }
  modify fun t => { t with assigned := t.assigned.push thread }
  modify fun t => { t with parts := t.parts.modify thread fun part => part ++ [scc] }
  return scc

def addScc (thread : Nat) (members : List InstrRef) : Update Nat := do
  (← get).check thread members
  write thread members

def requestAll : List (Nat × List InstrRef) → StateM PlanTables (List (Except Failure Nat))
  | [] => return []
  | (thread, members) :: rest => do
      let answer ← (addScc thread members).run
      return answer :: (← requestAll rest)

def granted (calls : List (Nat × List InstrRef)) (answers : List (Except Failure Nat)) :
    List (Scc × Nat) :=
  (calls.zip answers).filterMap fun (call, answer) =>
    answer.toOption.map fun s => (⟨call.1, call.2⟩, s)

theorem granted_cons (call : Nat × List InstrRef) (calls : List (Nat × List InstrRef))
    (answer : Except Failure Nat) (answers : List (Except Failure Nat)) :
    granted (call :: calls) (answer :: answers) =
      granted [call] [answer] ++ granted calls answers :=
  List.filterMap_append (l := [(call, answer)])

theorem length_granted_le (calls : List (Nat × List InstrRef))
    (answers : List (Except Failure Nat)) : (granted calls answers).length ≤ calls.length := by
  refine Nat.le_trans (List.length_filterMap_le ..) ?_
  rw [List.length_zip]
  exact Nat.min_le_left ..

structure Describes (t : PlanTables) (plan : Plan) : Prop where
  sccOf : ∀ i : InstrRef, t.sccOf[i]? = plan.sccOf? i
  members : t.members = (plan.sccs.map Scc.members).toArray
  assigned : t.assigned = (plan.sccs.map Scc.thread).toArray
  parts : t.parts = ((List.range plan.threads).map plan.part).toArray

variable {t t' : PlanTables} {plan plan' : Plan} {thread : Nat} {members : List InstrRef}

theorem describes_empty (threads : Nat) : (empty threads).Describes (Plan.empty threads) where
  sccOf := fun _ => Std.TreeMap.getElem?_emptyc
  members := rfl
  assigned := rfl
  parts := by
    have hparts : (List.range threads).map (Plan.empty threads).part =
        (List.range threads).map fun _ => [] := rfl
    rw [Plan.empty] at hparts
    simp [empty, Plan.empty, hparts]

/-- The second change starts from the tables that the first one leaves behind. -/
theorem run_bind_of_ok {α β : Type} {first : Update α} {second : α → Update β} {a : α}
    (h : first.run.run t = (.ok a, t')) : (first >>= second).run.run t = (second a).run.run t' := by
  rw [ExceptT.run_bind, StateT.run_bind, h]
  rfl

/-- Members that have been entered belong to the SCC, and all others where they belonged. -/
theorem run_claim (scc : Nat) (members : List InstrRef) (t : PlanTables) :
    ∃ sccOf : Std.TreeMap InstrRef Nat, (claim scc members).run.run t = (.ok (), { t with sccOf }) ∧
      ∀ i : InstrRef, sccOf[i]? = if i ∈ members then some scc else t.sccOf[i]? := by
  induction members generalizing t with
  | nil => exact ⟨t.sccOf, rfl, by simp⟩
  | cons i members ih =>
      obtain ⟨sccOf, hrun, hsccOf⟩ := ih { t with sccOf := t.sccOf.insert i scc }
      refine ⟨sccOf, hrun, fun j => ?_⟩
      simp only [hsccOf, Std.TreeMap.getElem?_insert, Std.LawfulEqOrd.compare_eq_iff_eq]
      by_cases hj : j ∈ members
      · simp [hj]
      · by_cases hij : i = j
        · simp [hij]
        · simp [hj, hij, Ne.symm hij]

theorem run_addScc_eq (t : PlanTables) (thread : Nat) (members : List InstrRef) :
    (addScc thread members).run.run t =
      ((liftM (t.check thread members) : Update Unit) >>= fun _ =>
        write thread members).run.run t :=
  rfl

/-- What is refused is refused before the first table is written to. -/
theorem run_addScc_of_error {failure : Failure} (h : t.check thread members = .error failure) :
    (addScc thread members).run.run t = (.error failure, t) := by
  rw [run_addScc_eq, h]
  rfl

/-- What is granted is entered into all four tables. -/
theorem run_addScc_of_ok (h : t.check thread members = .ok ()) :
    ∃ sccOf : Std.TreeMap InstrRef Nat,
      (addScc thread members).run.run t = (.ok t.members.size, {
        sccOf
        members := t.members.push members
        assigned := t.assigned.push thread
        parts := t.parts.modify thread fun part => part ++ [t.members.size] }) ∧
      ∀ i : InstrRef, sccOf[i]? = if i ∈ members then some t.members.size else t.sccOf[i]? := by
  obtain ⟨sccOf, hclaim, hsccOf⟩ := run_claim t.members.size members t
  refine ⟨sccOf, ?_, hsccOf⟩
  have hgranted :
      (liftM (Except.ok () : Except Failure Unit) : Update Unit).run.run t = (.ok (), t) :=
    rfl
  have hwrite : (write thread members).run.run t = (claim t.members.size members >>= fun _ =>
    _).run.run t := rfl
  rw [run_addScc_eq, h, run_bind_of_ok hgranted, hwrite, run_bind_of_ok hclaim]
  rfl

namespace Describes

theorem size_members (h : t.Describes plan) : t.members.size = plan.sccs.length := by
  simp [h.members]

theorem size_parts (h : t.Describes plan) : t.parts.size = plan.threads := by
  simp [h.parts]

theorem threadOf? (h : t.Describes plan) (i : InstrRef) : t.threadOf? i = plan.threadOf? i := by
  simp [PlanTables.threadOf?, Plan.threadOf?_eq, h.sccOf, h.assigned]

theorem checkMembers (h : t.Describes plan) (seen members : List InstrRef) :
    t.checkMembers seen members = plan.checkMembers seen members := by
  induction members generalizing seen with
  | nil => rfl
  | cons i members ih =>
      cases hscc : plan.sccOf? i with
      | some s =>
          simp only [PlanTables.checkMembers, Plan.checkMembers, h.sccOf, hscc, h.size_members]
      | none =>
          simp only [PlanTables.checkMembers, Plan.checkMembers, h.sccOf, hscc, h.size_members, ih]

/-- The tables refuse what the plan refuses, and for the same reason. -/
theorem check (h : t.Describes plan) (thread : Nat) (members : List InstrRef) :
    t.check thread members = (plan.addScc thread members).map fun _ => () := by
  unfold PlanTables.check Plan.addScc
  rw [h.size_members, h.size_parts, h.checkMembers]
  by_cases hthread : thread < plan.threads
  · by_cases hlimit : plan.sccs.length < numberLimit
    · simp only [hthread, hlimit, if_true]
      cases plan.checkMembers [] members <;> rfl
    · simp only [hthread, hlimit, if_true, if_false]
      rfl
  · simp only [hthread, if_false]
    rfl

/-- An SCC that is granted is entered into the tables as it is added to the plan. -/
theorem push (h : t.Describes plan) (sccOf : Std.TreeMap InstrRef Nat)
    (hadd : plan.addScc thread members = .ok plan')
    (hsccOf : ∀ i : InstrRef,
      sccOf[i]? = if i ∈ members then some t.members.size else t.sccOf[i]?) :
    Describes {
      sccOf
      members := t.members.push members
      assigned := t.assigned.push thread
      parts := t.parts.modify thread fun part => part ++ [t.members.size] } plan' := by
  obtain ⟨⟨-, -, hnew, -⟩, rfl⟩ := Plan.addScc_eq_ok_iff.1 hadd
  constructor
  case sccOf =>
    intro i
    rw [hsccOf, h.size_members, h.sccOf, Plan.sccOf?_concat]
    by_cases hi : i ∈ members
    · simp [hi, hnew i hi]
    · simp [hi]
  case members => simp [h.members]
  case assigned => simp [h.assigned]
  case parts =>
    apply Array.ext_getElem?
    intro k
    rw [h.size_members, h.parts, Array.getElem?_modify]
    by_cases hk : k < plan.threads
    · by_cases hthread : thread = k
      · simp [hk, hthread, Plan.part_concat]
      · simp [hk, hthread, Plan.part_concat]
    · simp [hk]

/-- One request: the tables give the plan's answer, and describe the plan afterwards. -/
theorem addScc (h : t.Describes plan) (thread : Nat) (members : List InstrRef) :
    (∃ failure, plan.addScc thread members = .error failure ∧
      (PlanTables.addScc thread members).run.run t = (.error failure, t)) ∨
    (∃ plan' t', plan.addScc thread members = .ok plan' ∧ t'.Describes plan' ∧
      (PlanTables.addScc thread members).run.run t = (.ok plan.sccs.length, t')) := by
  have hcheck := h.check thread members
  cases hadd : plan.addScc thread members with
  | error failure =>
      rw [hadd] at hcheck
      exact .inl ⟨failure, rfl, run_addScc_of_error hcheck⟩
  | ok plan' =>
      rw [hadd] at hcheck
      obtain ⟨sccOf, hrun, hsccOf⟩ := run_addScc_of_ok hcheck
      rw [h.size_members] at hrun
      exact .inr ⟨plan', _, rfl, h.push sccOf hadd hsccOf, h.size_members ▸ hrun⟩

/-- A refused request leaves all four tables as they were. -/
theorem eq_of_refused {failure : Failure} (h : t.Describes plan)
    (hrun : (PlanTables.addScc thread members).run.run t = (.error failure, t')) : t' = t := by
  rcases h.addScc thread members with ⟨failure', -, hrun'⟩ | ⟨plan', t'', -, -, hrun'⟩
  · exact (congrArg Prod.snd (hrun'.symm.trans hrun)).symm
  · cases hrun'.symm.trans hrun

theorem refused_iff (h : t.Describes plan) (hlimit : plan.sccs.length < numberLimit) :
    (∃ failure t', (PlanTables.addScc thread members).run.run t = (.error failure, t')) ↔
      plan.threads ≤ thread ∨ (∃ i ∈ members, (t.sccOf[i]?).isSome) ∨ ¬ members.Nodup := by
  simp only [h.sccOf]
  rw [← Plan.addScc_eq_error_iff hlimit]
  rcases h.addScc thread members with ⟨failure, hadd, hrun⟩ | ⟨plan', t', hadd, -, hrun⟩
  · exact ⟨fun _ => ⟨failure, hadd⟩, fun _ => ⟨failure, t, hrun⟩⟩
  · refine ⟨?_, ?_⟩
    · rintro ⟨failure, t'', hrun'⟩
      cases hrun.symm.trans hrun'
    · rintro ⟨failure, hadd'⟩
      cases hadd.symm.trans hadd'

theorem request (h : t.Describes plan) (call : Nat × List InstrRef) :
    ∃ answer t', (PlanTables.addScc call.1 call.2).run.run t = (answer, t') ∧
      t'.Describes (plan.request call) ∧
      (plan.request call).sccs.zipIdx = plan.sccs.zipIdx ++ granted [call] [answer] := by
  rcases h.addScc call.1 call.2 with ⟨failure, hadd, hrun⟩ | ⟨plan', t', hadd, ht', hrun⟩
  · have hrequest : plan.request call = plan := by simp [Plan.request, hadd, Except.toOption]
    refine ⟨_, _, hrun, ?_⟩
    rw [hrequest]
    exact ⟨h, by simp [granted, Except.toOption]⟩
  · have hrequest : plan.request call = plan' := by simp [Plan.request, hadd, Except.toOption]
    refine ⟨_, _, hrun, ?_⟩
    rw [hrequest]
    obtain ⟨-, rfl⟩ := Plan.addScc_eq_ok_iff.1 hadd
    exact ⟨ht', by simp [granted, Except.toOption, List.zipIdx_append]⟩

/-- Any number of requests: the tables describe the plan afterwards, and its new SCCs are those
that were granted, under the numbers that were answered. -/
theorem requestAll (h : t.Describes plan) (calls : List (Nat × List InstrRef)) :
    ((PlanTables.requestAll calls).run t).2.Describes (plan.requestAll calls) ∧
      (plan.requestAll calls).sccs.zipIdx =
        plan.sccs.zipIdx ++ granted calls ((PlanTables.requestAll calls).run t).1 := by
  induction calls generalizing t plan with
  | nil => exact ⟨h, by simp [Plan.requestAll, granted]⟩
  | cons call calls ih =>
      obtain ⟨answer, t', hrun, ht', hgranted⟩ := h.request call
      obtain ⟨hdescribes, hall⟩ := ih ht'
      have hrunAll : (PlanTables.requestAll (call :: calls)).run t =
          (answer :: ((PlanTables.requestAll calls).run t').1,
            ((PlanTables.requestAll calls).run t').2) := by
        conv_lhs => rw [PlanTables.requestAll, StateT.run_bind, hrun]
        rfl
      rw [hrunAll]
      refine ⟨hdescribes, hall.trans ?_⟩
      rw [hgranted, List.append_assoc, ← granted_cons]

end Describes

/-- **Agreement after any requests.** Start with tables for `threads` threads and make requests,
granted or refused. The tables then hold what the plan says, and what the plan says fits together;
its SCCs are those that were granted, numbered in that order. The next request is refused if its
thread does not exist, if an SCC has one of its members or if a member is repeated, and in no other
case, and what is refused leaves all four tables as they were. -/
theorem requests_keep_agreement (threads : Nat) (calls : List (Nat × List InstrRef))
    (hcalls : calls.length < numberLimit) :
    let answers := ((requestAll calls).run (empty threads)).1
    let t := ((requestAll calls).run (empty threads)).2
    let plan := (Plan.empty threads).requestAll calls
    t.Describes plan ∧ (∀ i, t.threadOf? i = plan.threadOf? i) ∧
      plan.Coherent ∧ plan.threads = threads ∧ plan.sccs.zipIdx = granted calls answers ∧
      ∀ thread members,
        (∀ failure t', (addScc thread members).run.run t = (.error failure, t') → t' = t) ∧
        ((∃ failure t', (addScc thread members).run.run t = (.error failure, t')) ↔
          threads ≤ thread ∨ (∃ i ∈ members, (t.sccOf[i]?).isSome) ∨ ¬ members.Nodup) := by
  intro answers t plan
  obtain ⟨hdescribes, hgranted⟩ := (describes_empty threads).requestAll calls
  have hthreads : plan.threads = threads := Plan.threads_requestAll (Plan.empty threads) calls
  have hsccs : plan.sccs.zipIdx = granted calls answers := hgranted
  have hlimit : plan.sccs.length < numberLimit := by
    refine Nat.lt_of_le_of_lt ?_ hcalls
    calc plan.sccs.length
      _ = (granted calls answers).length := by rw [← hsccs, List.length_zipIdx]
      _ ≤ calls.length := length_granted_le calls answers
  refine ⟨hdescribes, hdescribes.threadOf?,
    ((Plan.orderly_empty threads).requestAll calls).coherent, hthreads, hsccs,
    fun thread members => ⟨fun failure t' => hdescribes.eq_of_refused, ?_⟩⟩
  exact hthreads ▸ hdescribes.refused_iff hlimit

/-- Two requests are granted and three refused, the first of which starts with an instruction that
may still be claimed, and is by the last. -/
theorem requests_keep_agreement_mixed :
    let calls : List (Nat × List InstrRef) :=
      [(0, [⟨4⟩, ⟨7⟩]), (1, [⟨5⟩, ⟨7⟩]), (1, [⟨5⟩, ⟨6⟩, ⟨5⟩]), (2, [⟨5⟩]), (1, [⟨6⟩, ⟨5⟩])]
    let plan := (Plan.empty 2).requestAll calls
    calls.length < numberLimit ∧ ((requestAll calls).run (empty 2)).2.Describes plan ∧
      plan.Coherent ∧ plan.sccs = [⟨0, [⟨4⟩, ⟨7⟩]⟩, ⟨1, [⟨6⟩, ⟨5⟩]⟩] := by
  intro calls plan
  have hcalls : calls.length < numberLimit := by decide
  obtain ⟨hdescribes, -, hcoherent, -⟩ := requests_keep_agreement 2 calls hcalls
  exact ⟨hcalls, hdescribes, hcoherent, by decide⟩

end PlanTables

end Decouple
