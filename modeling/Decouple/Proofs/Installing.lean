import Decouple.Proofs.Code
import Decouple.Proofs.Stability
import Decouple.Split.Dispatch
import Mathlib.Algebra.BigOperators.Group.Finset.Basic

/-!
# What putting a block in the place of a loop leaves behind

`Dispatch.install` in one statement (`installed_of_install`): the program after it has
one block more, which lists exactly the instructions of `replacementCode`, and its
old instructions are the same up to three changes, each in the instructions it is
made in: branches from the header to the new block, φs from the loop to the new
block, and operands from live-outs to the loaded values.

It is made in two halves. The first adds the block, still empty, and changes branches
and φs (`Wired`); the second writes the code of the block and renames the readers of
live-outs before the final branch (`Written`).
-/

namespace Decouple

open Outcome

def Loop.image (loop : Loop) (replacement b : BlockRef) : BlockRef :=
  if b ∈ loop then replacement else b

namespace Dispatch

variable {s : Setting} {p q : Program} {b : BlockRef}

theorem storeArgs_writes {exchange : Exchange} {argPtr : InstrRef} {k : Nat} {values : List Value}
    {u : Unit} (hend : EndsWith p b [])
    (h : (storeArgs exchange b argPtr k values).apply p = (.ok u, q)) :
    Writes b [] (storeCode exchange.args argPtr p.instrs.size (values.zipIdx k)) p q := by
  induction values generalizing p k with
  | nil =>
      obtain ⟨-, rfl⟩ := Edit.pure_eq_ok_iff.1 h
      exact .refl hend
  | cons v values ih =>
      unfold storeArgs at h
      rw [Edit.get_bind_eq_ok_iff] at h
      obtain ⟨name, p', hname, h⟩ := Edit.apply_bind_eq_ok_iff.1 h
      obtain ⟨-, rfl⟩ := Edit.liftM_eq_ok_iff.1 hname
      obtain ⟨n, p', hfield, h⟩ := Edit.apply_bind_eq_ok_iff.1 h
      obtain ⟨hn, rfl⟩ := Edit.liftM_eq_ok_iff.1 hfield
      obtain rfl := Exchange.field_eq_ok hn
      obtain ⟨addr, p₁, haddr, h⟩ := Edit.apply_bind_eq_ok_iff.1 h
      obtain ⟨rfl, hwrites⟩ := Writes.of_appendInstr haddr
      obtain ⟨store, p₂, hstore, h⟩ := Edit.apply_bind_eq_ok_iff.1 h
      obtain ⟨-, hwrites'⟩ := Writes.of_appendInstr hstore
      have hrest := ih hwrites'.endsWith h
      have hsize : p₂.instrs.size = p.instrs.size + 2 := by
        rw [hwrites'.size_eq, hwrites.size_eq]
        rfl
      rw [hsize] at hrest
      exact (hwrites.trans hwrites').trans hrest

theorem callWorkers_writes {dispatch : FuncRef} {shared : InstrRef} {thread : Nat}
    {workers : List FuncRef} {u : Unit} (hend : EndsWith p b [])
    (h : (callWorkers b dispatch shared thread workers).apply p = (.ok u, q)) :
    Writes b [] (callCode dispatch shared thread workers) p q := by
  induction workers generalizing p thread with
  | nil =>
      obtain ⟨-, rfl⟩ := Edit.pure_eq_ok_iff.1 h
      exact .refl hend
  | cons worker workers ih =>
      unfold callWorkers at h
      obtain ⟨call, p₁, hcall, h⟩ := Edit.apply_bind_eq_ok_iff.1 h
      obtain ⟨-, hwrites⟩ := Writes.of_appendInstr hcall
      exact hwrites.trans (ih hwrites.endsWith h)

/-- The functions of the runtime that are called are the first ones of the names that the
configuration has for them. -/
structure EntryPoints (s : Setting) (p : Program) (init dispatch join : FuncRef) : Prop where
  init : p.funcNamed? s.config.runtime.init = some init
  dispatch : p.funcNamed? s.config.runtime.dispatch = some dispatch
  join : p.funcNamed? s.config.runtime.join = some join

theorem EntryPoints.keep {init dispatch join : FuncRef} (h : EntryPoints s p init dispatch join)
    (hkept : ∀ name f, p.funcNamed? name = some f → q.funcNamed? name = some f) :
    EntryPoints s q init dispatch join :=
  ⟨hkept _ _ h.init, hkept _ _ h.dispatch, hkept _ _ h.join⟩

theorem runWorkers_writes {argPtr : InstrRef} {workers : List FuncRef} {u : Unit}
    (hend : EndsWith p b []) (h : (runWorkers s b argPtr workers).apply p = (.ok u, q)) :
    ∃ init dispatch join, EntryPoints s q init dispatch join ∧
      Writes b [] (runCode init dispatch join argPtr p.instrs.size workers) p q := by
  unfold runWorkers at h
  obtain ⟨init, p₁, hinit, h⟩ := Edit.apply_bind_eq_ok_iff.1 h
  obtain ⟨dispatch, p₂, hdispatch, h⟩ := Edit.apply_bind_eq_ok_iff.1 h
  obtain ⟨join, p₃, hjoin, h⟩ := Edit.apply_bind_eq_ok_iff.1 h
  obtain ⟨start, p₄, hstart, h⟩ := Edit.apply_bind_eq_ok_iff.1 h
  obtain ⟨shared, p₅, hshared, h⟩ := Edit.apply_bind_eq_ok_iff.1 h
  obtain ⟨_, p₆, hcalls, h⟩ := Edit.apply_bind_eq_ok_iff.1 h
  obtain ⟨await, p₇, hawait, h⟩ := Edit.apply_bind_eq_ok_iff.1 h
  obtain ⟨-, rfl⟩ := Edit.pure_eq_ok_iff.1 h
  have h₁ := Writes.of_requireFunc hend hinit
  have hsecond := Writes.of_requireFunc h₁.endsWith hdispatch
  have h₂ := h₁.trans hsecond
  have hthird := Writes.of_requireFunc h₂.endsWith hjoin
  have h₃ := h₂.trans hthird
  have hfound : EntryPoints s p₃ init dispatch join := by
    refine ⟨?_, ?_, Edit.funcNamed?_of_requireFunc hjoin⟩
    · exact hthird.funcNamed?_kept
        (hsecond.funcNamed?_kept (Edit.funcNamed?_of_requireFunc hinit))
    · exact hthird.funcNamed?_kept (Edit.funcNamed?_of_requireFunc hdispatch)
  obtain ⟨-, hcall⟩ := Writes.of_appendInstr hstart
  obtain ⟨hsharedref, hcast⟩ := Writes.of_appendInstr hshared
  have hboth := hcall.trans hcast
  have h₅ := h₃.trans hboth
  have hsize : p₄.instrs.size = p.instrs.size + 1 := by
    rw [hcall.size_eq, h₃.size_eq]
    rfl
  rw [hsize] at hsharedref
  subst hsharedref
  have hcalls := callWorkers_writes h₅.endsWith hcalls
  obtain ⟨-, hlast⟩ := Writes.of_appendInstr hawait
  exact ⟨init, dispatch, join,
    hfound.keep fun _ _ hf => ((hboth.trans hcalls).trans hlast).funcNamed?_kept hf,
    (h₅.trans hcalls).trans hlast⟩

/-- Loading writes `loadCode`, and what is loaded has the types of the live-outs. -/
theorem loadOuts_writes {exchange : Exchange} {outPtr : InstrRef} {k : Nat}
    {is : List InstrRef} {σ σ' : Renaming} (hend : EndsWith p b [])
    (h : (loadOuts exchange b outPtr k is σ).apply p = (.ok σ', q)) :
    ∃ types, q.valueTypes (is.map .instr) = .ok types ∧
      Writes b [] (loadCode exchange.outs outPtr p.instrs.size k types) p q ∧
      σ' = loadRenaming σ p.instrs.size (is.map .instr) := by
  induction is generalizing p k σ with
  | nil =>
      obtain ⟨rfl, rfl⟩ := Edit.pure_eq_ok_iff.1 h
      exact ⟨[], rfl, .refl hend, rfl⟩
  | cons i is ih =>
      unfold loadOuts at h
      rw [Edit.get_bind_eq_ok_iff] at h
      obtain ⟨name, p', hname, h⟩ := Edit.apply_bind_eq_ok_iff.1 h
      obtain ⟨-, rfl⟩ := Edit.liftM_eq_ok_iff.1 hname
      obtain ⟨ty, p', hlookup, h⟩ := Edit.apply_bind_eq_ok_iff.1 h
      obtain ⟨hty, rfl⟩ := Edit.liftM_eq_ok_iff.1 hlookup
      obtain ⟨n, p', hfield, h⟩ := Edit.apply_bind_eq_ok_iff.1 h
      obtain ⟨hn, rfl⟩ := Edit.liftM_eq_ok_iff.1 hfield
      obtain rfl := Exchange.field_eq_ok hn
      obtain ⟨addr, p₁, haddr, h⟩ := Edit.apply_bind_eq_ok_iff.1 h
      obtain ⟨rfl, hwrites⟩ := Writes.of_appendInstr haddr
      obtain ⟨loaded, p₂, hload, h⟩ := Edit.apply_bind_eq_ok_iff.1 h
      obtain ⟨rfl, hwrites'⟩ := Writes.of_appendInstr hload
      obtain ⟨types, htypes, hrest, rfl⟩ := ih hwrites'.endsWith h
      have hsize₁ : p₁.instrs.size = p.instrs.size + 1 := hwrites.size_eq
      have hsize₂ : p₂.instrs.size = p.instrs.size + 2 := by
        rw [hwrites'.size_eq, hsize₁]
        rfl
      rw [hsize₂] at hrest
      have hall := (hwrites.trans hwrites').trans hrest
      have hty' := (Program.KeepsTypes.of_writes hall).valueType_eq_ok hty
      refine ⟨ty :: types, mapM_eq_ok_iff.2 (.cons hty' (mapM_eq_ok_iff.1 htypes)), hall, ?_⟩
      rw [hsize₁, hsize₂]
      rfl

theorem endOf_congr (h : q.blocks = p.blocks) : q.endOf = p.endOf := by
  funext b
  simp only [Program.endOf, Program.block?, h]

def aim (s : Setting) (replacement target : BlockRef) : BlockRef :=
  if target = s.loop.header then replacement else target

theorem aim_aim (s : Setting) (replacement target : BlockRef) :
    aim s replacement (aim s replacement target) = aim s replacement target := by
  unfold aim
  split_ifs <;> rfl

/-- The change that turns branches from the header to the replacement. -/
def turn (s : Setting) (replacement : BlockRef) (instr : Instr) : Instr :=
  { instr with op := instr.op.mapSuccessors (aim s replacement) }

/-- The change that lets a φ come from the replacement where it came from the
loop. -/
def reroute (s : Setting) (replacement : BlockRef) (instr : Instr) : Instr :=
  { instr with op := instr.op.mapIncoming (s.loop.image replacement) }

def renamed (σ : Renaming) (instr : Instr) : Instr :=
  { instr with op := instr.op.mapOperands σ.rename }

theorem turn_of_not_isTerminator {replacement : BlockRef} {instr : Instr}
    (h : ¬ instr.op.isTerminator) : turn s replacement instr = instr := by
  obtain ⟨block, op, ty, name⟩ := instr
  cases op with
  | br | condBr | switch | ret | unreachable => exact absurd rfl h
  | _ => rfl

/-- Turning the branches of one block changes the instruction at its end, and counts
the branches that are turned. -/
theorem redirectBlock_rewrites {replacement : BlockRef} {n : Nat}
    (h : (redirectBlock s replacement b).apply p = (.ok n, q)) :
    Rewrites (fun j => (turn s replacement)^[(p.endOf b).toList.count j]) p q ∧
      ∃ targets, p.successors b = .ok targets ∧ n = targets.count s.loop.header := by
  unfold redirectBlock at h
  rw [Edit.get_bind_eq_ok_iff] at h
  obtain ⟨last?, p', hlookup, h⟩ := Edit.apply_bind_eq_ok_iff.1 h
  obtain ⟨hlast, rfl⟩ := Edit.liftM_eq_ok_iff.1 hlookup
  obtain ⟨block, hblock, ⟨hnone, rfl⟩ | ⟨last, instr, hsome, hinstr, heq⟩⟩ :=
    Program.terminator_eq_ok_iff.1 hlast
  · obtain ⟨rfl, rfl⟩ := Edit.pure_eq_ok_iff.1 h
    have hend : p.endOf b = none := by simp [Program.endOf, hblock, hnone]
    refine ⟨(Rewrites.refl p).congr ?_, [], ?_, rfl⟩
    · intro j instr _
      rw [hend]
      rfl
    · exact Program.successors_eq_ok_iff.2 ⟨block, hblock, .inl ⟨hnone, rfl⟩⟩
  · have hend : p.endOf b = some last := by simp [Program.endOf, hblock, hsome]
    have hsuccs := Program.successors_eq_of_getLast? hblock hsome hinstr
    by_cases hterm : instr.op.isTerminator
    · rw [if_pos hterm] at heq
      subst heq
      obtain ⟨instr', p', hlookup, h⟩ := Edit.apply_bind_eq_ok_iff.1 h
      obtain ⟨hfound, rfl⟩ := Edit.liftM_eq_ok_iff.1 hlookup
      rw [Program.instr_eq_ok_iff, hinstr] at hfound
      obtain rfl := Option.some.inj hfound
      obtain ⟨_, p₁, hset, h⟩ := Edit.apply_bind_eq_ok_iff.1 h
      obtain ⟨rfl, rfl⟩ := Edit.pure_eq_ok_iff.1 h
      rw [hend]
      exact ⟨Rewrites.of_setInstr (turn s replacement) hinstr hset, _, hsuccs, rfl⟩
    · rw [if_neg hterm] at heq
      subst heq
      obtain ⟨rfl, rfl⟩ := Edit.pure_eq_ok_iff.1 h
      refine ⟨(Rewrites.refl p).congr ?_, [], ?_, rfl⟩
      · intro j instr' hj
        rw [hend]
        by_cases hjlast : j = last
        · subst hjlast
          rw [hinstr] at hj
          obtain rfl := Option.some.inj hj
          simp [turn_of_not_isTerminator hterm]
        · simp [Ne.symm hjlast]
      · rw [hsuccs, Op.successors_of_not_isTerminator hterm]

/-- The instructions at the ends of those of the blocks that keep their place. -/
def outsideEnds (s : Setting) (p : Program) (replacement : BlockRef) (blocks : List BlockRef) :
    List InstrRef :=
  (blocks.filter (isOutside s replacement)).filterMap p.endOf

theorem redirect_cons_eq_ok {replacement : BlockRef} {blocks : List BlockRef} {n : Nat}
    (h : (redirect s replacement (b :: blocks)).apply p = (.ok n, q)) :
    ∃ here p₁ later,
      (if isOutside s replacement b then redirectBlock s replacement b else pure 0).apply p =
        (.ok here, p₁) ∧
      (redirect s replacement blocks).apply p₁ = (.ok later, q) ∧ n = here + later := by
  unfold redirect at h
  by_cases houtside : isOutside s replacement b
  · simp only [houtside, if_true] at h ⊢
    obtain ⟨here, p₁, hhere, h⟩ := Edit.apply_bind_eq_ok_iff.1 h
    obtain ⟨later, p₂, hlater, h⟩ := Edit.apply_bind_eq_ok_iff.1 h
    obtain ⟨rfl, rfl⟩ := Edit.pure_eq_ok_iff.1 h
    exact ⟨here, p₁, later, hhere, hlater, rfl⟩
  · simp only [houtside] at h ⊢
    obtain ⟨here, p₁, hhere, h⟩ := Edit.apply_bind_eq_ok_iff.1 h
    obtain ⟨later, p₂, hlater, h⟩ := Edit.apply_bind_eq_ok_iff.1 h
    obtain ⟨rfl, rfl⟩ := Edit.pure_eq_ok_iff.1 h
    exact ⟨here, p₁, later, hhere, hlater, rfl⟩

theorem redirect_rewrites {replacement : BlockRef} {blocks : List BlockRef} {n : Nat}
    (h : (redirect s replacement blocks).apply p = (.ok n, q)) :
    Rewrites (fun j => (turn s replacement)^[
      (outsideEnds s p replacement blocks).count j]) p q := by
  induction blocks generalizing p n with
  | nil =>
      obtain ⟨-, rfl⟩ := Edit.pure_eq_ok_iff.1 h
      exact (Rewrites.refl p).congr fun _ _ _ => rfl
  | cons b blocks ih =>
      obtain ⟨here, p₁, later, hhere, hlater, rfl⟩ := redirect_cons_eq_ok h
      have hrest := ih hlater
      have hblocks : p₁.blocks = p.blocks := by
        split at hhere
        · exact (redirectBlock_rewrites hhere).1.blocks_eq
        · obtain ⟨-, rfl⟩ := Edit.pure_eq_ok_iff.1 hhere
          rfl
      have hends : outsideEnds s p₁ replacement blocks = outsideEnds s p replacement blocks := by
        simp only [outsideEnds, endOf_congr hblocks]
      rw [hends] at hrest
      split at hhere
      · next houtside =>
          refine ((redirectBlock_rewrites hhere).1.trans hrest).congr ?_
          intro j instr _
          have hcons : outsideEnds s p replacement (b :: blocks) =
              (p.endOf b).toList ++ outsideEnds s p replacement blocks := by
            unfold outsideEnds
            rw [List.filter_cons_of_pos houtside, List.filterMap_cons]
            cases p.endOf b <;> rfl
          rw [hcons, List.count_append, Nat.add_comm, Function.iterate_add_apply]
      · next hinside =>
          obtain ⟨-, rfl⟩ := Edit.pure_eq_ok_iff.1 hhere
          have hcons : outsideEnds s p replacement (b :: blocks) =
              outsideEnds s p replacement blocks := by
            unfold outsideEnds
            rw [List.filter_cons_of_neg hinside]
          rw [hcons]
          exact hrest

theorem turn_turn (replacement : BlockRef) (instr : Instr) :
    turn s replacement (turn s replacement instr) = turn s replacement instr := by
  have haim : aim s replacement ∘ aim s replacement = aim s replacement :=
    funext (aim_aim s replacement)
  rw [turn, turn, Op.mapSuccessors_mapSuccessors, haim]

theorem successors_turn (replacement : BlockRef) (n : Nat) (instr : Instr) :
    ((turn s replacement)^[n] instr).op.successors =
      if n = 0 then instr.op.successors else instr.op.successors.map (aim s replacement) := by
  split
  · next hn => rw [hn, Function.iterate_zero_apply]
  · next hn =>
      rw [iterate_of_idempotent (turn_turn replacement) hn]
      exact Op.successors_mapSuccessors _ _

def headerSlots (loop : Loop) (p : Program) (b : BlockRef) : Nat :=
  (p.targetsOf b).count loop.header

/-- A block that was turned away from the header has no branch to it left. -/
theorem headerSlots_turned {replacement : BlockRef} (hne : replacement ≠ s.loop.header)
    {targets : List BlockRef} (htargets : p.successors b = .ok targets)
    (h : Rewrites (fun j => (turn s replacement)^[(p.endOf b).toList.count j]) p q) :
    headerSlots s.loop q b = 0 := by
  have hsuccs : q.successors b = .ok (targets.map (aim s replacement)) := by
    refine Program.successors_of_changed htargets (h.block? b) ?_
    intro i hi instr hinstr
    have hcount : (p.endOf b).toList.count i ≠ 0 := by
      rw [Option.mem_def.1 hi]
      simp
    refine ⟨_, by rw [h.instr?, hinstr]; rfl, ?_⟩
    rw [successors_turn, if_neg hcount]
  rw [headerSlots, Program.targetsOf, hsuccs, List.count_eq_zero]
  intro hmem
  obtain ⟨target, -, haim⟩ := List.mem_map.1 hmem
  unfold aim at haim
  split_ifs at haim with heq
  · exact hne haim
  · exact heq haim

/-- A block that does not share its last instruction with the turned one keeps its branches. -/
theorem headerSlots_kept {replacement c : BlockRef}
    (h : Rewrites (fun j => (turn s replacement)^[(p.endOf b).toList.count j]) p q)
    (hapart : ∀ i ∈ p.endOf c, i ∉ p.endOf b) :
    headerSlots s.loop q c = headerSlots s.loop p c := by
  have hsame : q.successors c = p.successors c := by
    refine Program.successors_congr (h.block? c) ?_
    intro i hi
    have hzero : (p.endOf b).toList.count i = 0 := by
      rw [List.count_eq_zero, Option.mem_toList]
      exact hapart i hi
    rw [h.instr?, hzero]
    exact Option.map_id'
  rw [headerSlots, headerSlots, Program.targetsOf, Program.targetsOf, hsame]

/-- Counting the branches to the header while they are turned away from it: each
block outside the loop is counted once, even if it is visited again. -/
theorem redirect_count {replacement : BlockRef} (hne : replacement ≠ s.loop.header)
    {blocks : List BlockRef} {n : Nat}
    (hsingle : ∀ b ∈ blocks, ∀ c ∈ blocks, ∀ i ∈ p.endOf b, i ∈ p.endOf c → b = c)
    (h : (redirect s replacement blocks).apply p = (.ok n, q)) :
    n = ∑ b ∈ (blocks.filter (isOutside s replacement)).toFinset, headerSlots s.loop p b := by
  induction blocks generalizing p n with
  | nil =>
      obtain ⟨rfl, -⟩ := Edit.pure_eq_ok_iff.1 h
      rfl
  | cons b blocks ih =>
      obtain ⟨here, p₁, later, hhere, hlater, rfl⟩ := redirect_cons_eq_ok h
      have hrest : ∀ c ∈ blocks, ∀ d ∈ blocks, ∀ i ∈ p.endOf c, i ∈ p.endOf d → c = d :=
        fun c hc d hd => hsingle c (List.mem_cons_of_mem _ hc) d (List.mem_cons_of_mem _ hd)
      by_cases houtside : isOutside s replacement b
      · rw [if_pos houtside] at hhere
        obtain ⟨hrewrites, targets, htargets, rfl⟩ := redirectBlock_rewrites hhere
        have hends := endOf_congr hrewrites.blocks_eq
        rw [List.filter_cons_of_pos houtside, List.toFinset_cons,
          ← Finset.add_sum_erase _ _ (Finset.mem_insert_self b _), Finset.erase_insert_eq_erase,
          ih (by simpa only [hends] using hrest) hlater,
          ← Finset.sum_erase _ (headerSlots_turned hne htargets hrewrites)]
        refine congrArg₂ _ (by rw [headerSlots, Program.targetsOf, htargets]; rfl)
          (Finset.sum_congr rfl ?_)
        intro c hc
        obtain ⟨hcb, hc⟩ := Finset.mem_erase.1 hc
        have hmem : c ∈ blocks := List.mem_of_mem_filter (List.mem_toFinset.1 hc)
        refine headerSlots_kept hrewrites fun i hi hib => hcb ?_
        exact hsingle c (List.mem_cons_of_mem _ hmem) b (List.mem_cons_self ..) i hi hib
      · rw [if_neg houtside] at hhere
        obtain ⟨rfl, rfl⟩ := Edit.pure_eq_ok_iff.1 hhere
        rw [List.filter_cons_of_neg houtside, Nat.zero_add]
        exact ih hrest hlater

/-- Branches can be turned only where they can be read. -/
theorem redirect_readable {replacement : BlockRef} {blocks : List BlockRef} {n : Nat}
    (h : (redirect s replacement blocks).apply p = (.ok n, q)) :
    ∀ b ∈ blocks, isOutside s replacement b → ∃ targets, p.successors b = .ok targets := by
  induction blocks generalizing p n with
  | nil =>
      intro b hb
      exact absurd hb List.not_mem_nil
  | cons b blocks ih =>
      obtain ⟨here, p₁, later, hhere, hlater, rfl⟩ := redirect_cons_eq_ok h
      intro c hc houtside
      split at hhere
      · obtain ⟨hrewrites, targets, htargets, -⟩ := redirectBlock_rewrites hhere
        rcases List.mem_cons.1 hc with rfl | hc
        · exact ⟨targets, htargets⟩
        · obtain ⟨targets, htargets⟩ := ih hlater c hc houtside
          exact hrewrites.readable htargets
      · next hinside =>
          obtain ⟨-, rfl⟩ := Edit.pure_eq_ok_iff.1 hhere
          rcases List.mem_cons.1 hc with rfl | hc
          · exact absurd houtside hinside
          · exact ih hlater c hc houtside

theorem retarget_rewrites {replacement : BlockRef} {is : List InstrRef} {u : Unit}
    (h : (retarget s replacement is).apply p = (.ok u, q)) :
    Rewrites (fun j => (reroute s replacement)^[is.count j]) p q :=
  Rewrites.of_forM h

/-- More functions and structure types write nothing into a block. -/
theorem addWorkers_writes {threads : List Nat} {workers : List FuncRef}
    (hend : EndsWith p b [])
    (h : (threads.mapM (addWorker s)).apply p = (.ok workers, q)) : Writes b [] [] p q := by
  induction threads generalizing p workers with
  | nil =>
      rw [List.mapM_nil] at h
      obtain ⟨-, rfl⟩ := Edit.pure_eq_ok_iff.1 h
      exact .refl hend
  | cons thread threads ih =>
      rw [List.mapM_cons] at h
      obtain ⟨worker, p₁, hworker, h⟩ := Edit.apply_bind_eq_ok_iff.1 h
      obtain ⟨rest, p₂, hrest, h⟩ := Edit.apply_bind_eq_ok_iff.1 h
      obtain ⟨-, rfl⟩ := Edit.pure_eq_ok_iff.1 h
      unfold addWorker at hworker
      rw [Edit.get_bind_eq_ok_iff] at hworker
      split at hworker
      · exact absurd hworker Edit.throw_ne_ok
      · have hfirst := Writes.of_addFunc hend hworker
        exact hfirst.trans (ih hfirst.endsWith hrest)

theorem declare_writes {loopId : Nat} {liveIn : List Value} {liveOut : List InstrRef}
    {exchange : Exchange} (hend : EndsWith p b [])
    (h : (Exchange.declare loopId liveIn liveOut).apply p = (.ok exchange, q)) :
    Writes b [] [] p q := by
  unfold Exchange.declare at h
  rw [Edit.get_bind_eq_ok_iff] at h
  obtain ⟨outTypes, p', hlookup, h⟩ := Edit.apply_bind_eq_ok_iff.1 h
  obtain ⟨-, rfl⟩ := Edit.liftM_eq_ok_iff.1 hlookup
  obtain ⟨outs, p₁, houts, h⟩ := Edit.apply_bind_eq_ok_iff.1 h
  have h₁ := Writes.of_addStruct hend houts
  obtain ⟨argTypes, p', hlookup, h⟩ := Edit.apply_bind_eq_ok_iff.1 h
  obtain ⟨-, rfl⟩ := Edit.liftM_eq_ok_iff.1 hlookup
  obtain ⟨field, p', hlookup, h⟩ := Edit.apply_bind_eq_ok_iff.1 h
  obtain ⟨-, rfl⟩ := Edit.liftM_eq_ok_iff.1 hlookup
  obtain ⟨args, p₂, hargs, h⟩ := Edit.apply_bind_eq_ok_iff.1 h
  have h₂ := Writes.of_addStruct h₁.endsWith hargs
  obtain ⟨-, rfl⟩ := Edit.pure_eq_ok_iff.1 h
  exact h₁.trans h₂

theorem instrsOf_eq_ok {blocks : List BlockRef} {is : List InstrRef}
    (h : instrsOf p blocks = .ok is) : is = p.listedIn blocks := by
  unfold instrsOf at h
  obtain ⟨lists, hlists, hflat⟩ := bind_eq_ok_iff.1 h
  obtain rfl := Outcome.pure_eq_ok_iff.1 hflat
  have hall := mapM_eq_ok_iff.1 hlists
  clear h hflat hlists
  induction hall with
  | nil => rfl
  | @cons b instrs blocks lists hb _ ih =>
      obtain ⟨block, hblock, heq⟩ := bind_eq_ok_iff.1 hb
      obtain rfl := Outcome.pure_eq_ok_iff.1 heq
      rw [Program.block_eq_ok_iff] at hblock
      have hhead : p.listedIn (b :: blocks) = block.instrs ++ p.listedIn blocks := by
        simp [Program.listedIn, hblock]
      rw [hhead, List.flatten_cons, ih]

theorem renamed_empty (instr : Instr) : renamed ∅ instr = instr := by
  have hid : (∅ : Renaming).rename = id := by
    funext v
    simp [Renaming.rename]
  rw [renamed, hid, Op.mapOperands_id]

/-- Loading the outputs, if there are any, and then renaming their readers. -/
theorem unpackOuts_spec {exchange : Exchange} {argPtr : InstrRef} {func : Func} {u : Unit}
    (hend : EndsWith p b []) (hfunc : p.func? s.func = some func)
    (h : (unless s.live.liveOut.isEmpty do unpackOuts s exchange b argPtr : Edit Unit).apply p =
      (.ok u, q)) :
    ∃ types between, q.valueTypes (s.live.liveOut.map .instr) = .ok types ∧
      Writes b [] (unpackCode exchange argPtr p.instrs.size types) p between ∧
      Rewrites (fun j =>
        (renamed (loadRenaming ∅ (p.instrs.size + 1) (s.live.liveOut.map .instr)))^[
          (between.listedIn (func.blocks.filter (isOutside s b))).count j]) between q := by
  cases hempty : s.live.liveOut with
  | nil =>
      simp only [hempty, List.isEmpty_nil, if_true] at h
      obtain ⟨-, rfl⟩ := Edit.pure_eq_ok_iff.1 h
      refine ⟨[], p, rfl, .refl hend, (Rewrites.refl p).congr ?_⟩
      intro j instr _
      exact (Function.iterate_fixed (renamed_empty instr) _).symm
  | cons i is =>
      simp only [hempty, List.isEmpty_cons, Bool.false_eq_true, if_false] at h
      unfold unpackOuts at h
      obtain ⟨outPtr, p₁, hout, h⟩ := Edit.apply_bind_eq_ok_iff.1 h
      obtain ⟨rfl, hwrites⟩ := Writes.of_appendInstr hout
      obtain ⟨σ, p₂, hload, h⟩ := Edit.apply_bind_eq_ok_iff.1 h
      obtain ⟨types, htypes, hwrites', rfl⟩ := loadOuts_writes hwrites.endsWith hload
      have hboth := hwrites.trans hwrites'
      rw [Edit.get_bind_eq_ok_iff] at h
      obtain ⟨func', p', hlookup, h⟩ := Edit.apply_bind_eq_ok_iff.1 h
      obtain ⟨hfound, rfl⟩ := Edit.liftM_eq_ok_iff.1 hlookup
      rw [Program.func_eq_ok_iff, hboth.func?_kept hfunc] at hfound
      obtain rfl := Option.some.inj hfound
      obtain ⟨listed, p', hlookup, h⟩ := Edit.apply_bind_eq_ok_iff.1 h
      obtain ⟨hlisted, rfl⟩ := Edit.liftM_eq_ok_iff.1 hlookup
      obtain rfl := instrsOf_eq_ok hlisted
      obtain ⟨n, p₃, hrename, h⟩ := Edit.apply_bind_eq_ok_iff.1 h
      obtain ⟨-, rfl⟩ := Edit.pure_eq_ok_iff.1 h
      rw [hempty] at htypes
      rw [hempty, hwrites.size_eq] at hrename
      have hkeeps : p₂.KeepsTypes p₃ := .of_apply hrename
      obtain ⟨ty, rest, -, -, rfl⟩ := List.forall₂_cons_left_iff.1 (mapM_eq_ok_iff.1 htypes)
      refine ⟨ty :: rest, p₂, hkeeps.valueTypes_eq_ok htypes, ?_, Rewrites.of_apply hrename⟩
      rw [hwrites.size_eq] at hboth
      exact hboth

theorem checkExitPhis_eq_ok {loop : Loop} {is : List InstrRef}
    (h : checkExitPhis p loop is = .ok ()) :
    ∀ i ∈ is, ∃ instr, p.instr? i = some instr ∧
      instr.op.incoming.countP (fun pair => pair.2 ∈ loop) ≤ 1 := by
  induction is with
  | nil =>
      intro i hi
      exact absurd hi List.not_mem_nil
  | cons i is ih =>
      unfold checkExitPhis at h
      obtain ⟨instr, hinstr, h⟩ := bind_eq_ok_iff.1 h
      rw [Program.instr_eq_ok_iff] at hinstr
      dsimp only at h
      obtain ⟨hcrowded, h⟩ := guard_lookup_eq_ok h
      intro j hj
      rcases List.mem_cons.1 hj with rfl | hj
      · exact ⟨instr, hinstr, Nat.le_of_not_lt hcrowded⟩
      · exact ih h j hj

theorem exitPosition_eq_ok {position : Nat} (h : exitPosition p s = .ok position) :
    s.loop.exit ∉ s.loop ∧ ∃ func block, p.func? s.func = some func ∧
      func.blocks.idxOf? s.loop.exit = some position ∧ p.block? s.loop.exit = some block ∧
      ∀ i ∈ block.instrs, ∃ instr, p.instr? i = some instr ∧
        instr.op.incoming.countP (fun pair => pair.2 ∈ s.loop) ≤ 1 := by
  unfold exitPosition at h
  dsimp only at h
  obtain ⟨hexit, h⟩ := guard_lookup_eq_ok h
  obtain ⟨func, hfunc, h⟩ := bind_eq_ok_iff.1 h
  split at h
  · obtain ⟨_, -, hthrow⟩ := bind_eq_ok_iff.1 h
    cases hthrow
  · next position' hposition =>
      obtain ⟨block, hblock, h⟩ := bind_eq_ok_iff.1 h
      obtain ⟨⟨⟩, hphis, h⟩ := bind_eq_ok_iff.1 h
      obtain rfl := Outcome.pure_eq_ok_iff.1 h
      exact ⟨hexit, func, block, Program.func_eq_ok_iff.1 hfunc, hposition,
        Program.block_eq_ok_iff.1 hblock, checkExitPhis_eq_ok hphis⟩

/-- The renaming from the live-outs to what the block in the place of the loop loads
for them. -/
def outRenaming (s : Setting) (workers : List FuncRef) (next : Nat) : Renaming :=
  loadRenaming ∅ (next + 1 + 2 * s.live.liveIn.length + (workers.length + 3) + 1)
    (s.live.liveOut.map .instr)

/-- What putting a block in the place of the loop does to an old instruction. -/
def adjusted (s : Setting) (p : Program) (func : Func) (d : Dispatch) (i : InstrRef)
    (instr : Instr) : Instr :=
  (renamed (outRenaming s d.workers p.instrs.size))^[
      (p.listedIn (func.blocks.filter (isOutside s d.block))).count i]
    ((reroute s d.block)^[(p.listedIn [s.loop.exit]).count i]
      ((turn s d.block)^[(outsideEnds s p d.block func.blocks).count i] instr))

/-- The program `q` is `p` with the block of `d` in the place of the loop, and that
block runs `code`. -/
structure Installed (s : Setting) (p : Program) (func : Func) (d : Dispatch)
    (code : List (Op × Ty)) (q : Program) : Prop where
  lookup : p.func? s.func = some func
  exit_not_mem : s.loop.exit ∉ s.loop
  exitPhis : ∀ i ∈ p.listedIn [s.loop.exit], ∃ instr, p.instr? i = some instr ∧
    instr.op.incoming.countP (fun pair => pair.2 ∈ s.loop) ≤ 1
  block_eq : d.block = ⟨p.blocks.size⟩
  layout : ∃ position, func.blocks.idxOf? s.loop.exit = some position ∧
    q.func? s.func = some { func with blocks := func.blocks.insertIdx position d.block }
  block?_kept : ∀ b, b ≠ d.block → q.block? b = p.block? b
  block?_new : q.block? d.block = some {
    name := "loop-replace", func := s.func, instrs := newRefs p.instrs.size code.length }
  size_eq : q.instrs.size = p.instrs.size + code.length
  code_eq : ∃ init dispatch join types,
    q.valueTypes (s.live.liveOut.map .instr) = .ok types ∧
    code = replacementCode d.exchange init dispatch join d.workers s.live.liveIn types
      s.loop.exit p.instrs.size
  instr?_old : ∀ i, i.index < p.instrs.size →
    q.instr? i = (p.instr? i).map (adjusted s p func d i)
  instr?_new : ∀ k op ty, code[k]? = some (op, ty) → ∃ name,
    q.instr? ⟨p.instrs.size + k⟩ = some
      ((renamed (outRenaming s d.workers p.instrs.size))^[
        (p.listedIn (func.blocks.filter (isOutside s d.block))).count ⟨p.instrs.size + k⟩]
        { block := some d.block, op, ty, name })
  readable : ∀ b ∈ func.blocks, isOutside s d.block b → ∃ targets, p.successors b = .ok targets
  redirected_eq : d.block ≠ s.loop.header →
    (∀ b ∈ func.blocks, ∀ c ∈ func.blocks, ∀ i ∈ p.endOf b, i ∈ p.endOf c → b = c) →
    d.redirected =
      ∑ b ∈ (func.blocks.filter (isOutside s d.block)).toFinset, headerSlots s.loop p b

theorem filter_insertIdx {α : Type} {keep : α → Bool} {a : α} (ha : ¬ keep a) (k : Nat)
    (xs : List α) : (xs.insertIdx k a).filter keep = xs.filter keep := by
  induction xs generalizing k with
  | nil => cases k <;> simp [ha]
  | cons x xs ih =>
      cases k with
      | zero => simp [ha]
      | succ k => simp [List.filter_cons, ih]

theorem not_isOutside_self (s : Setting) (b : BlockRef) : ¬ isOutside s b b := by
  simp [isOutside]

theorem ne_of_isOutside {replacement : BlockRef} (h : isOutside s replacement b) :
    b ≠ replacement := by
  rintro rfl
  exact not_isOutside_self s _ h

/-- The new block does not count as outside the loop, wherever it is put. -/
theorem filter_isOutside (replacement : BlockRef) (position : Nat) (blocks : List BlockRef) :
    (blocks.insertIdx position replacement).filter (isOutside s replacement) =
      blocks.filter (isOutside s replacement) :=
  filter_insertIdx (not_isOutside_self s replacement) position blocks

/-- The new block is there, still empty, and at its place in the layout. -/
structure Placed (s : Setting) (p : Program) (func : Func) (position : Nat)
    (replacement : BlockRef) (q : Program) : Prop where
  block_eq : replacement = ⟨p.blocks.size⟩
  position_le : position ≤ func.blocks.length
  size_eq : q.instrs.size = p.instrs.size
  blocks_eq : q.blocks = p.blocks.push { name := "loop-replace", func := s.func, instrs := [] }
  funcs_eq : q.funcs = p.funcs.setIfInBounds s.func.index
    { func with blocks := func.blocks.insertIdx position replacement }

/-- The first half of an installation: the new block is there, and branches and φs are
changed. -/
structure Wired (s : Setting) (p : Program) (func : Func) (position : Nat)
    (replacement : BlockRef) (q : Program) : Prop
    extends Placed s p func position replacement q where
  instr? : ∀ i, q.instr? i = (p.instr? i).map fun instr =>
    (reroute s replacement)^[(p.listedIn [s.loop.exit]).count i]
      ((turn s replacement)^[(outsideEnds s p replacement func.blocks).count i] instr)

section Placed

variable {func : Func} {position n : Nat} {replacement : BlockRef} {p₁ p₂ : Program}

namespace Placed

theorem of_insertBlock (hfunc : p.func? s.func = some func)
    (h : (Edit.insertBlock s.func position "loop-replace").apply p = (.ok replacement, q)) :
    Placed s p func position replacement q ∧ q.instrs = p.instrs := by
  obtain ⟨func', hfunc', hposition, rfl, rfl⟩ := Edit.insertBlock_eq_ok h
  obtain rfl := Option.some.inj (hfunc.symm.trans hfunc')
  exact ⟨⟨rfl, hposition, rfl, rfl, rfl⟩, rfl⟩

theorem rewrites (h : Placed s p func position replacement p₁)
    {change : InstrRef → Instr → Instr} (hrewrites : Rewrites change p₁ q) :
    Placed s p func position replacement q where
  block_eq := h.block_eq
  position_le := h.position_le
  size_eq := hrewrites.size_eq.trans h.size_eq
  blocks_eq := hrewrites.blocks_eq.trans h.blocks_eq
  funcs_eq := hrewrites.funcs_eq.trans h.funcs_eq

theorem block?_self (h : Placed s p func position replacement q) :
    q.block? replacement = some { name := "loop-replace", func := s.func, instrs := [] } := by
  simp [Program.block?, h.blocks_eq, h.block_eq]

theorem block?_of_ne (h : Placed s p func position replacement q) (hne : b ≠ replacement) :
    q.block? b = p.block? b := by
  have hindex : b.index ≠ p.blocks.size := fun heq => hne (h.block_eq ▸ BlockRef.ext heq)
  simp [Program.block?, h.blocks_eq, Array.getElem?_push, hindex]

theorem func?_self (h : Placed s p func position replacement q)
    (hfunc : p.func? s.func = some func) :
    q.func? s.func = some { func with blocks := func.blocks.insertIdx position replacement } := by
  obtain ⟨hlt, -⟩ := Array.getElem?_eq_some_iff.1 hfunc
  simp [Program.func?, h.funcs_eq, hlt]

theorem ne_of_block? (h : Placed s p func position replacement q) {block : Block}
    (hblock : p.block? b = some block) : b ≠ replacement := by
  rintro rfl
  obtain ⟨hlt, -⟩ := Array.getElem?_eq_some_iff.1 hblock
  rw [h.block_eq] at hlt
  exact Nat.lt_irrefl _ hlt

theorem endOf_of_ne (h : Placed s p func position replacement q) (hne : b ≠ replacement) :
    q.endOf b = p.endOf b := by
  rw [Program.endOf, Program.endOf, h.block?_of_ne hne]

theorem outsideEnds_eq (h : Placed s p func position replacement q) :
    outsideEnds s q replacement (func.blocks.insertIdx position replacement) =
      outsideEnds s p replacement func.blocks := by
  unfold outsideEnds
  rw [filter_isOutside]
  exact List.filterMap_congr fun b hb => h.endOf_of_ne (ne_of_isOutside (List.of_mem_filter hb))

theorem successors_of_isOutside (h : Placed s p func position replacement q)
    (hinstrs : q.instrs = p.instrs) (hb : isOutside s replacement b) :
    q.successors b = p.successors b := by
  refine Program.successors_congr (h.block?_of_ne (ne_of_isOutside hb)) fun i _ => ?_
  rw [Program.instr?, hinstrs]
  rfl

/-- Blocks that end apart do so with the new block, which has no end, among them. -/
theorem endsApart (h : Placed s p func position replacement q)
    (hsingle : ∀ b ∈ func.blocks, ∀ c ∈ func.blocks, ∀ i ∈ p.endOf b, i ∈ p.endOf c → b = c) :
    ∀ b ∈ func.blocks.insertIdx position replacement,
      ∀ c ∈ func.blocks.insertIdx position replacement,
        ∀ i ∈ q.endOf b, i ∈ q.endOf c → b = c := by
  intro b hb c hc i hi hi'
  have hmem : ∀ a, a ∈ func.blocks.insertIdx position replacement → i ∈ q.endOf a →
      a ∈ func.blocks ∧ i ∈ p.endOf a := by
    intro a ha hia
    have hne : a ≠ replacement := by
      rintro rfl
      rw [Program.endOf, h.block?_self] at hia
      cases hia
    rw [h.endOf_of_ne hne] at hia
    exact ⟨(List.mem_insertIdx h.position_le).1 ha |>.resolve_left hne, hia⟩
  obtain ⟨hb, hi⟩ := hmem b hb hi
  obtain ⟨hc, hi'⟩ := hmem c hc hi'
  exact hsingle b hb c hc i hi hi'

theorem redirect_readable (h : Placed s p func position replacement p₁)
    (hinstrs : p₁.instrs = p.instrs)
    (hredirect : (redirect s replacement (func.blocks.insertIdx position replacement)).apply p₁ =
      (.ok n, q)) :
    ∀ b ∈ func.blocks, isOutside s replacement b → ∃ targets, p.successors b = .ok targets := by
  intro b hb hout
  rw [← h.successors_of_isOutside hinstrs hout]
  exact Dispatch.redirect_readable hredirect b
    ((List.mem_insertIdx h.position_le).2 (.inr hb)) hout

theorem redirect_count (h : Placed s p func position replacement p₁)
    (hinstrs : p₁.instrs = p.instrs)
    (hredirect : (redirect s replacement (func.blocks.insertIdx position replacement)).apply p₁ =
      (.ok n, q)) (hne : replacement ≠ s.loop.header)
    (hsingle : ∀ b ∈ func.blocks, ∀ c ∈ func.blocks, ∀ i ∈ p.endOf b, i ∈ p.endOf c → b = c) :
    n = ∑ b ∈ (func.blocks.filter (isOutside s replacement)).toFinset,
      headerSlots s.loop p b := by
  rw [Dispatch.redirect_count hne (h.endsApart hsingle) hredirect, filter_isOutside]
  refine Finset.sum_congr rfl ?_
  intro b hb
  have hout : isOutside s replacement b := List.of_mem_filter (List.mem_toFinset.1 hb)
  rw [headerSlots, headerSlots, Program.targetsOf, Program.targetsOf,
    h.successors_of_isOutside hinstrs hout]

end Placed

theorem wired_of_retarget {exitBlock exitBlock' : Block} {u : Unit}
    (h : Placed s p func position replacement p₁) (hinstrs : p₁.instrs = p.instrs)
    (hexit : p.block? s.loop.exit = some exitBlock)
    (hredirect : (redirect s replacement (func.blocks.insertIdx position replacement)).apply p₁ =
      (.ok n, p₂))
    (hexit' : p₂.block s.loop.exit = .ok exitBlock')
    (hretarget : (retarget s replacement exitBlock'.instrs).apply p₂ = (.ok u, q)) :
    Wired s p func position replacement q := by
  have hturned := redirect_rewrites hredirect
  have hrerouted := retarget_rewrites hretarget
  have hlisted : exitBlock'.instrs = p.listedIn [s.loop.exit] := by
    rw [Program.block_eq_ok_iff, hturned.block?, h.block?_of_ne (h.ne_of_block? hexit), hexit]
      at hexit'
    simp [Program.listedIn, hexit, Option.some.inj hexit']
  refine ⟨(h.rewrites hturned).rewrites hrerouted, fun i => ?_⟩
  rw [hrerouted.instr?, hturned.instr?, Option.map_map, hlisted, h.outsideEnds_eq, Program.instr?,
    hinstrs]
  rfl

end Placed

/-- The second half of an installation: code is written into the block, what the blocks outside
the loop list is renamed, and then the block is ended with a branch to the exit. -/
structure Written (s : Setting) (layout : List BlockRef) (b : BlockRef) (workers : List FuncRef)
    (ops : List (Op × Ty)) (p between after q : Program) : Prop where
  code : Writes b [] ops p between
  renames : Rewrites (fun j => (renamed (outRenaming s workers p.instrs.size))^[
    (p.listedIn (layout.filter (isOutside s b))).count j]) between after
  branch : Writes b [] [(.br s.loop.exit, .void)] after q

/-- Changing the new block does not change what the blocks outside the loop list. -/
theorem listedIn_isOutside (blocks : List BlockRef)
    (h : ∀ c, c ≠ b → q.block? c = p.block? c) :
    q.listedIn (blocks.filter (isOutside s b)) = p.listedIn (blocks.filter (isOutside s b)) := by
  refine List.flatMap_congr ?_
  intro c hc
  rw [h c (ne_of_isOutside (List.of_mem_filter hc))]

theorem written_of_run {func : Func} {threads : List Nat} {workers : List FuncRef}
    {exchange : Exchange} {argPtr last : InstrRef} {u v w : Unit}
    {p₁ p₂ p₃ p₄ p₅ p₆ : Program} (hend : EndsWith p b []) (hfunc : p.func? s.func = some func)
    (hworkers : (threads.mapM (addWorker s)).apply p = (.ok workers, p₁))
    (hexchange : (Exchange.declare s.loopId s.live.liveIn s.live.liveOut).apply p₁ =
      (.ok exchange, p₂))
    (hargPtr : (Edit.appendInstr b (.alloca (.struct exchange.args)) .ptr "argstruct").apply p₂ =
      (.ok argPtr, p₃))
    (hstore : (storeArgs exchange b argPtr 0 s.live.liveIn).apply p₃ = (.ok u, p₄))
    (hrun : (runWorkers s b argPtr workers).apply p₄ = (.ok v, p₅))
    (hunpack : (unless s.live.liveOut.isEmpty do unpackOuts s exchange b argPtr : Edit Unit).apply
      p₅ = (.ok w, p₆))
    (hlast : (Edit.appendInstr b (.br s.loop.exit) .void none).apply p₆ = (.ok last, q)) :
    ∃ init dispatch join types between ops, EntryPoints s q init dispatch join ∧
      q.valueTypes (s.live.liveOut.map .instr) = .ok types ∧
      replacementCode exchange init dispatch join workers s.live.liveIn types s.loop.exit
        p.instrs.size = ops ++ [(.br s.loop.exit, .void)] ∧
      Written s func.blocks b workers ops p between p₆ q := by
  have h₁ := addWorkers_writes hend hworkers
  have h₂ := h₁.trans (declare_writes h₁.endsWith hexchange)
  obtain ⟨rfl, halloca⟩ := Writes.of_appendInstr hargPtr
  have h₃ := h₂.trans halloca
  have h₄ := h₃.trans (storeArgs_writes h₃.endsWith hstore)
  obtain ⟨init, dispatch, join, hfound, hcalls⟩ := runWorkers_writes h₄.endsWith hrun
  have h₅ := h₄.trans hcalls
  obtain ⟨types, between, htypes, hloads, hrenamed⟩ :=
    unpackOuts_spec h₅.endsWith (h₅.func?_kept hfunc) hunpack
  obtain ⟨-, hbr⟩ := Writes.of_appendInstr hlast
  have hsize₂ : p₂.instrs.size = p.instrs.size := h₂.size_eq
  have hsize₃ : p₃.instrs.size = p.instrs.size + 1 := h₃.size_eq
  have hsize₄ : p₄.instrs.size = p.instrs.size + 1 + 2 * s.live.liveIn.length := by
    rw [h₄.size_eq]
    simp
    omega
  have hsize₅ : p₅.instrs.size =
      p.instrs.size + 1 + 2 * s.live.liveIn.length + (workers.length + 3) := by
    rw [hcalls.size_eq, hsize₄]
    simp [runCode]
  have hall := h₅.trans hloads
  rw [hsize₂, hsize₃, hsize₄, hsize₅] at hall
  rw [hsize₅, listedIn_isOutside _ fun c hc => hall.block?_of_ne hc] at hrenamed
  refine ⟨init, dispatch, join, types, between, _, hfound.keep fun name f hf => ?_,
    (Program.KeepsTypes.of_writes hbr).valueTypes_eq_ok htypes, rfl, hall, hrenamed, hbr⟩
  refine hbr.funcNamed?_kept ?_
  rw [hrenamed.funcNamed?]
  exact hloads.funcNamed?_kept hf

namespace Written

variable {layout : List BlockRef} {workers : List FuncRef} {ops : List (Op × Ty)}
  {between after : Program}

theorem size_after (h : Written s layout b workers ops p between after q) :
    after.instrs.size = p.instrs.size + ops.length := by
  rw [h.renames.size_eq, h.code.size_eq]

theorem size_eq (h : Written s layout b workers ops p between after q) :
    q.instrs.size = p.instrs.size + (ops.length + 1) := by
  rw [h.branch.size_eq, h.size_after, List.length_singleton, Nat.add_assoc]

theorem block?_of_ne (h : Written s layout b workers ops p between after q) {c : BlockRef}
    (hc : c ≠ b) : q.block? c = p.block? c := by
  rw [h.branch.block?_of_ne hc, h.renames.block?, h.code.block?_of_ne hc]

theorem block?_self (h : Written s layout b workers ops p between after q) {name : String}
    {f : FuncRef} (hblock : p.block? b = some { name, func := f, instrs := [] }) :
    q.block? b = some { name, func := f, instrs := newRefs p.instrs.size (ops.length + 1) } := by
  have hafter := h.renames.block? b
  rw [h.code.block?_self hblock (List.append_nil []).symm] at hafter
  rw [h.branch.block?_self hafter (List.append_nil _).symm, h.size_after, newRefs_add]
  simp

theorem func?_kept (h : Written s layout b workers ops p between after q) {f : FuncRef} {x : Func}
    (hf : p.func? f = some x) : q.func? f = some x := by
  refine h.branch.func?_kept ?_
  rw [h.renames.func?, h.code.func?_kept hf]

theorem instr?_old (h : Written s layout b workers ops p between after q) {i : InstrRef}
    (hi : i.index < p.instrs.size) :
    q.instr? i = (p.instr? i).map ((renamed (outRenaming s workers p.instrs.size))^[
      (p.listedIn (layout.filter (isOutside s b))).count i]) := by
  have hsize := h.size_after
  rw [h.branch.instr?_old (by omega), h.renames.instr?, h.code.instr?_old hi]

theorem instr?_new (h : Written s layout b workers ops p between after q) {k : Nat} {op : Op}
    {ty : Ty} (hk : (ops ++ [(.br s.loop.exit, .void)])[k]? = some (op, ty)) :
    ∃ name, q.instr? ⟨p.instrs.size + k⟩ = some
      ((renamed (outRenaming s workers p.instrs.size))^[
        (p.listedIn (layout.filter (isOutside s b))).count ⟨p.instrs.size + k⟩]
        { block := some b, op, ty, name }) := by
  have hsize := h.size_after
  rcases Nat.lt_trichotomy k ops.length with hlt | rfl | hgt
  · rw [List.getElem?_append_left hlt] at hk
    obtain ⟨name, hname⟩ := h.code.instr?_new hk
    refine ⟨name, ?_⟩
    rw [h.branch.instr?_old (by simp only; omega), h.renames.instr?, hname]
    rfl
  · -- the final branch comes after the renaming and has no operand
    rw [List.getElem?_concat_length] at hk
    obtain ⟨rfl, rfl⟩ := Prod.mk.inj (Option.some.inj hk)
    have hnew := h.branch.instr?_new (List.getElem?_cons_zero)
    rw [hsize] at hnew
    obtain ⟨name, hname⟩ := hnew
    refine ⟨name, ?_⟩
    rw [Function.iterate_fixed rfl]
    exact hname
  · rw [List.getElem?_eq_none (by simp; omega)] at hk
    cases hk

end Written

/-- The two halves make an installation. -/
theorem Wired.installed {func : Func} {exitBlock : Block} {position : Nat} {d : Dispatch}
    {ops : List (Op × Ty)} {types : List Ty} {init dispatch join : FuncRef}
    {p₁ between after : Program} (h : Wired s p func position d.block p₁)
    (hfunc : p.func? s.func = some func) (hexit : s.loop.exit ∉ s.loop)
    (hidx : func.blocks.idxOf? s.loop.exit = some position)
    (hexitBlock : p.block? s.loop.exit = some exitBlock)
    (hphis : ∀ i ∈ exitBlock.instrs, ∃ instr, p.instr? i = some instr ∧
      instr.op.incoming.countP (fun pair => pair.2 ∈ s.loop) ≤ 1)
    (hreadable : ∀ b ∈ func.blocks, isOutside s d.block b → ∃ targets,
      p.successors b = .ok targets)
    (hcount : d.block ≠ s.loop.header →
      (∀ b ∈ func.blocks, ∀ c ∈ func.blocks, ∀ i ∈ p.endOf b, i ∈ p.endOf c → b = c) →
      d.redirected =
        ∑ b ∈ (func.blocks.filter (isOutside s d.block)).toFinset, headerSlots s.loop p b)
    (htypes : q.valueTypes (s.live.liveOut.map .instr) = .ok types)
    (hcode : replacementCode d.exchange init dispatch join d.workers s.live.liveIn types
      s.loop.exit p.instrs.size = ops ++ [(.br s.loop.exit, .void)])
    (hwritten : Written s (func.blocks.insertIdx position d.block) d.block d.workers ops p₁ between
      after q) :
    Installed s p func d (ops ++ [(.br s.loop.exit, .void)]) q := by
  have hlisted : p₁.listedIn ((func.blocks.insertIdx position d.block).filter
      (isOutside s d.block)) = p.listedIn (func.blocks.filter (isOutside s d.block)) := by
    rw [filter_isOutside, listedIn_isOutside _ fun c hc => h.block?_of_ne hc]
  have hlength : (ops ++ [(Op.br s.loop.exit, Ty.void)]).length = ops.length + 1 := by simp
  constructor
  case lookup => exact hfunc
  case exit_not_mem => exact hexit
  case exitPhis => simpa [Program.listedIn, hexitBlock] using hphis
  case block_eq => exact h.block_eq
  case layout => exact ⟨position, hidx, hwritten.func?_kept (h.func?_self hfunc)⟩
  case block?_kept =>
    intro b hb
    rw [hwritten.block?_of_ne hb, h.block?_of_ne hb]
  case block?_new => rw [hwritten.block?_self h.block?_self, h.size_eq, hlength]
  case size_eq => rw [hwritten.size_eq, h.size_eq, hlength]
  case code_eq => exact ⟨init, dispatch, join, types, htypes, hcode.symm⟩
  case instr?_old =>
    intro i hi
    rw [hwritten.instr?_old (h.size_eq ▸ hi), h.size_eq, hlisted, h.instr?, Option.map_map]
    rfl
  case instr?_new =>
    intro k op ty hk
    have hnew := hwritten.instr?_new hk
    rwa [h.size_eq, hlisted] at hnew
  case readable => exact hreadable
  case redirected_eq => exact hcount

/-- The steps of an installation that succeeds, with the programs between them. -/
theorem install_eq_ok {d : Dispatch} (h : (install s).apply p = (.ok d, q)) :
    ∃ position func exitBlock argPtr last p₁ p₂ p₃ p₄ p₅ p₆ p₇ p₈ p₉,
      exitPosition p s = .ok position ∧
      (Edit.insertBlock s.func position "loop-replace").apply p = (.ok d.block, p₁) ∧
      p₁.func s.func = .ok func ∧
      (redirect s d.block func.blocks).apply p₁ = (.ok d.redirected, p₂) ∧
      p₂.block s.loop.exit = .ok exitBlock ∧
      (retarget s d.block exitBlock.instrs).apply p₂ = (.ok (), p₃) ∧
      ((List.range s.threads).mapM (addWorker s)).apply p₃ = (.ok d.workers, p₄) ∧
      (Exchange.declare s.loopId s.live.liveIn s.live.liveOut).apply p₄ = (.ok d.exchange, p₅) ∧
      (Edit.appendInstr d.block (.alloca (.struct d.exchange.args)) .ptr "argstruct").apply p₅ =
        (.ok argPtr, p₆) ∧
      (storeArgs d.exchange d.block argPtr 0 s.live.liveIn).apply p₆ = (.ok (), p₇) ∧
      (runWorkers s d.block argPtr d.workers).apply p₇ = (.ok (), p₈) ∧
      (unless s.live.liveOut.isEmpty do unpackOuts s d.exchange d.block argPtr : Edit Unit).apply
        p₈ = (.ok (), p₉) ∧
      (Edit.appendInstr d.block (.br s.loop.exit) .void none).apply p₉ = (.ok last, q) := by
  unfold install at h
  rw [Edit.get_bind_eq_ok_iff] at h
  obtain ⟨position, p', hlookup, h⟩ := Edit.apply_bind_eq_ok_iff.1 h
  obtain ⟨hposition, rfl⟩ := Edit.liftM_eq_ok_iff.1 hlookup
  obtain ⟨block, p₁, hinsert, h⟩ := Edit.apply_bind_eq_ok_iff.1 h
  rw [Edit.get_bind_eq_ok_iff] at h
  obtain ⟨func, p', hlookup, h⟩ := Edit.apply_bind_eq_ok_iff.1 h
  obtain ⟨hfunc, rfl⟩ := Edit.liftM_eq_ok_iff.1 hlookup
  obtain ⟨redirected, p₂, hredirect, h⟩ := Edit.apply_bind_eq_ok_iff.1 h
  rw [Edit.get_bind_eq_ok_iff] at h
  obtain ⟨exitBlock, p', hlookup, h⟩ := Edit.apply_bind_eq_ok_iff.1 h
  obtain ⟨hexitBlock, rfl⟩ := Edit.liftM_eq_ok_iff.1 hlookup
  obtain ⟨_, p₃, hretarget, h⟩ := Edit.apply_bind_eq_ok_iff.1 h
  obtain ⟨workers, p₄, hworkers, h⟩ := Edit.apply_bind_eq_ok_iff.1 h
  obtain ⟨exchange, p₅, hexchange, h⟩ := Edit.apply_bind_eq_ok_iff.1 h
  obtain ⟨argPtr, p₆, hargPtr, h⟩ := Edit.apply_bind_eq_ok_iff.1 h
  obtain ⟨_, p₇, hstore, h⟩ := Edit.apply_bind_eq_ok_iff.1 h
  obtain ⟨_, p₈, hrun, h⟩ := Edit.apply_bind_eq_ok_iff.1 h
  obtain ⟨_, p₉, hunpack, h⟩ := Edit.unless_bind_eq_ok h
  obtain ⟨last, p', hlast, h⟩ := Edit.apply_bind_eq_ok_iff.1 h
  obtain ⟨rfl, rfl⟩ := Edit.pure_eq_ok_iff.1 h
  exact ⟨position, func, exitBlock, argPtr, last, p₁, p₂, p₃, p₄, p₅, p₆, p₇, p₈, p₉, hposition,
    hinsert, hfunc, hredirect, hexitBlock, hretarget, hworkers, hexchange, hargPtr, hstore, hrun,
    hunpack, hlast⟩

/-- What an installation leaves behind, and which functions its code calls. -/
theorem installed_entryPoints_of_install {d : Dispatch} (h : (install s).apply p = (.ok d, q)) :
    ∃ func init dispatch join types, EntryPoints s q init dispatch join ∧
      q.valueTypes (s.live.liveOut.map .instr) = .ok types ∧
      Installed s p func d (replacementCode d.exchange init dispatch join d.workers s.live.liveIn
        types s.loop.exit p.instrs.size) q := by
  obtain ⟨position, func', exitBlock', argPtr, last, p₁, p₂, p₃, p₄, p₅, p₆, p₇, p₈, p₉, hposition,
    hinsert, hfunc', hredirect, hexitBlock', hretarget, hworkers, hexchange, hargPtr, hstore, hrun,
    hunpack, hlast⟩ := install_eq_ok h
  obtain ⟨hexit, func, exitBlock, hfunc, hidx, hexitBlock, hphis⟩ := exitPosition_eq_ok hposition
  obtain ⟨hplaced, hinstrs⟩ := Placed.of_insertBlock hfunc hinsert
  obtain rfl := Option.some.inj
    ((hplaced.func?_self hfunc).symm.trans (Program.func_eq_ok_iff.1 hfunc'))
  have hwired := wired_of_retarget hplaced hinstrs hexitBlock hredirect hexitBlock' hretarget
  have hend : EndsWith p₃ d.block [] := ⟨_, [], hwired.block?_self, rfl⟩
  obtain ⟨init, dispatch, join, types, between, ops, hfound, htypes, hcode, hwritten⟩ :=
    written_of_run hend (hwired.func?_self hfunc) hworkers hexchange hargPtr hstore hrun hunpack
      hlast
  rw [hwired.size_eq] at hcode
  refine ⟨func, init, dispatch, join, types, hfound, htypes, ?_⟩
  rw [hcode]
  exact hwired.installed hfunc hexit hidx hexitBlock hphis
    (hplaced.redirect_readable hinstrs hredirect) (hplaced.redirect_count hinstrs hredirect) htypes
    hcode hwritten

theorem installed_of_install {d : Dispatch} (h : (install s).apply p = (.ok d, q)) :
    ∃ func code, Installed s p func d code q := by
  obtain ⟨func, init, dispatch, join, types, -, -, hinstalled⟩ := installed_entryPoints_of_install h
  exact ⟨func, _, hinstalled⟩

end Dispatch

end Decouple
