import Decouple.Program.Check
import Decouple.Program.WellFormed
import Mathlib.Data.List.Forall2

/-!
# Computations that succeed

What it takes for a computation over a program to give an answer. A sequence
succeeds if its parts do, one after the other, and a lookup that has to find an
entry succeeds if the table has it. The lemmas are stated as equivalences, so that
they take a success apart and put one together. Where a computation fails,
`Outcome.FailsOnly` says for which reasons, with the class of reasons as a parameter.

A function that passes `Program.check` is well-formed (`wellFormed_of_check`).
-/

namespace Decouple

theorem exists_of_forall₂_of_mem {α β : Type} {R : α → β → Prop} {xs : List α} {ys : List β}
    (h : List.Forall₂ R xs ys) {y : β} (hy : y ∈ ys) : ∃ x ∈ xs, R x y := by
  induction h with
  | nil => exact absurd hy List.not_mem_nil
  | @cons x' y' xs ys hfirst _ ih =>
      rcases List.mem_cons.1 hy with rfl | hy
      · exact ⟨x', List.mem_cons_self .., hfirst⟩
      · obtain ⟨x, hx, hxy⟩ := ih hy
        exact ⟨x, List.mem_cons_of_mem _ hx, hxy⟩

namespace Outcome

variable {ε α β : Type}

theorem bind_eq_ok_iff {x : Except ε α} {f : α → Except ε β} {b : β} :
    (x >>= f) = .ok b ↔ ∃ a, x = .ok a ∧ f a = .ok b := by
  cases x with
  | error failure =>
      constructor
      · intro h
        cases h
      · rintro ⟨a, ha, -⟩
        cases ha
  | ok a =>
      constructor
      · intro h
        exact ⟨a, rfl, h⟩
      · rintro ⟨a', ha, h⟩
        cases ha
        exact h

theorem pure_eq_ok_iff {a b : α} : (pure a : Except ε α) = .ok b ↔ a = b :=
  ⟨Except.ok.inj, fun h => h ▸ rfl⟩

theorem mapM_eq_ok_iff {f : α → Except ε β} {xs : List α} {ys : List β} :
    xs.mapM f = .ok ys ↔ List.Forall₂ (fun x y => f x = .ok y) xs ys := by
  induction xs generalizing ys with
  | nil =>
      rw [List.mapM_nil, pure_eq_ok_iff, List.forall₂_nil_left_iff, eq_comm]
  | cons x xs ih =>
      rw [List.mapM_cons, bind_eq_ok_iff, List.forall₂_cons_left_iff]
      constructor
      · rintro ⟨y, hy, hrest⟩
        obtain ⟨rest, hrest, heq⟩ := bind_eq_ok_iff.1 hrest
        exact ⟨y, rest, hy, ih.1 hrest, (pure_eq_ok_iff.1 heq).symm⟩
      · rintro ⟨y, rest, hy, hrest, rfl⟩
        exact ⟨y, hy, bind_eq_ok_iff.2 ⟨rest, ih.2 hrest, rfl⟩⟩

theorem forM_eq_ok_iff {f : α → Except ε Unit} {xs : List α} :
    xs.forM f = .ok () ↔ ∀ x ∈ xs, f x = .ok () := by
  induction xs with
  | nil => exact ⟨fun _ x hx => absurd hx List.not_mem_nil, fun _ => rfl⟩
  | cons x xs ih =>
      rw [show (x :: xs).forM f = (f x >>= fun _ => xs.forM f) from rfl, bind_eq_ok_iff]
      constructor
      · rintro ⟨⟨⟩, hx, hrest⟩ y hy
        rcases List.mem_cons.1 hy with rfl | hy
        · exact hx
        · exact ih.1 hrest y hy
      · intro h
        refine ⟨(), h x (List.mem_cons_self ..), ih.2 ?_⟩
        intro y hy
        exact h y (List.mem_cons_of_mem _ hy)

/-- A sequence fails at the first part that does, with the failure of that part. -/
theorem forM_eq_error_iff {f : α → Except ε Unit} {xs : List α} {failure : ε} :
    xs.forM f = .error failure ↔ ∃ before x after, xs = before ++ x :: after ∧
      (∀ y ∈ before, f y = .ok ()) ∧ f x = .error failure := by
  have hcons : ∀ x xs, (x :: xs).forM f = (f x >>= fun _ => xs.forM f) := fun _ _ => rfl
  constructor
  · intro h
    induction xs with
    | nil => cases h
    | cons x xs ih =>
        rw [hcons] at h
        cases hx : f x with
        | error failure' =>
            rw [hx] at h
            obtain rfl := Except.error.inj h
            exact ⟨[], x, xs, rfl, by simp, hx⟩
        | ok =>
            rw [hx] at h
            obtain ⟨before, y, after, rfl, hbefore, hy⟩ := ih h
            exact ⟨x :: before, y, after, rfl, List.forall_mem_cons.2 ⟨hx, hbefore⟩, hy⟩
  · rintro ⟨before, x, after, rfl, hbefore, hx⟩
    induction before with
    | nil =>
        rw [List.nil_append, hcons, hx]
        rfl
    | cons y before ih =>
        obtain ⟨hy, hrest⟩ := List.forall_mem_cons.1 hbefore
        rw [List.cons_append, hcons, hy]
        exact ih hrest

/-- A requirement that stops the computation if it is not met. -/
theorem unless_eq_ok_iff {P : Prop} [Decidable P] {failure : ε} :
    (unless P do throw failure : Except ε Unit) = .ok () ↔ P := by
  by_cases h : P
  · simp only [h, if_true]
    exact ⟨fun _ => trivial, fun _ => rfl⟩
  · simp only [h, if_false]
    constructor
    · intro hthrow
      cases hthrow
    · intro hfalse
      exact hfalse.elim

/-- A condition that stops the computation where it is met. -/
theorem guard_bind_eq_ok {P : Prop} [Decidable P] {failure : ε} {next : Unit → Except ε β} {b : β}
    (h : (if P then throw failure >>= next else next ()) = .ok b) : ¬ P ∧ next () = .ok b := by
  split at h
  · cases h
  · next hP => exact ⟨hP, h⟩

/-- A condition that stops the computation where it is not met. -/
theorem require_bind_eq_ok {P : Prop} [Decidable P] {failure : ε} {next : Unit → Except ε β}
    {b : β} (h : (if P then next () else throw failure >>= next) = .ok b) :
    P ∧ next () = .ok b := by
  split at h
  · next hP => exact ⟨hP, h⟩
  · cases h

/-- The same where something has to be looked up for the failure. -/
theorem guard_lookup_eq_ok {P : Prop} [Decidable P] {x : Except ε α} {failure : α → ε}
    {next : Unit → Except ε β} {b : β}
    (h : (if P then x >>= fun a => throw (failure a) >>= next else next ()) = .ok b) :
    ¬ P ∧ next () = .ok b := by
  split at h
  · obtain ⟨_, -, hthrow⟩ := bind_eq_ok_iff.1 h
    cases hthrow
  · next hP => exact ⟨hP, h⟩

theorem require_lookup_eq_ok {P : Prop} [Decidable P] {x : Except ε α} {failure : α → ε}
    {next : Unit → Except ε β} {b : β}
    (h : (if P then next () else x >>= fun a => throw (failure a) >>= next) = .ok b) :
    P ∧ next () = .ok b := by
  split at h
  · next hP => exact ⟨hP, h⟩
  · obtain ⟨_, -, hthrow⟩ := bind_eq_ok_iff.1 h
    cases hthrow

/-- If the computation fails, it is for a reason of the kind `bad`. -/
def FailsOnly (bad : Failure → Prop) (outcome : Except Failure α) : Prop :=
  ∀ failure, outcome = .error failure → bad failure

namespace FailsOnly

variable {bad bad' : Failure → Prop}

@[simp] theorem ok (a : α) : FailsOnly bad (.ok a) := by
  intro failure h
  cases h

@[simp] theorem pure (a : α) : FailsOnly bad (Pure.pure a) := ok a

theorem error {failure : Failure} (h : bad failure) :
    FailsOnly bad (.error failure : Except Failure α) :=
  fun _ heq => Except.error.inj heq ▸ h

@[simp] theorem error_iff {failure : Failure} :
    FailsOnly bad (.error failure : Except Failure α) ↔ bad failure :=
  ⟨fun h => h failure rfl, error⟩

@[simp] theorem throw_iff {failure : Failure} :
    FailsOnly bad (throw failure : Except Failure α) ↔ bad failure :=
  error_iff

theorem imp {x : Except Failure α} (h : FailsOnly bad x)
    (himp : ∀ failure, bad failure → bad' failure) : FailsOnly bad' x :=
  fun failure hfailure => himp failure (h failure hfailure)

@[simp] theorem bind_iff {x : Except Failure α} {f : α → Except Failure β} :
    FailsOnly bad (x >>= f) ↔ FailsOnly bad x ∧ ∀ a, x = .ok a → FailsOnly bad (f a) := by
  cases x with
  | ok a => exact ⟨fun h => ⟨ok a, fun b hb => Except.ok.inj hb ▸ h⟩, fun h => h.2 a rfl⟩
  | error failure =>
      exact ⟨fun h => ⟨error (h failure rfl), fun a ha => nomatch ha⟩,
        fun h => error (h.1 failure rfl)⟩

theorem bind {x : Except Failure α} {f : α → Except Failure β} (hx : FailsOnly bad x)
    (hf : ∀ a, x = .ok a → FailsOnly bad (f a)) : FailsOnly bad (x >>= f) :=
  bind_iff.2 ⟨hx, hf⟩

theorem bind_ok {x : Except Failure α} {f : α → Except Failure β} {a : α} (hx : x = .ok a)
    (hf : FailsOnly bad (f a)) : FailsOnly bad (x >>= f) := by
  rw [hx]
  exact hf

@[simp] theorem map_iff {x : Except Failure α} {f : α → β} :
    FailsOnly bad (f <$> x) ↔ FailsOnly bad x := by
  rw [← bind_pure_comp, bind_iff]
  simp

@[simp] theorem ite_iff {P : Prop} [Decidable P] {x y : Except Failure α} :
    FailsOnly bad (if P then x else y) ↔ (P → FailsOnly bad x) ∧ (¬ P → FailsOnly bad y) := by
  by_cases hP : P <;> simp [hP]

theorem mapM {f : α → Except Failure β} {xs : List α} (hf : ∀ x ∈ xs, FailsOnly bad (f x)) :
    FailsOnly bad (xs.mapM f) := by
  induction xs with
  | nil => exact ok []
  | cons x xs ih =>
      obtain ⟨hx, hxs⟩ := List.forall_mem_cons.1 hf
      simp [hx, ih hxs]

/-- A part of a sequence is only come to after those before it have succeeded. -/
theorem forM_first {f : α → Except Failure Unit} {xs : List α}
    (h : ∀ before x after, xs = before ++ x :: after → (∀ y ∈ before, f y = .ok ()) →
      FailsOnly bad (f x)) : FailsOnly bad (xs.forM f) := by
  intro failure hfailure
  obtain ⟨before, x, after, hxs, hbefore, hx⟩ := forM_eq_error_iff.1 hfailure
  exact h before x after hxs hbefore failure hx

theorem forM {f : α → Except Failure Unit} {xs : List α} (h : ∀ x ∈ xs, FailsOnly bad (f x)) :
    FailsOnly bad (ForM.forM xs f) :=
  forM_first fun before x after hxs _ => h x (by simp [hxs])

theorem foldlM {f : β → α → Except Failure β} {xs : List α}
    (h : ∀ x ∈ xs, ∀ acc, FailsOnly bad (f acc x)) (acc : β) :
    FailsOnly bad (xs.foldlM f acc) := by
  induction xs generalizing acc with
  | nil => exact ok acc
  | cons x xs ih =>
      obtain ⟨hx, hxs⟩ := List.forall_mem_cons.1 h
      rw [List.foldlM_cons]
      exact bind (hx acc) fun next _ => ih hxs next

end FailsOnly

end Outcome

namespace Op

theorem successors_of_not_isTerminator {op : Op} (h : ¬ op.isTerminator) :
    op.successors = [] := by
  cases op with
  | br | condBr | switch => exact absurd rfl h
  | _ => rfl

end Op

namespace Program

open Outcome

variable {p q : Program}

theorem func_eq_ok_iff {f : FuncRef} {func : Func} :
    p.func f = .ok func ↔ p.func? f = some func := by
  unfold Program.func
  cases p.func? f <;> simp

theorem block_eq_ok_iff {b : BlockRef} {block : Block} :
    p.block b = .ok block ↔ p.block? b = some block := by
  unfold Program.block
  cases p.block? b <;> simp

theorem instr_eq_ok_iff {i : InstrRef} {instr : Instr} :
    p.instr i = .ok instr ↔ p.instr? i = some instr := by
  unfold Program.instr
  cases p.instr? i <;> simp

theorem structTy_eq_ok_iff {s : StructRef} {structTy : StructTy} :
    p.structTy s = .ok structTy ↔ p.structTy? s = some structTy := by
  unfold Program.structTy
  cases p.structTy? s <;> simp

/-- The terminator is the last instruction of the block, if that is one. -/
theorem terminator_eq_ok_iff {b : BlockRef} {last? : Option InstrRef} :
    p.terminator b = .ok last? ↔
      ∃ block, p.block? b = some block ∧
        ((block.instrs.getLast? = none ∧ last? = none) ∨
          ∃ last instr, block.instrs.getLast? = some last ∧ p.instr? last = some instr ∧
            last? = if instr.op.isTerminator then some last else none) := by
  unfold Program.terminator
  rw [bind_eq_ok_iff]
  refine exists_congr fun block => ?_
  rw [block_eq_ok_iff]
  refine and_congr_right fun _ => ?_
  cases block.instrs.getLast? with
  | none =>
      constructor
      · intro h
        exact .inl ⟨rfl, (pure_eq_ok_iff.1 h).symm⟩
      · rintro (⟨-, rfl⟩ | ⟨last, instr, hlast, -⟩)
        · rfl
        · cases hlast
  | some last =>
      simp only [bind_eq_ok_iff, instr_eq_ok_iff, pure_eq_ok_iff]
      constructor
      · rintro ⟨instr, hinstr, heq⟩
        exact .inr ⟨last, instr, rfl, hinstr, heq.symm⟩
      · rintro (⟨hnone, -⟩ | ⟨last, instr, hlast, hinstr, heq⟩)
        · cases hnone
        · cases hlast
          exact ⟨instr, hinstr, heq.symm⟩

/-- The successors of a block are those of its last instruction, for only terminators
have any. -/
theorem successors_eq_ok_iff {b : BlockRef} {targets : List BlockRef} :
    p.successors b = .ok targets ↔
      ∃ block, p.block? b = some block ∧
        ((block.instrs.getLast? = none ∧ targets = []) ∨
          ∃ last instr, block.instrs.getLast? = some last ∧ p.instr? last = some instr ∧
            targets = instr.op.successors) := by
  unfold Program.successors
  rw [bind_eq_ok_iff]
  constructor
  · rintro ⟨last?, hlast, hrest⟩
    obtain ⟨block, hblock, ⟨hnone, rfl⟩ | ⟨last, instr, hsome, hinstr, rfl⟩⟩ :=
      terminator_eq_ok_iff.1 hlast
    · exact ⟨block, hblock, .inl ⟨hnone, (pure_eq_ok_iff.1 hrest).symm⟩⟩
    · refine ⟨block, hblock, .inr ⟨last, instr, hsome, hinstr, ?_⟩⟩
      by_cases hterm : instr.op.isTerminator
      · simp only [hterm, if_true] at hrest
        obtain ⟨instr', hinstr', heq⟩ := bind_eq_ok_iff.1 hrest
        rw [instr_eq_ok_iff, hinstr] at hinstr'
        obtain rfl := Option.some.inj hinstr'
        exact (pure_eq_ok_iff.1 heq).symm
      · simp only [hterm] at hrest
        rw [Op.successors_of_not_isTerminator hterm]
        exact (pure_eq_ok_iff.1 hrest).symm
  · rintro ⟨block, hblock, ⟨hnone, rfl⟩ | ⟨last, instr, hsome, hinstr, rfl⟩⟩
    · exact ⟨none, terminator_eq_ok_iff.2 ⟨block, hblock, .inl ⟨hnone, rfl⟩⟩, rfl⟩
    · refine ⟨_, terminator_eq_ok_iff.2
        ⟨block, hblock, .inr ⟨last, instr, hsome, hinstr, rfl⟩⟩, ?_⟩
      by_cases hterm : instr.op.isTerminator
      · simp only [hterm, if_true]
        exact bind_eq_ok_iff.2 ⟨instr, instr_eq_ok_iff.2 hinstr, rfl⟩
      · simp only [hterm]
        rw [Op.successors_of_not_isTerminator hterm]
        rfl

/-- The same with the last instruction at hand. -/
theorem successors_eq_of_getLast? {b : BlockRef} {block : Block} {last : InstrRef} {instr : Instr}
    (hblock : p.block? b = some block) (hlast : block.instrs.getLast? = some last)
    (hinstr : p.instr? last = some instr) : p.successors b = .ok instr.op.successors :=
  successors_eq_ok_iff.2 ⟨block, hblock, .inr ⟨last, instr, hlast, hinstr, rfl⟩⟩

def Lists (p : Program) (b : BlockRef) (i : InstrRef) : Prop :=
  ∃ block, p.block? b = some block ∧ i ∈ block.instrs

def listedIn (p : Program) (blocks : List BlockRef) : List InstrRef :=
  blocks.flatMap fun b => ((p.block? b).map Block.instrs).getD []

theorem mem_listedIn_iff {blocks : List BlockRef} {i : InstrRef} :
    i ∈ p.listedIn blocks ↔ ∃ b ∈ blocks, p.Lists b i := by
  simp only [listedIn, List.mem_flatMap, Lists]
  refine exists_congr fun b => and_congr_right fun _ => ?_
  cases p.block? b <;> simp

/-- The blocks after a block, none where a reference leads nowhere. -/
def targetsOf (p : Program) (b : BlockRef) : List BlockRef := (p.successors b).toOption.getD []

def endOf (p : Program) (b : BlockRef) : Option InstrRef :=
  (p.block? b).bind fun block => block.instrs.getLast?

theorem lists_of_endOf {b : BlockRef} {i : InstrRef} (h : i ∈ p.endOf b) : p.Lists b i := by
  obtain ⟨block, hblock, hlast⟩ := Option.bind_eq_some_iff.1 h
  exact ⟨block, hblock, List.mem_of_getLast? hlast⟩

theorem lists_of_terminator {b : BlockRef} {last : InstrRef}
    (h : p.terminator b = .ok (some last)) : p.Lists b last := by
  obtain ⟨block, hblock, ⟨-, hnone⟩ | ⟨last', instr, hlast, -, heq⟩⟩ := terminator_eq_ok_iff.1 h
  · cases hnone
  · split at heq
    · obtain rfl := Option.some.inj heq
      exact ⟨block, hblock, List.mem_of_getLast? hlast⟩
    · cases heq

/-- The blocks after a block are settled by its list and its last instruction. -/
theorem successors_congr {b : BlockRef} (hblock : q.block? b = p.block? b)
    (hinstr : ∀ i ∈ p.endOf b, q.instr? i = p.instr? i) : q.successors b = p.successors b := by
  have hterminator : q.terminator b = p.terminator b := by
    unfold terminator Program.block
    rw [hblock]
    cases hb : p.block? b with
    | none => rfl
    | some block =>
        cases hlast : block.instrs.getLast? with
        | none => simp [bind, Except.bind, hlast]
        | some last =>
            have hsame := hinstr last (by simp [endOf, hb, hlast])
            simp [bind, Except.bind, hlast, Program.instr, hsame]
  unfold successors
  rw [hterminator]
  cases hlast? : p.terminator b with
  | error failure => rfl
  | ok last? =>
      cases last? with
      | none => rfl
      | some last =>
          obtain ⟨block, hb, ⟨-, hnone⟩ | ⟨last', instr, hlast, -, heq⟩⟩ :=
            terminator_eq_ok_iff.1 hlast?
          · cases hnone
          · split at heq
            · obtain rfl := Option.some.inj heq
              have hsame := hinstr last (by simp [endOf, hb, hlast])
              change (q.instr last >>= _) = (p.instr last >>= _)
              rw [Program.instr, Program.instr, hsame]
            · cases heq

/-- The blocks after a block whose last instruction is changed. -/
theorem successors_of_changed {b : BlockRef} {targets : List BlockRef}
    {change : BlockRef → BlockRef} (hp : p.successors b = .ok targets)
    (hblock : q.block? b = p.block? b)
    (hinstr : ∀ i ∈ p.endOf b, ∀ instr, p.instr? i = some instr →
      ∃ instr', q.instr? i = some instr' ∧ instr'.op.successors = instr.op.successors.map change) :
    q.successors b = .ok (targets.map change) := by
  obtain ⟨block, hb, ⟨hnone, rfl⟩ | ⟨last, instr, hlast, hfound, rfl⟩⟩ :=
    successors_eq_ok_iff.1 hp
  · exact successors_eq_ok_iff.2 ⟨block, hblock.trans hb, .inl ⟨hnone, rfl⟩⟩
  · obtain ⟨instr', hfound', hsuccs⟩ := hinstr last (by simp [endOf, hb, hlast]) instr hfound
    rw [← hsuccs]
    exact successors_eq_of_getLast? (hblock.trans hb) hlast hfound'

/-- The checks of the instructions before the last one find no terminator. -/
theorem firstTerminator_eq_none {is : List InstrRef} (h : p.firstTerminator is = .ok none) :
    ∀ i ∈ is, ∃ instr, p.instr? i = some instr ∧ ¬ instr.op.isTerminator := by
  induction is with
  | nil => simp
  | cons i is ih =>
      unfold firstTerminator at h
      obtain ⟨instr, hinstr, hrest⟩ := bind_eq_ok_iff.1 h
      split at hrest
      · cases hrest
      · next hterm =>
          intro j hj
          rcases List.mem_cons.1 hj with rfl | hj
          · exact ⟨instr, instr_eq_ok_iff.1 hinstr, hterm⟩
          · exact ih hrest j hj

/-- Pairs that pass the check for ambiguity agree with each other and with those
before them. -/
theorem firstAmbiguous?_eq_none {before pairs : List (Value × BlockRef)}
    (h : firstAmbiguous? before pairs = none)
    (hbefore : ∀ pair ∈ before, ∀ other ∈ before, pair.2 = other.2 → pair.1 = other.1) :
    ∀ pair ∈ before ++ pairs, ∀ other ∈ before ++ pairs, pair.2 = other.2 → pair.1 = other.1 := by
  induction pairs generalizing before with
  | nil => simpa using hbefore
  | cons pair pairs ih =>
      obtain ⟨value, pred⟩ := pair
      unfold firstAmbiguous? at h
      split at h
      · cases h
      · next hclash =>
          have hagree : ∀ other ∈ before, other.2 = pred → other.1 = value := by
            intro other hother hpred
            by_contra hne
            refine hclash (List.any_eq_true.2 ⟨other, hother, ?_⟩)
            simp [hpred, hne]
          have hnext := ih h (by
            intro x hx y hy hxy
            simp only [List.mem_append, List.mem_singleton] at hx hy
            rcases hx with hx | rfl <;> rcases hy with hy | rfl
            · exact hbefore x hx y hy hxy
            · exact hagree x hx hxy
            · exact (hagree y hy hxy.symm).symm
            · rfl)
          simpa using hnext

theorem checkTargets_eq_ok {func : Func} {block : Block} {targets : List BlockRef}
    (h : p.checkTargets func block targets = .ok ()) :
    ∀ target ∈ targets, target ∈ func.blocks := by
  unfold checkTargets at h
  split at h
  · next hnone =>
      intro target htarget
      have hnot := List.find?_eq_none.1 hnone target htarget
      simpa using hnot
  · obtain ⟨_, -, hthrow⟩ := bind_eq_ok_iff.1 h
    cases hthrow

theorem checkIncoming_eq_ok {func : Func} {i : InstrRef} {pairs : List (Value × BlockRef)}
    (h : p.checkIncoming func i pairs = .ok ()) :
    (∀ pair ∈ pairs, pair.2 ∈ func.blocks) ∧
      ∀ pair ∈ pairs, ∀ other ∈ pairs, pair.2 = other.2 → pair.1 = other.1 := by
  unfold checkIncoming at h
  split at h
  · obtain ⟨_, -, hthrow⟩ := bind_eq_ok_iff.1 h
    cases hthrow
  · next hnone =>
      split at h
      · next hclear =>
          constructor
          · intro pair hpair
            have hnot := List.find?_eq_none.1 hnone pair hpair
            simpa using hnot
          · simpa using firstAmbiguous?_eq_none hclear (by simp)
      · obtain ⟨_, -, hthrow⟩ := bind_eq_ok_iff.1 h
        cases hthrow

theorem checkParams_eq_ok {f : FuncRef} {func : Func} {i : InstrRef} {values : List Value}
    (h : p.checkParams f func i values = .ok ()) :
    ∀ owner index, Value.param owner index ∈ values → owner = f := by
  induction values with
  | nil => simp
  | cons value values ih =>
      intro owner index hmem
      cases value with
      | param owner' index' =>
          unfold checkParams at h
          by_cases howner : owner' = f
          · have hrest : p.checkParams f func i values = .ok () := by simpa [howner] using h
            rcases List.mem_cons.1 hmem with heq | hmem
            · cases heq
              exact howner
            · exact ih hrest owner index hmem
          · simp only [ne_eq, howner, not_false_eq_true, if_true] at h
            obtain ⟨_, -, hthrow⟩ := bind_eq_ok_iff.1 h
            cases hthrow
      | _ =>
          rcases List.mem_cons.1 hmem with heq | hmem
          · cases heq
          · exact ih h owner index hmem

theorem wellFormedInstr_of_checkInstr {f : FuncRef} {func : Func} {b : BlockRef} {block : Block}
    {i : InstrRef} (h : p.checkInstr f func b block i = .ok ()) :
    ∃ instr, p.WellFormedInstr f func.blocks b i instr := by
  unfold checkInstr at h
  obtain ⟨instr, hinstr, h⟩ := bind_eq_ok_iff.1 h
  by_cases hplaced : instr.block = some b
  · simp only [hplaced, ne_eq, not_true_eq_false, if_false] at h
    obtain ⟨⟨⟩, htargets, h⟩ := bind_eq_ok_iff.1 h
    obtain ⟨⟨⟩, hincoming, hparams⟩ := bind_eq_ok_iff.1 h
    obtain ⟨hpreds, hclear⟩ := checkIncoming_eq_ok hincoming
    exact ⟨instr, instr_eq_ok_iff.1 hinstr, hplaced, checkTargets_eq_ok htargets, hpreds,
      hclear, checkParams_eq_ok hparams⟩
  · simp only [ne_eq, hplaced, not_false_eq_true, if_true] at h
    cases h

theorem wellFormedBlock_of_checkBlock {f : FuncRef} {func : Func} {b : BlockRef}
    (h : p.checkBlock f func b = .ok ()) :
    ∃ block, p.WellFormedBlock f func.blocks b block := by
  unfold checkBlock at h
  obtain ⟨block, hblock, h⟩ := bind_eq_ok_iff.1 h
  by_cases howner : block.func = f
  · simp only [howner, ne_eq, not_true_eq_false, if_false] at h
    split at h
    · cases h
    · next last hlast =>
        obtain ⟨instr, hinstr, h⟩ := bind_eq_ok_iff.1 h
        by_cases hterm : instr.op.isTerminator
        · simp only [hterm, Bool.not_true, Bool.false_eq_true, if_false] at h
          obtain ⟨early?, hearly, h⟩ := bind_eq_ok_iff.1 h
          cases early? with
          | some early => cases h
          | none =>
              refine ⟨block, block_eq_ok_iff.1 hblock, howner, ?_, ?_⟩
              · refine ⟨block.instrs.dropLast, last, ?_,
                  ⟨instr, instr_eq_ok_iff.1 hinstr, hterm⟩, firstTerminator_eq_none hearly⟩
                exact (List.dropLast_append_getLast? last hlast).symm
              · intro i hi
                exact wellFormedInstr_of_checkInstr (forM_eq_ok_iff.1 h i hi)
        · simp only [hterm] at h
          cases h
  · simp only [ne_eq, howner, not_false_eq_true, if_true] at h
    cases h

/-- A function that passes the check is well-formed. -/
theorem wellFormed_of_check {f : FuncRef} (h : p.check f = .ok ()) :
    ∃ func, p.WellFormed f func := by
  unfold check at h
  obtain ⟨func, hfunc, h⟩ := bind_eq_ok_iff.1 h
  refine ⟨func, ?_⟩
  by_cases hexternal : func.external
  · simp only [hexternal, if_true] at h
    have hempty : func.blocks = [] := by
      simpa using unless_eq_ok_iff.1 h
    exact ⟨func_eq_ok_iff.1 hfunc, fun _ => hempty, fun hnot => absurd hexternal hnot,
      hempty ▸ List.nodup_nil, by simp [hempty]⟩
  · simp only [hexternal] at h
    by_cases hempty : func.blocks.isEmpty
    · simp only [hempty, if_true] at h
      cases h
    · simp only [hempty, Bool.false_eq_true, if_false] at h
      by_cases hnodup : func.blocks.Nodup
      · simp only [hnodup, if_true] at h
        exact ⟨func_eq_ok_iff.1 hfunc, fun hext => absurd hext hexternal,
          fun _ hnil => hempty (by simp [hnil]), hnodup,
          fun b hb => wellFormedBlock_of_checkBlock (forM_eq_ok_iff.1 h b hb)⟩
      · simp only [hnodup, if_false] at h
        cases h

end Program

end Decouple
