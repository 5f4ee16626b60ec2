import Decouple.Proofs.Edits

/-!
# Edits that keep types

The type of a live-in is looked up when the structure of the arguments is declared, and again
each time a worker loads the value. In between instructions are added and renamed and functions
get bodies, and none of that changes a type (`Program.KeepsTypes`).

Of the reasons for a failure three are told apart from all others (`Failure.isCommon`): what is
asked before the first change (`Failure.isEarly`), a live-in whose type has changed, or that the
structure has no field for (`Failure.isDrift`), and a block of the loop that nothing stands for in a
worker (`Failure.isAstray`). An edit is `Steady` in a program if it keeps the types where it
succeeds and fails for a common reason only, or for one of some extra ones. Steady edits can be put
one after the other, so what is left to look at are the few edits that ask the early questions,
read types or copy blocks.
-/

namespace Decouple

theorem Program.length_of_valueTypes {p : Program} {values : List Value} {types : List Ty}
    (h : p.valueTypes values = .ok types) : types.length = values.length :=
  (Outcome.mapM_eq_ok_iff.1 h).length_eq.symm

section Tables

variable {α β : Type} {table : Array α} {k : Nat} {a : α}

theorem getElem?_push_of_some (h : table[k]? = some a) (b : α) : (table.push b)[k]? = some a := by
  obtain ⟨hlt, -⟩ := Array.getElem?_eq_some_iff.1 h
  rw [Array.getElem?_push, if_neg (Nat.ne_of_lt hlt), h]

/-- An entry that is replaced by one with the same `g` changes the `g` of no entry. -/
theorem exists_getElem?_setIfInBounds {j : Nat} {b c : α} {g : α → β} (hj : table[j]? = some b)
    (hg : g c = g b) (h : table[k]? = some a) :
    ∃ a', (table.setIfInBounds j c)[k]? = some a' ∧ g a' = g a := by
  obtain ⟨hlt, -⟩ := Array.getElem?_eq_some_iff.1 h
  by_cases hsame : j = k
  · subst hsame
    obtain rfl := Option.some.inj (hj.symm.trans h)
    exact ⟨c, Array.getElem?_setIfInBounds_self_of_lt hlt, hg⟩
  · exact ⟨a, by rw [Array.getElem?_setIfInBounds_ne hsame, h], rfl⟩

end Tables

structure Program.KeepsTypes (p q : Program) : Prop where
  instr? : ∀ i instr, p.instr? i = some instr →
    ∃ instr', q.instr? i = some instr' ∧ instr'.ty = instr.ty
  func? : ∀ f func, p.func? f = some func →
    ∃ func', q.func? f = some func' ∧ func'.params = func.params
  structTy? : ∀ s structTy, p.structTy? s = some structTy → q.structTy? s = some structTy

namespace Program.KeepsTypes

open Outcome

variable {p q r : Program}

theorem refl (p : Program) : p.KeepsTypes p where
  instr? := fun _ instr hi => ⟨instr, hi, rfl⟩
  func? := fun _ func hf => ⟨func, hf, rfl⟩
  structTy? := fun _ _ hs => hs

theorem trans (h : p.KeepsTypes q) (h' : q.KeepsTypes r) : p.KeepsTypes r where
  instr? := by
    intro i instr hi
    obtain ⟨instr', hi', hty⟩ := h.instr? i instr hi
    obtain ⟨instr'', hi'', hty'⟩ := h'.instr? i instr' hi'
    exact ⟨instr'', hi'', hty'.trans hty⟩
  func? := by
    intro f func hf
    obtain ⟨func', hf', hparams⟩ := h.func? f func hf
    obtain ⟨func'', hf'', hparams'⟩ := h'.func? f func' hf'
    exact ⟨func'', hf'', hparams'.trans hparams⟩
  structTy? := fun s structTy hs => h'.structTy? s structTy (h.structTy? s structTy hs)

theorem valueType_eq_ok (h : p.KeepsTypes q) {v : Value} {ty : Ty} (hv : p.valueType v = .ok ty) :
    q.valueType v = .ok ty := by
  cases v with
  | instr i =>
      obtain ⟨instr, hinstr, heq⟩ := bind_eq_ok_iff.1 hv
      obtain ⟨instr', hinstr', hty⟩ := h.instr? i instr (instr_eq_ok_iff.1 hinstr)
      exact bind_eq_ok_iff.2 ⟨instr', instr_eq_ok_iff.2 hinstr', hty ▸ heq⟩
  | param f index =>
      obtain ⟨func, hfunc, heq⟩ := bind_eq_ok_iff.1 hv
      obtain ⟨func', hfunc', hparams⟩ := h.func? f func (func_eq_ok_iff.1 hfunc)
      refine bind_eq_ok_iff.2 ⟨func', func_eq_ok_iff.2 hfunc', ?_⟩
      rw [hparams]
      exact heq
  | int | null | func => exact hv

theorem valueTypes_eq_ok (h : p.KeepsTypes q) {values : List Value} {types : List Ty}
    (hvalues : p.valueTypes values = .ok types) : q.valueTypes values = .ok types :=
  mapM_eq_ok_iff.2 ((mapM_eq_ok_iff.1 hvalues).imp fun _ _ => h.valueType_eq_ok)

theorem push_func (func : Func) : p.KeepsTypes { p with funcs := p.funcs.push func } where
  instr? := fun _ instr hi => ⟨instr, hi, rfl⟩
  func? := fun _ func' hf => ⟨func', getElem?_push_of_some hf func, rfl⟩
  structTy? := fun _ _ hs => hs

theorem push_instr (instr : Instr) :
    p.KeepsTypes { p with instrs := p.instrs.push instr } where
  instr? := fun _ instr' hi => ⟨instr', getElem?_push_of_some hi instr, rfl⟩
  func? := fun _ func hf => ⟨func, hf, rfl⟩
  structTy? := fun _ _ hs => hs

theorem push_struct (structTy : StructTy) :
    p.KeepsTypes { p with structs := p.structs.push structTy } where
  instr? := fun _ instr hi => ⟨instr, hi, rfl⟩
  func? := fun _ func hf => ⟨func, hf, rfl⟩
  structTy? := fun _ _ hs => getElem?_push_of_some hs structTy

theorem with_blocks (blocks : Array Block) : p.KeepsTypes { p with blocks } where
  instr? := fun _ instr hi => ⟨instr, hi, rfl⟩
  func? := fun _ func hf => ⟨func, hf, rfl⟩
  structTy? := fun _ _ hs => hs

theorem set_func {f : FuncRef} {func func' : Func} (hf : p.func? f = some func)
    (hparams : func'.params = func.params) :
    p.KeepsTypes { p with funcs := p.funcs.setIfInBounds f.index func' } where
  instr? := fun _ instr hi => ⟨instr, hi, rfl⟩
  func? := fun _ _ hg => exists_getElem?_setIfInBounds hf hparams hg
  structTy? := fun _ _ hs => hs

theorem set_instr {i : InstrRef} {instr instr' : Instr} (hi : p.instr? i = some instr)
    (hty : instr'.ty = instr.ty) :
    p.KeepsTypes { p with instrs := p.instrs.setIfInBounds i.index instr' } where
  instr? := fun _ _ hj => exists_getElem?_setIfInBounds hi hty hj
  func? := fun _ func hf => ⟨func, hf, rfl⟩
  structTy? := fun _ _ hs => hs

theorem of_writes {b : BlockRef} {tail : List InstrRef} {ops : List (Op × Ty)}
    (h : Writes b tail ops p q) : p.KeepsTypes q where
  instr? := by
    intro i instr hi
    obtain ⟨code, hemits, -⟩ := h
    exact ⟨instr, hemits.instr?_kept hi, rfl⟩
  func? := fun f func hf => ⟨func, h.func?_kept hf, rfl⟩
  structTy? := by
    intro s structTy hs
    obtain ⟨code, hemits, -⟩ := h
    obtain ⟨more, hmore⟩ := hemits.structs_eq
    obtain ⟨hlt, -⟩ := Array.getElem?_eq_some_iff.1 hs
    simpa [Program.structTy?, hmore, Array.getElem?_append, hlt] using hs

theorem of_rewrites {change : InstrRef → Instr → Instr} (h : Rewrites change p q)
    (hchange : ∀ i instr, (change i instr).ty = instr.ty) : p.KeepsTypes q where
  instr? := by
    intro i instr hi
    exact ⟨change i instr, by rw [h.instr?, hi]; rfl, hchange i instr⟩
  func? := fun f func hf => ⟨func, by rw [h.func?, hf], rfl⟩
  structTy? := by
    intro s structTy hs
    rw [Program.structTy?, h.structs_eq]
    exact hs

theorem of_apply {σ : Renaming} {is : List InstrRef} {n : Nat}
    (h : (σ.apply is).apply p = (.ok n, q)) : p.KeepsTypes q := by
  refine of_rewrites (Rewrites.of_apply h) fun i instr => ?_
  refine apply_iterate_of_invariant Instr.ty ?_ _ instr
  exact fun _ => rfl

end Program.KeepsTypes

def Program.KeepsInstrs (p q : Program) : Prop :=
  ∀ i instr, p.instr? i = some instr → q.instr? i = some instr

namespace Program.KeepsInstrs

variable {p q r : Program}

theorem refl (p : Program) : p.KeepsInstrs p := fun _ _ hi => hi

theorem trans (h : p.KeepsInstrs q) (h' : q.KeepsInstrs r) : p.KeepsInstrs r :=
  fun i instr hi => h' i instr (h i instr hi)

theorem of_appendInstr {b : BlockRef} {op : Op} {ty : Ty} {name? : Option String} {i : InstrRef}
    (h : (Edit.appendInstr b op ty name?).apply p = (.ok i, q)) : p.KeepsInstrs q := by
  obtain ⟨-, code, hemits, -⟩ := Writes.of_appendInstr h
  exact fun _ _ hi => hemits.instr?_kept hi

end Program.KeepsInstrs

/-- The computation stopped because of the border of the loop, a live-out that no thread runs, or
the exit of the loop. -/
def Failure.isEarly : Failure → Bool
  | .rejected (.malformedUse _) => true
  | .rejected (.invariant (.liveOutUnowned _)) => true
  | .rejected (.invariant (.exitInLoop _)) => true
  | .rejected (.invariant (.exitNotInLayout _ _)) => true
  | .rejected (.invariant (.exitPhiCrowded _ _)) => true
  | _ => false

/-- The computation stopped because of the type of a live-in: the structure of the arguments
has another one for it, or none at all. -/
def Failure.isDrift : Failure → Bool
  | .rejected (.typeMismatch _ _ _) => true
  | .rejected (.invariant (.noArgField _)) => true
  | _ => false

/-- The computation stopped at a block that a branch or a φ of the loop names: nothing stands
for it in the worker. -/
def Failure.isAstray : Failure → Bool
  | .rejected (.unexpectedTarget _) => true
  | .rejected (.brokenPostDominance _) => true
  | .rejected (.brokenDominance _) => true
  | _ => false

/-- The computation stopped for another reason than these three. -/
def Failure.isCommon (failure : Failure) : Bool :=
  !failure.isEarly && !failure.isDrift && !failure.isAstray

namespace Failure

variable {failure : Failure}

@[simp] theorem isEarly_malformedUse (value : String) :
    (Failure.rejected (.malformedUse value)).isEarly := rfl

@[simp] theorem isEarly_liveOutUnowned (value : String) :
    (Failure.violated (.liveOutUnowned value)).isEarly := rfl

@[simp] theorem isEarly_exitInLoop (block : String) :
    (Failure.violated (.exitInLoop block)).isEarly := rfl

@[simp] theorem isEarly_exitNotInLayout (block func : String) :
    (Failure.violated (.exitNotInLayout block func)).isEarly := rfl

@[simp] theorem isEarly_exitPhiCrowded (phi : String) (edges : Nat) :
    (Failure.violated (.exitPhiCrowded phi edges)).isEarly := rfl

@[simp] theorem isCommon_fault (fault : Fault) : (Failure.fault fault).isCommon := rfl

@[simp] theorem isCommon_violated_iff {violation : Violation} :
    (Failure.violated violation).isCommon ↔ (∀ value, violation ≠ .liveOutUnowned value) ∧
      (∀ block, violation ≠ .exitInLoop block) ∧
      (∀ block func, violation ≠ .exitNotInLayout block func) ∧
      (∀ phi edges, violation ≠ .exitPhiCrowded phi edges) ∧
      ∀ value, violation ≠ .noArgField value := by
  cases violation <;> simp [Failure.violated, isCommon, isEarly, isDrift, isAstray]

@[simp] theorem isCommon_emptyPartition (thread : Nat) :
    (Failure.rejected (.emptyPartition thread)).isCommon := rfl

theorem not_of_isCommon (h : failure.isCommon) :
    ¬ failure.isEarly ∧ ¬ failure.isDrift ∧ ¬ failure.isAstray := by
  simpa [isCommon, and_assoc] using h

theorem not_of_isEarly (h : failure.isEarly) : ¬ failure.isDrift ∧ ¬ failure.isAstray := by
  unfold isEarly at h
  split at h <;> cases h <;> exact ⟨Bool.false_ne_true, Bool.false_ne_true⟩

theorem not_of_isAstray (h : failure.isAstray) : ¬ failure.isEarly ∧ ¬ failure.isDrift := by
  unfold isAstray at h
  split at h <;> cases h <;> exact ⟨Bool.false_ne_true, Bool.false_ne_true⟩

end Failure

/-- If the computation stops, it is for a common reason or for one of the `extra` ones. -/
abbrev Outcome.Calm {α : Type} (extra : Failure → Prop) (outcome : Except Failure α) : Prop :=
  FailsOnly (fun failure => failure.isCommon ∨ extra failure) outcome

theorem Outcome.FailsOnly.allow {α : Type} {extra extra' : Failure → Prop}
    {outcome : Except Failure α} (h : Calm extra outcome)
    (hextra : ∀ failure, extra failure → extra' failure) : Calm extra' outcome :=
  h.imp fun failure => .imp_right (hextra failure)

namespace Program

open Outcome FailsOnly

variable {extra : Failure → Prop} (p : Program)

@[simp] theorem calm_func (f : FuncRef) : Calm extra (p.func f) := by
  unfold func
  split <;> simp

@[simp] theorem calm_block (b : BlockRef) : Calm extra (p.block b) := by
  unfold block
  split <;> simp

@[simp] theorem calm_instr (i : InstrRef) : Calm extra (p.instr i) := by
  unfold instr
  split <;> simp

@[simp] theorem calm_structTy (s : StructRef) : Calm extra (p.structTy s) := by
  unfold structTy
  split <;> simp

@[simp] theorem calm_terminator (b : BlockRef) : Calm extra (p.terminator b) := by
  refine bind (p.calm_block b) fun block _ => ?_
  split <;> simp

@[simp] theorem calm_successors (b : BlockRef) : Calm extra (p.successors b) := by
  refine bind (p.calm_terminator b) fun last? _ => ?_
  split <;> simp

@[simp] theorem calm_paramValue (f : FuncRef) (index : Nat) :
    Calm extra (p.paramValue f index) := by
  simp [paramValue]

@[simp] theorem calm_valueType (v : Value) : Calm extra (p.valueType v) := by
  cases v with
  | param f index =>
      refine bind (p.calm_func f) fun func _ => ?_
      split <;> simp
  | _ => simp [valueType]

@[simp] theorem calm_valueTypes (values : List Value) : Calm extra (p.valueTypes values) :=
  mapM fun v _ => p.calm_valueType v

@[simp] theorem calm_valueName (v : Value) : Calm extra (p.valueName v) := by
  cases v <;> simp [valueName]

end Program

namespace Edit

variable {α β : Type} {extra : Failure → Prop} {p q : Program}

/-- In the program `p` the edit keeps the types where it succeeds, and where it fails that is
for a common reason or for one of the `extra` ones. -/
structure Steady (extra : Failure → Prop) (edit : Edit α) (p : Program) : Prop where
  keeps : ∀ a q, edit.apply p = (.ok a, q) → p.KeepsTypes q
  calm : ∀ failure q, edit.apply p = (.error failure, q) → failure.isCommon ∨ extra failure

namespace Steady

open Outcome

theorem of_pure (a : α) : Steady extra (pure a) p where
  keeps := by
    intro b q h
    obtain ⟨-, rfl⟩ := pure_eq_ok_iff.1 h
    exact .refl p
  calm := by
    intro failure q h
    cases h

theorem of_throw {failure : Failure} (h : failure.isCommon) :
    Steady extra (throw failure : Edit α) p where
  keeps := fun _ _ hok => absurd hok throw_ne_ok
  calm := by
    intro failure' q heq
    obtain ⟨herror, -⟩ := Prod.mk.inj heq
    exact .inl (Except.error.inj herror ▸ h)

theorem of_answer {answer : Except Failure α} (h : Calm extra answer) :
    Steady extra (liftM answer : Edit α) p where
  keeps := by
    intro a q hok
    obtain ⟨-, rfl⟩ := liftM_eq_ok_iff.1 hok
    exact .refl p
  calm := by
    intro failure q heq
    rw [apply_liftM] at heq
    exact h failure (Prod.mk.inj heq).1

theorem bind {first : Edit α} {second : α → Edit β} (hfirst : Steady extra first p)
    (hsecond : ∀ a q, first.apply p = (.ok a, q) → p.KeepsTypes q → Steady extra (second a) q) :
    Steady extra (first >>= second) p where
  keeps := by
    intro b r h
    obtain ⟨a, q, ha, hb⟩ := apply_bind_eq_ok_iff.1 h
    have hkeeps := hfirst.keeps a q ha
    exact hkeeps.trans ((hsecond a q ha hkeeps).keeps b r hb)
  calm := by
    intro failure r h
    rw [apply_bind] at h
    split at h
    · next a q ha => exact (hsecond a q ha (hfirst.keeps a q ha)).calm failure r h
    · next failure' q herror =>
        obtain ⟨heq, -⟩ := Prod.mk.inj h
        exact Except.error.inj heq ▸ hfirst.calm failure' q herror

/-- Looking at the program before the edits that follow. -/
theorem get_bind {next : Program → Edit β} (h : Steady extra (next p) p) :
    Steady extra (get >>= next) p where
  keeps := fun b q hok => h.keeps b q (get_bind_eq_ok_iff.1 hok)
  calm := by
    intro failure q herror
    rw [apply_bind] at herror
    exact h.calm failure q herror

/-- Asking the program something before the edits that follow. -/
theorem answer_bind {answer : Except Failure α} {next : α → Edit β} (h : Calm extra answer)
    (hnext : ∀ a, answer = .ok a → Steady extra (next a) p) :
    Steady extra (liftM answer >>= next) p := by
  refine bind (of_answer h) fun a q ha _ => ?_
  obtain ⟨heq, rfl⟩ := liftM_eq_ok_iff.1 ha
  exact hnext a heq

theorem of_modify {change : Program → Program} (h : p.KeepsTypes (change p)) :
    Steady extra (modify change : Edit Unit) p where
  keeps := by
    intro u q hok
    obtain rfl := modify_eq_ok_iff.1 hok
    exact h
  calm := by
    intro failure q heq
    cases heq

/-- Edits that are steady whatever came before. -/
theorem bind_forall {first : Edit α} {second : α → Edit β} (hfirst : Steady extra first p)
    (hsecond : ∀ a q, Steady extra (second a) q) : Steady extra (first >>= second) p :=
  hfirst.bind fun a q _ _ => hsecond a q

/-- Edits that are steady in programs with a property that they keep. -/
theorem mapM {edit : α → Edit β} {xs : List α} (good : Program → Prop) (hp : good p)
    (hedit : ∀ x q, good q → Steady extra (edit x) q)
    (hnext : ∀ x q y r, good q → (edit x).apply q = (.ok y, r) → q.KeepsTypes r → good r) :
    Steady extra (xs.mapM edit) p := by
  induction xs generalizing p with
  | nil =>
      rw [List.mapM_nil]
      exact of_pure []
  | cons x xs ih =>
      rw [List.mapM_cons]
      refine bind (hedit x p hp) fun y q hy hkeeps => ?_
      refine bind_forall (ih (hnext x p y q hp hy hkeeps)) fun ys r => ?_
      exact of_pure (y :: ys)

theorem forM {edit : α → Edit Unit} {xs : List α} (hedit : ∀ x q, Steady extra (edit x) q) :
    Steady extra (xs.forM edit) p := by
  induction xs generalizing p with
  | nil => exact of_pure ()
  | cons x xs ih => exact bind_forall (hedit x p) fun _ _ => ih

theorem kept {edit : Edit α} {a : α} (h : Steady (fun _ => False) edit p)
    (hok : edit.apply p = (.ok a, q)) : p.KeepsTypes q :=
  h.keeps a q hok

end Steady

section Primitives

open Steady

variable {b : BlockRef} {op : Op} {ty : Ty} {name? : Option String}

theorem steady_nextIndex (size : Nat) : Steady extra (nextIndex size) p := by
  unfold nextIndex
  split
  · exact of_pure size
  · exact of_throw (by simp)

theorem steady_addFunc (func : Func) : Steady extra (addFunc func) p :=
  get_bind (bind_forall (steady_nextIndex _) fun _ _ =>
    bind_forall (of_modify (.push_func func)) fun _ _ => of_pure _)

theorem steady_addStruct (name : String) (fields : List Ty) :
    Steady extra (addStruct name fields) p :=
  get_bind (bind_forall (steady_nextIndex _) fun _ _ =>
    bind_forall (of_modify (.push_struct ⟨name, fields⟩)) fun _ _ => of_pure _)

theorem steady_addInstr (instr : Instr) : Steady extra (addInstr instr) p :=
  get_bind (bind_forall (steady_nextIndex _) fun _ _ =>
    bind_forall (of_modify (.push_instr instr)) fun _ _ => of_pure _)

theorem steady_requireFunc (name : String) (params : List Ty) (ret : Ty) :
    Steady extra (requireFunc name params ret) p := by
  refine get_bind ?_
  split
  · exact of_pure _
  · exact steady_addFunc _

/-- An instruction is replaced by one of the same type. -/
theorem steady_setInstr {i : InstrRef} {instr instr' : Instr} (hi : p.instr? i = some instr)
    (hty : instr'.ty = instr.ty) : Steady extra (setInstr i instr') p :=
  of_modify (.set_instr hi hty)

theorem steady_changeInstr (i : InstrRef) {change : Instr → Instr}
    (hchange : ∀ instr, (change instr).ty = instr.ty) : Steady extra (changeInstr i change) p := by
  refine get_bind (answer_bind (by simp) fun instr hinstr => ?_)
  exact steady_setInstr (Program.instr_eq_ok_iff.1 hinstr) (hchange instr)

theorem steady_insertBlock (f : FuncRef) (position : Nat) (name : String) :
    Steady extra (insertBlock f position name) p := by
  refine get_bind (bind_forall (steady_nextIndex _) fun _ _ => ?_)
  refine bind_forall (of_modify (.with_blocks _)) fun _ _ => ?_
  refine get_bind (answer_bind (by simp) fun func hfunc => ?_)
  split
  · have hlookup := Program.func_eq_ok_iff.1 hfunc
    exact bind_forall (of_modify (.set_func hlookup rfl)) fun _ _ => of_pure _
  · exact of_throw (by simp)

theorem steady_appendBlock (f : FuncRef) (name : String) : Steady extra (appendBlock f name) p :=
  get_bind (answer_bind (by simp) fun _ _ => steady_insertBlock f _ name)

theorem steady_insertInstr (position : Nat) :
    Steady extra (insertInstr b position op ty name?) p := by
  refine bind_forall (steady_addInstr _) fun _ _ => ?_
  refine get_bind (answer_bind (by simp) fun block _ => ?_)
  split
  · exact bind_forall (of_modify (.with_blocks _)) fun _ _ => of_pure _
  · exact of_throw (by simp)

theorem steady_appendInstr : Steady extra (appendInstr b op ty name?) p :=
  get_bind (answer_bind (by simp) fun _ _ => steady_insertInstr _)

theorem steady_insertBeforeEnd : Steady extra (insertBeforeEnd b op ty name?) p := by
  refine get_bind (answer_bind (by simp) fun block _ => answer_bind (by simp) fun last? _ => ?_)
  split
  · exact steady_insertInstr _
  · exact steady_insertInstr _

end Primitives

end Edit

namespace Renaming

open Edit Steady

variable {extra : Failure → Prop} {p : Program} (σ : Renaming)

theorem steady_applyEach (is : List InstrRef) : Steady extra (σ.applyEach is) p := by
  induction is generalizing p with
  | nil => exact of_pure 0
  | cons i is ih =>
      refine get_bind (answer_bind (by simp) fun instr hinstr => ?_)
      have hlookup := Program.instr_eq_ok_iff.1 hinstr
      refine bind_forall (steady_setInstr hlookup rfl) fun _ _ => ?_
      exact bind_forall ih fun _ _ => of_pure _

theorem steady_apply (is : List InstrRef) : Steady extra (σ.apply is) p := by
  unfold apply
  split
  · exact of_pure 0
  · exact σ.steady_applyEach is

end Renaming

end Decouple
