import Decouple.Proofs.Stability
import Mathlib.Logic.Relation

/-!
# Changes of a program, one after the other

All edits come down to five changes of a program (`Change`): a function without a body is added,
or a structure type, an empty block is put into the layout of a function, an instruction into a
block, or another operation in the place of the one that an instruction has. `Evolves permits p q`
says that `q` arises from `p` by changes each of which is permitted in the program that it is made
in, so what every permitted change keeps is kept from `p` to `q` (`Evolves.keeps`).

An edit that is not broken off by a fault makes such changes only, whether it succeeds or stops
with a refusal halfway: `Edit.Performs` says so, together with what holds where it succeeds. The
rules below take a sequence of edits apart, so that a definition is gone through once and all that
its changes keep follows from the changes alone. Where an edit is broken off no more is said: it
may have added an entry and not listed it yet.
-/

namespace Decouple

inductive Change where
  | addFunc (func : Func)
  | addStruct (structTy : StructTy)
  | addBlock (f : FuncRef) (position : Nat) (name : String)
  | addInstr (b : BlockRef) (position : Nat) (op : Op) (ty : Ty) (name : Option String)
  | setOp (i : InstrRef) (op : Op)

/-- The change can be made in `p`, and gives the last program. -/
inductive Change.Makes (p : Program) : Change → Program → Prop where
  | addFunc {func : Func} (hblocks : func.blocks = []) :
      Makes p (.addFunc func) { p with funcs := p.funcs.push func }
  | addStruct {structTy : StructTy} :
      Makes p (.addStruct structTy) { p with structs := p.structs.push structTy }
  | addBlock {f : FuncRef} {func : Func} {position : Nat} {name : String}
      (hfunc : p.func? f = some func) (hposition : position ≤ func.blocks.length) :
      Makes p (.addBlock f position name) { p with
        blocks := p.blocks.push { name, func := f, instrs := [] }
        funcs := p.funcs.setIfInBounds f.index
          { func with blocks := func.blocks.insertIdx position ⟨p.blocks.size⟩ } }
  | addInstr {b : BlockRef} {block : Block} {position : Nat} {op : Op} {ty : Ty}
      {name : Option String} (hblock : p.block? b = some block)
      (hposition : position ≤ block.instrs.length) :
      Makes p (.addInstr b position op ty name) { p with
        instrs := p.instrs.push { block := some b, op, ty, name }
        blocks := p.blocks.setIfInBounds b.index
          { block with instrs := block.instrs.insertIdx position ⟨p.instrs.size⟩ } }
  | setOp {i : InstrRef} {instr : Instr} {op : Op} (hinstr : p.instr? i = some instr) :
      Makes p (.setOp i op)
        { p with instrs := p.instrs.setIfInBounds i.index { instr with op } }

/-- The blocks in the layout of the function are there and belong to it. -/
def Program.Houses (p : Program) (f : FuncRef) : Prop :=
  ∀ func, p.func? f = some func → ∀ b ∈ func.blocks, ∃ block,
    p.block? b = some block ∧ block.func = f

namespace Change.Makes

variable {p q : Program} {change : Change}

/-- Blocks are put into a function one by one, and nothing else of it changes. -/
theorem func? (h : Makes p change q) {f : FuncRef} {func : Func} (hf : p.func? f = some func) :
    ∃ blocks, q.func? f = some { func with blocks } := by
  cases h with
  | addFunc => exact ⟨func.blocks, getElem?_push_of_some hf _⟩
  | addStruct | addInstr | setOp => exact ⟨func.blocks, hf⟩
  | @addBlock g _ _ _ hg =>
      by_cases hgf : g.index = f.index
      · obtain rfl := FuncRef.ext hgf
        obtain rfl := Option.some.inj (hg.symm.trans hf)
        obtain ⟨hlt, -⟩ := Array.getElem?_eq_some_iff.1 hf
        exact ⟨_, Array.getElem?_setIfInBounds_self_of_lt hlt⟩
      · exact ⟨func.blocks, (Array.getElem?_setIfInBounds_ne hgf).trans hf⟩

theorem func?_kept (h : Makes p change q) {f : FuncRef} {func : Func}
    (hf : p.func? f = some func) (hne : ∀ position name, change ≠ .addBlock f position name) :
    q.func? f = some func := by
  cases h with
  | addFunc => exact getElem?_push_of_some hf _
  | addStruct | addInstr | setOp => exact hf
  | @addBlock g _ position name _ =>
      have hgf : g.index ≠ f.index := fun heq => hne position name (by rw [FuncRef.ext heq])
      exact (Array.getElem?_setIfInBounds_ne hgf).trans hf

/-- Instructions are put into a block one by one, and nothing else of it changes. -/
theorem block? (h : Makes p change q) {b : BlockRef} {block : Block}
    (hb : p.block? b = some block) : ∃ instrs, q.block? b = some { block with instrs } := by
  cases h with
  | addBlock => exact ⟨block.instrs, getElem?_push_of_some hb _⟩
  | addFunc | addStruct | setOp => exact ⟨block.instrs, hb⟩
  | @addInstr c _ _ _ _ _ hc =>
      by_cases hcb : c.index = b.index
      · obtain rfl := BlockRef.ext hcb
        obtain rfl := Option.some.inj (hc.symm.trans hb)
        obtain ⟨hlt, -⟩ := Array.getElem?_eq_some_iff.1 hb
        exact ⟨_, Array.getElem?_setIfInBounds_self_of_lt hlt⟩
      · exact ⟨block.instrs, (Array.getElem?_setIfInBounds_ne hcb).trans hb⟩

theorem block?_kept (h : Makes p change q) {b : BlockRef} {block : Block}
    (hb : p.block? b = some block)
    (hne : ∀ position op ty name, change ≠ .addInstr b position op ty name) :
    q.block? b = some block := by
  cases h with
  | addBlock => exact getElem?_push_of_some hb _
  | addFunc | addStruct | setOp => exact hb
  | @addInstr c _ position op ty name _ =>
      have hcb : c.index ≠ b.index := fun heq => hne position op ty name (by rw [BlockRef.ext heq])
      exact (Array.getElem?_setIfInBounds_ne hcb).trans hb

theorem instr?_kept (h : Makes p change q) {i : InstrRef} {instr : Instr}
    (hi : p.instr? i = some instr) (hne : ∀ op, change ≠ .setOp i op) :
    q.instr? i = some instr := by
  cases h with
  | addInstr => exact getElem?_push_of_some hi _
  | addFunc | addStruct | addBlock => exact hi
  | @setOp j _ op _ =>
      have hji : j.index ≠ i.index := fun heq => hne op (by rw [InstrRef.ext heq])
      exact (Array.getElem?_setIfInBounds_ne hji).trans hi

theorem instr?_setOp {i : InstrRef} {instr : Instr} {op : Op} (h : Makes p (.setOp i op) q)
    (hi : p.instr? i = some instr) : q.instr? i = some { instr with op } := by
  cases h with
  | setOp hinstr =>
      obtain rfl := Option.some.inj (hinstr.symm.trans hi)
      obtain ⟨hlt, -⟩ := Array.getElem?_eq_some_iff.1 hi
      exact Array.getElem?_setIfInBounds_self_of_lt hlt

theorem structTy?_kept (h : Makes p change q) {s : StructRef} {structTy : StructTy}
    (hs : p.structTy? s = some structTy) : q.structTy? s = some structTy := by
  cases h with
  | addStruct => exact getElem?_push_of_some hs _
  | addFunc | addBlock | addInstr | setOp => exact hs

/-- A function gets new blocks only, which belong to it. -/
theorem houses (h : Makes p change q) {f : FuncRef} (hp : p.Houses f) : q.Houses f := by
  intro func hfunc b hb
  have hkept : ∀ func, p.func? f = some func → b ∈ func.blocks →
      ∃ block, q.block? b = some block ∧ block.func = f := by
    intro func hfunc hb
    obtain ⟨block, hblock, howner⟩ := hp func hfunc b hb
    obtain ⟨instrs, hinstrs⟩ := h.block? hblock
    exact ⟨_, hinstrs, howner⟩
  cases h with
  | addStruct | addInstr | setOp => exact hkept func hfunc hb
  | addFunc hblocks =>
      rw [Program.func?, Array.getElem?_push] at hfunc
      split at hfunc
      · rw [← Option.some.inj hfunc, hblocks] at hb
        exact absurd hb List.not_mem_nil
      · exact hkept func hfunc hb
  | @addBlock g func' position name hg hposition =>
      by_cases hgf : g.index = f.index
      · obtain rfl := FuncRef.ext hgf
        obtain ⟨hlt, -⟩ := Array.getElem?_eq_some_iff.1 hg
        rw [Program.func?, Array.getElem?_setIfInBounds_self_of_lt hlt] at hfunc
        rw [← Option.some.inj hfunc] at hb
        rcases (List.mem_insertIdx hposition).1 hb with rfl | hb
        · exact ⟨_, Array.getElem?_push_size, rfl⟩
        · exact hkept func' hg hb
      · rw [Program.func?, Array.getElem?_setIfInBounds_ne hgf] at hfunc
        exact hkept func hfunc hb

end Change.Makes

/-- `q` arises from `p` by changes, each of them permitted in the program that it is made in. -/
def Program.Evolves (permits : Program → Change → Prop) : Program → Program → Prop :=
  Relation.ReflTransGen fun p q => ∃ change, permits p change ∧ change.Makes p q

namespace Program.Evolves

variable {permits : Program → Change → Prop} {p q r : Program}

theorem refl (p : Program) : Evolves permits p p := Relation.ReflTransGen.refl

theorem trans (h : Evolves permits p q) (h' : Evolves permits q r) : Evolves permits p r :=
  Relation.ReflTransGen.trans h h'

theorem single {change : Change} (hpermits : permits p change) (hmakes : change.Makes p q) :
    Evolves permits p q :=
  Relation.ReflTransGen.single ⟨change, hpermits, hmakes⟩

/-- What every permitted change keeps is kept all along. -/
theorem keeps {motive : Program → Prop}
    (hstep : ∀ p change q, motive p → permits p change → change.Makes p q → motive q)
    (h : Evolves permits p q) (hp : motive p) : motive q := by
  induction h with
  | refl => exact hp
  | tail _ hlast ih =>
      obtain ⟨change, hpermits, hmakes⟩ := hlast
      exact hstep _ change _ ih hpermits hmakes

theorem func? (h : Evolves permits p q) {f : FuncRef} {func : Func}
    (hf : p.func? f = some func) : ∃ blocks, q.func? f = some { func with blocks } := by
  induction h with
  | refl => exact ⟨func.blocks, hf⟩
  | tail _ hlast ih =>
      obtain ⟨change, -, hmakes⟩ := hlast
      obtain ⟨blocks, hblocks⟩ := ih
      obtain ⟨blocks', hblocks'⟩ := hmakes.func? hblocks
      exact ⟨blocks', hblocks'⟩

/-- The layout of a function that is not there at first holds blocks of that function only. -/
theorem houses (h : Evolves permits p q) {f : FuncRef} (hf : p.func? f = none) : q.Houses f := by
  refine h.keeps (motive := (Program.Houses · f)) (fun _ _ _ hp _ hmakes => hmakes.houses hp) ?_
  intro func hfunc
  cases hf.symm.trans hfunc

end Program.Evolves

/-- The computation ended with a result or with a refusal and was not broken off. -/
def Outcome.IsAnswer {α : Type} (outcome : Except Failure α) : Prop :=
  ∀ fault, outcome ≠ .error (.fault fault)

namespace Edit

open Outcome

variable {α β : Type} {p q r : Program}

/-- The edit is never refused in `p`: if it fails, it is broken off. -/
def NeverRefused (edit : Edit α) (p : Program) : Prop :=
  ∀ failure q, edit.apply p = (.error failure, q) → ∃ fault, failure = .fault fault

namespace NeverRefused

theorem of_pure (a : α) : NeverRefused (pure a) p := by
  intro failure q h
  cases h

theorem of_modify (change : Program → Program) : NeverRefused (modify change) p := by
  intro failure q h
  cases h

theorem of_breakDown (fault : Fault) : NeverRefused (breakDown fault : Edit α) p := by
  intro failure q h
  obtain ⟨heq, -⟩ := Prod.mk.inj h
  exact ⟨fault, (Except.error.inj heq).symm⟩

theorem bind {first : Edit α} {second : α → Edit β} (hfirst : NeverRefused first p)
    (hsecond : ∀ a q, NeverRefused (second a) q) : NeverRefused (first >>= second) p := by
  intro failure r h
  rw [apply_bind] at h
  split at h
  · next a q hfirst' => exact hsecond a q failure r h
  · next failure' q hfirst' =>
      obtain ⟨heq, -⟩ := Prod.mk.inj h
      obtain rfl := Except.error.inj heq
      exact hfirst failure' q hfirst'

theorem get_bind {next : Program → Edit β} (h : NeverRefused (next p) p) :
    NeverRefused (get >>= next) p := by
  intro failure q hnext
  rw [apply_bind] at hnext
  exact h failure q hnext

theorem func (q : Program) (f : FuncRef) : NeverRefused (liftM (q.func f) : Edit Func) p := by
  intro failure r h
  rw [apply_liftM] at h
  obtain ⟨heq, -⟩ := Prod.mk.inj h
  unfold Program.func at heq
  split at heq
  · cases heq
  · exact ⟨_, (Except.error.inj heq).symm⟩

theorem block (q : Program) (b : BlockRef) : NeverRefused (liftM (q.block b) : Edit Block) p := by
  intro failure r h
  rw [apply_liftM] at h
  obtain ⟨heq, -⟩ := Prod.mk.inj h
  unfold Program.block at heq
  split at heq
  · cases heq
  · exact ⟨_, (Except.error.inj heq).symm⟩

theorem nextIndex (size : Nat) : NeverRefused (Edit.nextIndex size) p := by
  unfold Edit.nextIndex
  split
  · exact of_pure size
  · exact of_breakDown _

theorem addFunc (func : Func) : NeverRefused (Edit.addFunc func) p :=
  get_bind (bind (nextIndex _) fun _ _ => bind (of_modify _) fun _ _ => of_pure _)

theorem addStruct (name : String) (fields : List Ty) :
    NeverRefused (Edit.addStruct name fields) p :=
  get_bind (bind (nextIndex _) fun _ _ => bind (of_modify _) fun _ _ => of_pure _)

theorem addInstr (instr : Instr) : NeverRefused (Edit.addInstr instr) p :=
  get_bind (bind (nextIndex _) fun _ _ => bind (of_modify _) fun _ _ => of_pure _)

theorem insertBlock (f : FuncRef) (position : Nat) (name : String) :
    NeverRefused (Edit.insertBlock f position name) p := by
  refine get_bind (bind (nextIndex _) fun index _ => bind (of_modify _) fun _ _ => ?_)
  refine get_bind (bind (func _ f) fun func _ => ?_)
  split
  · exact bind (of_modify _) fun _ _ => of_pure _
  · exact of_breakDown _

theorem insertInstr (b : BlockRef) (position : Nat) (op : Op) (ty : Ty) (name : Option String) :
    NeverRefused (Edit.insertInstr b position op ty name) p := by
  refine bind (addInstr _) fun i _ => get_bind (bind (block _ b) fun block _ => ?_)
  split
  · exact bind (of_modify _) fun _ _ => of_pure _
  · exact of_breakDown _

end NeverRefused

/-- In the program `p` the edit makes permitted changes only, unless it is broken off, and where
it succeeds its result and the program satisfy `post`. -/
def Performs (permits : Program → Change → Prop) (edit : Edit α) (post : α → Program → Prop)
    (p : Program) : Prop :=
  ∀ outcome q, edit.apply p = (outcome, q) → IsAnswer outcome →
    p.Evolves permits q ∧ ∀ a, outcome = .ok a → post a q

namespace Performs

variable {permits : Program → Change → Prop} {edit : Edit α} {post post' : α → Program → Prop}

theorem of_pure {a : α} (h : post a p) : Performs permits (pure a) post p := by
  intro outcome q heq _
  obtain ⟨rfl, rfl⟩ := Prod.mk.inj heq
  exact ⟨.refl p, fun b hb => Except.ok.inj hb ▸ h⟩

theorem of_throw (failure : Failure) : Performs permits (throw failure) post p := by
  intro outcome q heq _
  obtain ⟨rfl, rfl⟩ := Prod.mk.inj heq
  exact ⟨.refl p, fun b hb => nomatch hb⟩

theorem of_neverRefused (h : NeverRefused edit p)
    (hok : ∀ a q, edit.apply p = (.ok a, q) → p.Evolves permits q ∧ post a q) :
    Performs permits edit post p := by
  intro outcome q heq hanswer
  cases outcome with
  | error failure =>
      obtain ⟨fault, rfl⟩ := h failure q heq
      exact absurd rfl (hanswer fault)
  | ok a =>
      obtain ⟨hevolves, hpost⟩ := hok a q heq
      exact ⟨hevolves, fun b hb => Except.ok.inj hb ▸ hpost⟩

theorem imp (h : Performs permits edit post p)
    (hpost : ∀ a q, p.Evolves permits q → post a q → post' a q) :
    Performs permits edit post' p := by
  intro outcome q heq hanswer
  obtain ⟨hevolves, hok⟩ := h outcome q heq hanswer
  exact ⟨hevolves, fun a ha => hpost a q hevolves (hok a ha)⟩

theorem bind {first : Edit α} {second : α → Edit β} {middle : α → Program → Prop}
    {post : β → Program → Prop} (hfirst : Performs permits first middle p)
    (hsecond : ∀ a q, p.Evolves permits q → middle a q → Performs permits (second a) post q) :
    Performs permits (first >>= second) post p := by
  intro outcome r heq hanswer
  rw [apply_bind] at heq
  split at heq
  · next a q ha =>
      obtain ⟨hevolves, hmiddle⟩ := hfirst (.ok a) q ha fun fault hfault => nomatch hfault
      obtain ⟨hevolves', hpost⟩ :=
        hsecond a q hevolves (hmiddle a rfl) outcome r heq hanswer
      exact ⟨hevolves.trans hevolves', hpost⟩
  · next failure q hfailure =>
      obtain ⟨rfl, rfl⟩ := Prod.mk.inj heq
      have hanswer' : IsAnswer (.error failure : Except Failure α) :=
        fun fault hfault => hanswer fault (by rw [Except.error.inj hfault])
      exact ⟨(hfirst _ _ hfailure hanswer').1, fun b hb => nomatch hb⟩

theorem get_bind {next : Program → Edit α} (h : Performs permits (next p) post p) :
    Performs permits (get >>= next) post p := by
  intro outcome q heq hanswer
  rw [apply_bind] at heq
  exact h outcome q heq hanswer

/-- A question about the program comes with its answer. -/
theorem answer_bind {answer : Except Failure α} {next : α → Edit β}
    {post : β → Program → Prop}
    (h : ∀ a, answer = .ok a → Performs permits (next a) post p) :
    Performs permits ((liftM answer : Edit α) >>= next) post p := by
  intro outcome q heq hanswer
  rw [apply_bind, apply_liftM] at heq
  cases answer with
  | error failure =>
      obtain ⟨rfl, rfl⟩ := Prod.mk.inj heq
      exact ⟨.refl p, fun b hb => nomatch hb⟩
  | ok a => exact h a rfl outcome q heq hanswer

/-- Several edits in a row, whose results stay as good as they were. -/
theorem mapM {edit : α → Edit β} {good : β → Program → Prop}
    (hgood : ∀ y q r, good y q → q.Evolves permits r → good y r) {xs : List α}
    (h : ∀ x ∈ xs, ∀ q, p.Evolves permits q → Performs permits (edit x) good q) :
    Performs permits (xs.mapM edit) (fun ys q => ∀ y ∈ ys, good y q) p := by
  induction xs generalizing p with
  | nil =>
      rw [List.mapM_nil]
      exact of_pure (by simp)
  | cons x xs ih =>
      rw [List.mapM_cons]
      obtain ⟨hx, hxs⟩ := List.forall_mem_cons.1 h
      refine bind (hx p (.refl p)) fun y q hq hy => ?_
      refine bind (ih fun x hx r hr => hxs x hx r (hq.trans hr)) fun ys r hr hys => ?_
      exact of_pure (List.forall_mem_cons.2 ⟨hgood y q r hy hr, hys⟩)

theorem forM {edit : α → Edit Unit} {xs : List α}
    (h : ∀ x ∈ xs, ∀ q, p.Evolves permits q → Performs permits (edit x) (fun _ _ => True) q) :
    Performs permits (xs.forM edit) (fun _ _ => True) p := by
  induction xs generalizing p with
  | nil => exact of_pure trivial
  | cons x xs ih =>
      obtain ⟨hx, hxs⟩ := List.forall_mem_cons.1 h
      exact bind (hx p (.refl p)) fun _ q hq _ => ih fun x hx r hr => hxs x hx r (hq.trans hr)

theorem addFunc {func : Func} (hblocks : func.blocks = []) (h : permits p (.addFunc func)) :
    Performs permits (Edit.addFunc func)
      (fun f q => f = ⟨p.funcs.size⟩ ∧ q.func? f = some func) p := by
  refine of_neverRefused (.addFunc func) fun f q hf => ?_
  obtain ⟨rfl, rfl⟩ := addFunc_eq_ok hf
  exact ⟨.single h (.addFunc hblocks), rfl, Array.getElem?_push_size⟩

/-- A function is declared only if there is none of its name. -/
theorem requireFunc {name : String} {params : List Ty} {ret : Ty}
    (h : p.funcNamed? name = none →
      permits p (.addFunc { name, params, ret, blocks := [], external := true })) :
    Performs permits (Edit.requireFunc name params ret) (fun _ _ => True) p := by
  refine get_bind ?_
  split
  · exact of_pure trivial
  · next hname => exact (addFunc rfl (h hname)).imp fun _ _ _ _ => trivial

theorem addStruct {name : String} {fields : List Ty} (h : permits p (.addStruct { name, fields })) :
    Performs permits (Edit.addStruct name fields) (fun _ _ => True) p := by
  refine of_neverRefused (.addStruct name fields) fun s q hs => ?_
  obtain ⟨-, rfl⟩ := addStruct_eq_ok hs
  exact ⟨.single h .addStruct, trivial⟩

theorem insertBlock {f : FuncRef} {position : Nat} {name : String}
    (h : permits p (.addBlock f position name)) :
    Performs permits (Edit.insertBlock f position name)
      (fun b q => b = ⟨p.blocks.size⟩ ∧ (Change.addBlock f position name).Makes p q) p := by
  refine of_neverRefused (.insertBlock f position name) fun b q hb => ?_
  obtain ⟨func, hfunc, hposition, rfl, rfl⟩ := insertBlock_eq_ok hb
  exact ⟨.single h (.addBlock hfunc hposition), rfl, .addBlock hfunc hposition⟩

theorem appendBlock {f : FuncRef} {name : String}
    (h : ∀ position, permits p (.addBlock f position name)) :
    Performs permits (Edit.appendBlock f name) (fun b _ => b = ⟨p.blocks.size⟩) p :=
  get_bind (answer_bind fun _ _ => (insertBlock (h _)).imp fun _ _ _ hb => hb.1)

theorem insertInstr {b : BlockRef} {position : Nat} {op : Op} {ty : Ty} {name : Option String}
    (h : permits p (.addInstr b position op ty name)) :
    Performs permits (Edit.insertInstr b position op ty name)
      (fun i q => i = ⟨p.instrs.size⟩ ∧ q.instr? i = some { block := some b, op, ty, name }) p := by
  refine of_neverRefused (.insertInstr b position op ty name) fun i q hi => ?_
  obtain ⟨block, hblock, hposition, rfl, rfl⟩ := insertInstr_eq_ok hi
  exact ⟨.single h (.addInstr hblock hposition), rfl, Array.getElem?_push_size⟩

theorem appendInstr {b : BlockRef} {op : Op} {ty : Ty} {name : Option String}
    (h : ∀ position, permits p (.addInstr b position op ty name)) :
    Performs permits (Edit.appendInstr b op ty name)
      (fun i q => i = ⟨p.instrs.size⟩ ∧ q.instr? i = some { block := some b, op, ty, name }) p :=
  get_bind (answer_bind fun _ _ => insertInstr (h _))

theorem insertBeforeEnd {b : BlockRef} {op : Op} {ty : Ty} {name : Option String}
    (h : ∀ position, permits p (.addInstr b position op ty name)) :
    Performs permits (Edit.insertBeforeEnd b op ty name)
      (fun i q => i = ⟨p.instrs.size⟩ ∧ q.instr? i = some { block := some b, op, ty, name }) p := by
  refine get_bind (answer_bind fun block _ => answer_bind fun last? _ => ?_)
  split <;> exact insertInstr (h _)

theorem setInstr {i : InstrRef} {instr : Instr} {op : Op} (hinstr : p.instr? i = some instr)
    (h : permits p (.setOp i op)) :
    Performs permits (Edit.setInstr i { instr with op }) (fun _ _ => True) p := by
  refine of_neverRefused (.of_modify _) fun _ q hset => ?_
  obtain rfl := modify_eq_ok_iff.1 hset
  exact ⟨.single h (.setOp hinstr), trivial⟩

end Performs

end Edit

end Decouple
