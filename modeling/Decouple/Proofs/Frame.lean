import Decouple.Proofs.Changes
import Decouple.Proofs.Replacement

/-!
# What splitting a loop leaves alone

`Loop.Frame` says how far a program may differ from the one that a loop of the function `f` is
split in. Other functions, the blocks and the structure types that were there are as before. The
function has one more block, right before the exit, and an instruction that was there differs only
if a block of the function outside the loop lists it, and then in its slots (`Loop.Retouches`):
branches to the header go to the new block, φs of the exit come from it, and in the place of values
of the loop new loads in it are read.

Splitting puts the new block into the function and then makes changes of the kinds that
`Loop.PermitsAfter` lists (`Loop.Permits`). Each of these keeps the frame (`Loop.Frame.step`), so
any number of them does (`Loop.frame_of_evolves`), also if the split stops halfway and leaves a
function behind whose loop is only half replaced.
-/

namespace Decouple

namespace Op

theorem mapIncoming_id (op : Op) : op.mapIncoming id = op := by
  cases op with
  | phi incoming => simp [mapIncoming]
  | _ => rfl

theorem mapIncoming_mapOperands (f : Value → Value) (g : BlockRef → BlockRef) (op : Op) :
    (op.mapOperands f).mapIncoming g = (op.mapIncoming g).mapOperands f := by
  cases op with
  | phi incoming => simp [mapIncoming, mapOperands, Function.comp_def]
  | _ => rfl

theorem mapSuccessors_mapIncoming (f g : BlockRef → BlockRef) (op : Op) :
    (op.mapIncoming g).mapSuccessors f = (op.mapSuccessors f).mapIncoming g := by
  cases op <;> rfl

end Op

structure Revision where
  successor : BlockRef → BlockRef := id
  pred : BlockRef → BlockRef := id
  operand : Value → Value := id

namespace Revision

def apply (r : Revision) (op : Op) : Op :=
  ((op.mapSuccessors r.successor).mapIncoming r.pred).mapOperands r.operand

def andThen (r r' : Revision) : Revision where
  successor := r'.successor ∘ r.successor
  pred := r'.pred ∘ r.pred
  operand := r'.operand ∘ r.operand

theorem successor_andThen (r r' : Revision) (b : BlockRef) :
    (r.andThen r').successor b = r'.successor (r.successor b) := rfl

theorem pred_andThen (r r' : Revision) (b : BlockRef) :
    (r.andThen r').pred b = r'.pred (r.pred b) := rfl

theorem operand_andThen (r r' : Revision) (v : Value) :
    (r.andThen r').operand v = r'.operand (r.operand v) := rfl

theorem apply_apply (r r' : Revision) (op : Op) :
    r'.apply (r.apply op) = (r.andThen r').apply op := by
  simp only [apply, andThen, Op.mapSuccessors_mapOperands, Op.mapSuccessors_mapIncoming,
    Op.mapIncoming_mapOperands, Op.mapSuccessors_mapSuccessors, Op.mapIncoming_mapIncoming,
    Op.mapOperands_mapOperands]

theorem apply_successor (f : BlockRef → BlockRef) (op : Op) :
    apply { successor := f } op = op.mapSuccessors f := by
  rw [apply, Op.mapOperands_id, Op.mapIncoming_id]

theorem apply_pred (f : BlockRef → BlockRef) (op : Op) :
    apply { pred := f } op = op.mapIncoming f := by
  rw [apply, Op.mapOperands_id, Op.mapSuccessors_id]

theorem apply_operand (f : Value → Value) (op : Op) :
    apply { operand := f } op = op.mapOperands f := by
  rw [apply, Op.mapIncoming_id, Op.mapSuccessors_id]

end Revision

namespace Loop

variable {loop : Loop} {o p q : Program} {f : FuncRef} {outs : List InstrRef} {i : InstrRef}
  {r r' : Revision} {change : Change}

def Outside (loop : Loop) (o : Program) (f : FuncRef) (b : BlockRef) : Prop :=
  ∃ func, o.func? f = some func ∧ b ∈ func.blocks ∧ b ∉ loop

/-- The instruction was added to `o` in the block that comes next in `o`, and loads a value. -/
def IsNewLoad (o p : Program) (load : InstrRef) : Prop :=
  o.instrs.size ≤ load.index ∧ ∃ instr ptr, p.instr? load = some instr ∧
    instr.block = some ⟨o.blocks.size⟩ ∧ instr.op = .load ptr

/-- How an instruction outside the loop may be revised when the next block comes into the place of
the loop and new loads into the place of the values `outs`. -/
structure Retouches (loop : Loop) (o : Program) (f : FuncRef) (outs : List InstrRef) (p : Program)
    (i : InstrRef) (r : Revision) : Prop where
  outside : ∃ b, loop.Outside o f b ∧ o.Lists b i
  successor : ∀ b, r.successor b = b ∨ b = loop.header ∧ r.successor b = ⟨o.blocks.size⟩
  pred : ∀ b, r.pred b = b ∨ o.Lists loop.exit i ∧ b ∈ loop ∧ r.pred b = ⟨o.blocks.size⟩
  operand : ∀ v, r.operand v = v ∨
    ∃ out ∈ outs, ∃ load, v = .instr out ∧ r.operand v = .instr load ∧ IsNewLoad o p load

theorem Retouches.imp (h : loop.Retouches o f outs p i r)
    (hload : ∀ load, IsNewLoad o p load → IsNewLoad o q load) : loop.Retouches o f outs q i r where
  outside := h.outside
  successor := h.successor
  pred := h.pred
  operand := by
    intro v
    obtain hkept | ⟨out, hout, load, hv, heq, hnew⟩ := h.operand v
    · exact .inl hkept
    · exact .inr ⟨out, hout, load, hv, heq, hload load hnew⟩

theorem Retouches.of_successor (houtside : ∃ b, loop.Outside o f b ∧ o.Lists b i) :
    loop.Retouches o f outs p i
      { successor := fun b => if b = loop.header then ⟨o.blocks.size⟩ else b } where
  outside := houtside
  successor := by
    intro b
    by_cases hb : b = loop.header
    · exact .inr ⟨hb, if_pos hb⟩
    · exact .inl (if_neg hb)
  pred := fun _ => .inl rfl
  operand := fun _ => .inl rfl

theorem Retouches.of_pred (hexit : loop.Outside o f loop.exit) (hi : o.Lists loop.exit i) :
    loop.Retouches o f outs p i
      { pred := fun b => if b ∈ loop then ⟨o.blocks.size⟩ else b } where
  outside := ⟨loop.exit, hexit, hi⟩
  successor := fun _ => .inl rfl
  pred := by
    intro b
    by_cases hb : b ∈ loop
    · exact .inr ⟨hi, hb, if_pos hb⟩
    · exact .inl (if_neg hb)
  operand := fun _ => .inl rfl

/-- What one revision has put in, the next one leaves or puts in once more. -/
theorem Retouches.andThen (h : loop.Retouches o f outs p i r)
    (h' : loop.Retouches o f outs p i r') : loop.Retouches o f outs p i (r.andThen r') where
  outside := h.outside
  successor := by
    intro b
    rcases h.successor b with hkept | ⟨rfl, hnew⟩
    · rcases h'.successor b with hkept' | hnew'
      · exact .inl (by rw [Revision.successor_andThen, hkept, hkept'])
      · exact .inr ⟨hnew'.1, by rw [Revision.successor_andThen, hkept, hnew'.2]⟩
    · refine .inr ⟨rfl, ?_⟩
      rw [Revision.successor_andThen, hnew]
      rcases h'.successor ⟨o.blocks.size⟩ with hkept' | hnew'
      · exact hkept'
      · exact hnew'.2
  pred := by
    intro b
    rcases h.pred b with hkept | ⟨hexit, hb, hnew⟩
    · rcases h'.pred b with hkept' | ⟨hexit, hb, hnew'⟩
      · exact .inl (by rw [Revision.pred_andThen, hkept, hkept'])
      · exact .inr ⟨hexit, hb, by rw [Revision.pred_andThen, hkept, hnew']⟩
    · refine .inr ⟨hexit, hb, ?_⟩
      rw [Revision.pred_andThen, hnew]
      rcases h'.pred ⟨o.blocks.size⟩ with hkept' | hnew'
      · exact hkept'
      · exact hnew'.2.2
  operand := by
    intro v
    rcases h.operand v with hkept | ⟨out, hout, load, rfl, heq, hnew⟩
    · rcases h'.operand v with hkept' | ⟨out, hout, load, hv, heq, hnew⟩
      · exact .inl (by rw [Revision.operand_andThen, hkept, hkept'])
      · refine .inr ⟨out, hout, load, hv, ?_, hnew⟩
        rw [Revision.operand_andThen, hkept, heq]
    · rcases h'.operand (.instr load) with hkept' | ⟨_, -, load', -, heq', hnew'⟩
      · refine .inr ⟨out, hout, load, rfl, ?_, hnew⟩
        rw [Revision.operand_andThen, heq, hkept']
      · refine .inr ⟨out, hout, load', rfl, ?_, hnew'⟩
        rw [Revision.operand_andThen, heq, heq']

/-- How far `p` may differ from the program `o` in which the loop of the function `f` is split. -/
structure Frame (loop : Loop) (o : Program) (f : FuncRef) (outs : List InstrRef) (p : Program) :
    Prop where
  funcs : ∀ g func, g ≠ f → o.func? g = some func → p.func? g = some func
  layout : ∃ func before after, o.func? f = some func ∧
    func.blocks = before ++ loop.exit :: after ∧ loop.exit ∉ before ∧
    p.func? f = some { func with blocks := before ++ ⟨o.blocks.size⟩ :: loop.exit :: after }
  blocks : ∀ b block, o.block? b = some block → p.block? b = some block
  replacement : ∃ block, p.block? ⟨o.blocks.size⟩ = some block ∧ block.func = f
  structs : ∀ s structTy, o.structTy? s = some structTy → p.structTy? s = some structTy
  instrs : ∀ i instr, o.instr? i = some instr →
    p.instr? i = some instr ∨ ∃ r, loop.Retouches o f outs p i r ∧
      p.instr? i = some { instr with op := r.apply instr.op }

/-- A change that splitting the loop makes once the new block is there: new functions have new
names and get bodies, new blocks get instructions, and instructions are revised. -/
inductive PermitsAfter (loop : Loop) (o : Program) (f : FuncRef) (outs : List InstrRef)
    (p : Program) : Change → Prop where
  | addFunc {func : Func} (hname : ∀ g ∈ p.funcs, g.name ≠ func.name) :
      PermitsAfter loop o f outs p (.addFunc func)
  | addStruct {structTy : StructTy} : PermitsAfter loop o f outs p (.addStruct structTy)
  | addBlock {g : FuncRef} {position : Nat} {name : String} (hnew : o.funcs.size ≤ g.index) :
      PermitsAfter loop o f outs p (.addBlock g position name)
  | addInstr {b : BlockRef} {position : Nat} {op : Op} {ty : Ty} {name : Option String}
      (hnew : o.blocks.size ≤ b.index) :
      PermitsAfter loop o f outs p (.addInstr b position op ty name)
  | setOp {i : InstrRef} {instr : Instr} {r : Revision} (hinstr : p.instr? i = some instr)
      (hold : i.index < o.instrs.size → loop.Retouches o f outs p i r) :
      PermitsAfter loop o f outs p (.setOp i (r.apply instr.op))

theorem PermitsAfter.ne_addBlock (h : loop.PermitsAfter o f outs p change) {g : FuncRef}
    {func : Func}
    (hg : o.func? g = some func) (position : Nat) (name : String) :
    change ≠ .addBlock g position name := by
  rintro rfl
  cases h with
  | addBlock hnew =>
      obtain ⟨hlt, -⟩ := Array.getElem?_eq_some_iff.1 hg
      exact Nat.not_lt.2 hnew hlt

theorem PermitsAfter.ne_addInstr (h : loop.PermitsAfter o f outs p change) {b : BlockRef}
    {block : Block}
    (hb : o.block? b = some block) (position : Nat) (op : Op) (ty : Ty) (name : Option String) :
    change ≠ .addInstr b position op ty name := by
  rintro rfl
  cases h with
  | addInstr hnew =>
      obtain ⟨hlt, -⟩ := Array.getElem?_eq_some_iff.1 hb
      exact Nat.not_lt.2 hnew hlt

/-- The operation of an instruction is revised if it is changed at all. -/
theorem PermitsAfter.instr? (h : loop.PermitsAfter o f outs p change) (hmakes : change.Makes p q)
    {instr : Instr} (hi : p.instr? i = some instr) :
    q.instr? i = some instr ∨ ∃ r : Revision,
      q.instr? i = some { instr with op := r.apply instr.op } ∧
      (i.index < o.instrs.size → loop.Retouches o f outs p i r) := by
  by_cases hset : ∃ op, change = .setOp i op
  · obtain ⟨op, rfl⟩ := hset
    have hq := hmakes.instr?_setOp hi
    cases h with
    | setOp hinstr hold =>
        obtain rfl := Option.some.inj (hinstr.symm.trans hi)
        exact .inr ⟨_, hq, hold⟩
  · exact .inl (hmakes.instr?_kept hi fun op heq => hset ⟨op, heq⟩)

theorem IsNewLoad.step {load : InstrRef} (h : IsNewLoad o p load)
    (hpermits : loop.PermitsAfter o f outs p change) (hmakes : change.Makes p q) :
    IsNewLoad o q load := by
  obtain ⟨hnew, instr, ptr, hinstr, hblock, hop⟩ := h
  refine ⟨hnew, ?_⟩
  obtain hkept | ⟨r, hrevised, -⟩ := hpermits.instr? hmakes hinstr
  · exact ⟨instr, ptr, hkept, hblock, hop⟩
  · exact ⟨_, r.operand ptr, hrevised, hblock, by rw [hop]; rfl⟩

namespace Frame

theorem size_instrs_le (h : loop.Frame o f outs p) : o.instrs.size ≤ p.instrs.size := by
  by_contra hlt
  have hlast := Array.getElem?_eq_getElem (Nat.lt_of_not_le hlt)
  have hnone : p.instr? ⟨p.instrs.size⟩ = none := Array.getElem?_eq_none (Nat.le_refl _)
  obtain hkept | ⟨r, -, hrevised⟩ := h.instrs ⟨p.instrs.size⟩ _ hlast
  · exact absurd (hnone.symm.trans hkept) nofun
  · exact absurd (hnone.symm.trans hrevised) nofun

theorem size_blocks_le (h : loop.Frame o f outs p) : o.blocks.size ≤ p.blocks.size := by
  by_contra hlt
  have hlast := Array.getElem?_eq_getElem (Nat.lt_of_not_le hlt)
  have hnone : p.block? ⟨p.blocks.size⟩ = none := Array.getElem?_eq_none (Nat.le_refl _)
  exact absurd (hnone.symm.trans (h.blocks ⟨p.blocks.size⟩ _ hlast)) nofun

theorem size_funcs_le (h : loop.Frame o f outs p) : o.funcs.size ≤ p.funcs.size := by
  by_contra hlt
  have hlast := Array.getElem?_eq_getElem (Nat.lt_of_not_le hlt)
  have hnone : p.func? ⟨p.funcs.size⟩ = none := Array.getElem?_eq_none (Nat.le_refl _)
  by_cases hf : (⟨p.funcs.size⟩ : FuncRef) = f
  · obtain ⟨func, before, after, -, -, -, hfunc⟩ := h.layout
    rw [hf, hfunc] at hnone
    cases hnone
  · exact absurd (hnone.symm.trans (h.funcs _ _ hf hlast)) nofun

/-- Blocks that were there list what they listed. -/
theorem lists_iff (h : loop.Frame o f outs p) {b : BlockRef} (hb : (o.block? b).isSome) :
    p.Lists b i ↔ o.Lists b i := by
  obtain ⟨block, hblock⟩ := Option.isSome_iff_exists.1 hb
  simp only [Program.Lists, hblock, h.blocks b block hblock]

/-- A permitted change keeps the frame. -/
theorem step (h : loop.Frame o f outs p) (hpermits : loop.PermitsAfter o f outs p change)
    (hmakes : change.Makes p q) : loop.Frame o f outs q where
  funcs := fun g func hne hg => hmakes.func?_kept (h.funcs g func hne hg) (hpermits.ne_addBlock hg)
  layout := by
    obtain ⟨func, before, after, hfunc, heq, hbefore, hnow⟩ := h.layout
    exact ⟨func, before, after, hfunc, heq, hbefore,
      hmakes.func?_kept hnow (hpermits.ne_addBlock hfunc)⟩
  blocks := fun b block hb => hmakes.block?_kept (h.blocks b block hb) (hpermits.ne_addInstr hb)
  replacement := by
    obtain ⟨block, hblock, hfunc⟩ := h.replacement
    obtain ⟨instrs, hinstrs⟩ := hmakes.block? hblock
    exact ⟨_, hinstrs, hfunc⟩
  structs := fun s structTy hs => hmakes.structTy?_kept (h.structs s structTy hs)
  instrs := by
    intro i instr hi
    obtain ⟨hlt, -⟩ := Array.getElem?_eq_some_iff.1 hi
    have hload := fun load (hload : IsNewLoad o p load) => hload.step hpermits hmakes
    rcases h.instrs i instr hi with hsame | ⟨r, hr, hsame⟩
    · rcases hpermits.instr? hmakes hsame with hkept | ⟨r', hrevised, hold⟩
      · exact .inl hkept
      · exact .inr ⟨r', (hold hlt).imp hload, hrevised⟩
    · rcases hpermits.instr? hmakes hsame with hkept | ⟨r', hrevised, hold⟩
      · exact .inr ⟨r, hr.imp hload, hkept⟩
      · refine .inr ⟨r.andThen r', (hr.andThen (hold hlt)).imp hload, ?_⟩
        rw [hrevised, Revision.apply_apply]

theorem evolve (h : loop.Frame o f outs p) (hevolves : p.Evolves (loop.PermitsAfter o f outs) q) :
    loop.Frame o f outs q :=
  hevolves.keeps (motive := loop.Frame o f outs) (fun _ _ _ h => h.step) h

/-- The new block is all that the frame is about at first. -/
theorem of_addBlock {func : Func} {position : Nat} {name : String} (hfunc : o.func? f = some func)
    (hposition : func.blocks.idxOf? loop.exit = some position)
    (hmakes : (Change.addBlock f position name).Makes o q) : loop.Frame o f outs q where
  funcs := by
    intro g func' hne hg
    refine hmakes.func?_kept hg fun _ _ heq => hne ?_
    injection heq with heq
    exact heq.symm
  layout := by
    obtain ⟨before, after, heq, hbefore, hinsert⟩ :=
      Dispatch.insertIdx_idxOf? (r := (⟨o.blocks.size⟩ : BlockRef)) hposition
    refine ⟨func, before, after, hfunc, heq, hbefore, ?_⟩
    cases hmakes with
    | addBlock hfunc' =>
        obtain rfl := Option.some.inj (hfunc'.symm.trans hfunc)
        obtain ⟨hlt, -⟩ := Array.getElem?_eq_some_iff.1 hfunc
        rw [← hinsert]
        exact Array.getElem?_setIfInBounds_self_of_lt hlt
  blocks := fun b block hb => hmakes.block?_kept hb fun _ _ _ _ heq => by cases heq
  replacement := by
    cases hmakes with
    | addBlock => exact ⟨_, Array.getElem?_push_size, rfl⟩
  structs := fun s structTy hs => hmakes.structTy?_kept hs
  instrs := fun i instr hi => .inl (hmakes.instr?_kept hi fun _ heq => by cases heq)

end Frame

theorem IsNewLoad.evolve {load : InstrRef} (h : IsNewLoad o p load)
    (hevolves : p.Evolves (loop.PermitsAfter o f outs) q) : IsNewLoad o q load :=
  hevolves.keeps (motive := (IsNewLoad o · load)) (fun _ _ _ h => h.step) h

/-- A change that splitting the loop makes: first the new block is put right before the exit. -/
inductive Permits (loop : Loop) (o : Program) (f : FuncRef) (outs : List InstrRef) :
    Program → Change → Prop where
  | first {func : Func} {position : Nat} {name : String} (hfunc : o.func? f = some func)
      (hposition : func.blocks.idxOf? loop.exit = some position) :
      Permits loop o f outs o (.addBlock f position name)
  | after {p : Program} {change : Change} (hframe : loop.Frame o f outs p)
      (hafter : loop.PermitsAfter o f outs p change) : Permits loop o f outs p change

/-- What is done in the frame is part of splitting the loop. -/
theorem Frame.evolves (h : loop.Frame o f outs p)
    (hevolves : p.Evolves (loop.PermitsAfter o f outs) q) :
    p.Evolves (loop.Permits o f outs) q := by
  induction hevolves with
  | refl => exact .refl p
  | tail hfirst hlast ih =>
      obtain ⟨change, hpermits, hmakes⟩ := hlast
      exact ih.trans (.single (.after (h.evolve hfirst) hpermits) hmakes)

theorem Frame.performs {α : Type} {edit : Edit α} {post : α → Program → Prop}
    (h : loop.Frame o f outs p) (hedit : edit.Performs (loop.PermitsAfter o f outs) post p) :
    edit.Performs (loop.Permits o f outs) post p := by
  intro outcome q happly hanswer
  obtain ⟨hevolves, hpost⟩ := hedit outcome q happly hanswer
  exact ⟨h.evolves hevolves, hpost⟩

/-- However far splitting the loop got, the program is as before or in the frame. -/
theorem frame_of_evolves (h : o.Evolves (loop.Permits o f outs) q) :
    q = o ∨ loop.Frame o f outs q := by
  refine h.keeps (motive := fun q => q = o ∨ loop.Frame o f outs q) ?_ (.inl rfl)
  intro p change q _ hpermits hmakes
  cases hpermits with
  | first hfunc hposition => exact .inr (.of_addBlock hfunc hposition hmakes)
  | after hframe hafter => exact .inr (hframe.step hafter hmakes)

end Loop

end Decouple
