import Decouple.Proofs.SplitChanges
import Mathlib.Data.List.InsertIdx

/-!
# Everything in its place

A program says twice where things are: a block names its function and the function lists it in its
layout, an instruction names its block and the block lists it. `Program.Tidy` says that the two
agree: what names a place is listed there once and nowhere else, and what is listed is there.

Both levels are instances of one statement about homes and listings (`Tally`), which survives a
new entry that is listed where it is at home. That is all that a change of a program can do to it,
so it is kept by every change (`Placed.makes`) and along every split, also along one that is
refused halfway. A user of the library takes actions of all kinds in any order (`Action`), and
whatever they are, the program stays tidy (`Action.tidy_after_run`).
-/

namespace Decouple

open Outcome Edit

/-- The listing at `a` has `x` once if `x` is at home at `a`, and else not at all. -/
def Tally {α β : Type} [DecidableEq α] [DecidableEq β] (home : β → Option α)
    (listing : α → List β) : Prop :=
  ∀ a x, (listing a).count x = if home x = some a then 1 else 0

namespace Tally

variable {α β : Type} [DecidableEq α] [DecidableEq β] {home home' : β → Option α}
  {listing listing' : α → List β} {a : α} {x : β}

theorem home_of_mem (h : Tally home listing) (hx : x ∈ listing a) : home x = some a := by
  by_contra hne
  have hcount := h a x
  rw [if_neg hne] at hcount
  exact List.count_eq_zero.1 hcount hx

theorem count_eq_one (h : Tally home listing) (hx : home x = some a) : (listing a).count x = 1 := by
  rw [h a x, if_pos hx]

theorem congr (h : Tally home listing) (hhome : ∀ x, home' x = home x)
    (hlisting : ∀ a, listing' a = listing a) : Tally home' listing' := by
  intro a x
  rw [hhome, hlisting, h a x]

/-- A new entry is listed where it is at home. -/
theorem insert (h : Tally home listing) {position : Nat} (hx : home x = none)
    (hposition : position ≤ (listing a).length)
    (hhome : ∀ y, home' y = if y = x then some a else home y)
    (hlisting : ∀ c, listing' c = if c = a then (listing a).insertIdx position x else listing c) :
    Tally home' listing' := by
  intro c y
  have hperm : List.Perm ((listing a).insertIdx position x) (x :: listing a) :=
    List.perm_insertIdx x (listing a) hposition
  rw [hhome, hlisting]
  by_cases hc : c = a
  · subst hc
    rw [if_pos rfl, hperm.count_eq, List.count_cons, h c y]
    by_cases hy : y = x
    · simp [hy, hx]
    · simp [hy, Ne.symm hy]
  · rw [if_neg hc, h c y]
    by_cases hy : y = x
    · simp [hy, hx, Ne.symm hc]
    · simp [hy]

end Tally

/-- What is read from a table after an entry is added. -/
theorem elim_getElem?_push {α β : Type} (xs : Array α) (x : α) (default : β) (read : α → β)
    (n : Nat) :
    ((xs.push x)[n]?).elim default read =
      if n = xs.size then read x else (xs[n]?).elim default read := by
  rw [Array.getElem?_push]
  split <;> rfl

/-- What is read from a table after another entry is put in the place of one. -/
theorem elim_getElem?_setIfInBounds {α β : Type} {xs : Array α} {k : Nat} {x : α}
    (hk : xs[k]? = some x) (y : α) (default : β) (read : α → β) (n : Nat) :
    ((xs.setIfInBounds k y)[n]?).elim default read =
      if n = k then read y else (xs[n]?).elim default read := by
  obtain ⟨hlt, -⟩ := Array.getElem?_eq_some_iff.1 hk
  by_cases hn : n = k
  · subst hn
    rw [Array.getElem?_setIfInBounds_self_of_lt hlt, if_pos rfl]
    rfl
  · rw [Array.getElem?_setIfInBounds_ne (Ne.symm hn), if_neg hn]

namespace Program

def ownerOf? (p : Program) (b : BlockRef) : Option FuncRef :=
  (p.block? b).elim none fun block => some block.func

def placeOf? (p : Program) (i : InstrRef) : Option BlockRef :=
  (p.instr? i).elim none Instr.block

def layoutOf (p : Program) (f : FuncRef) : List BlockRef := (p.func? f).elim [] Func.blocks

def listedAt (p : Program) (b : BlockRef) : List InstrRef := (p.block? b).elim [] Block.instrs

/-- Blocks and instructions are listed where they say, once and nowhere else, and nothing is
listed that is not there. -/
structure Tidy (p : Program) : Prop where
  block_once : ∀ b block, p.block? b = some block →
    ∃ func, p.func? block.func = some func ∧ func.blocks.count b = 1
  block_nowhere_else : ∀ b block f func, p.block? b = some block → p.func? f = some func →
    f ≠ block.func → b ∉ func.blocks
  instr_once : ∀ i instr b, p.instr? i = some instr → instr.block = some b →
    ∃ block, p.block? b = some block ∧ block.instrs.count i = 1
  instr_nowhere_else : ∀ i instr b block, p.instr? i = some instr → p.block? b = some block →
    instr.block ≠ some b → i ∉ block.instrs
  layout_there : ∀ f func, p.func? f = some func → ∀ b ∈ func.blocks, (p.block? b).isSome
  listed_there : ∀ b block, p.block? b = some block → ∀ i ∈ block.instrs, (p.instr? i).isSome

structure Placed (p : Program) : Prop where
  blocks : Tally p.ownerOf? p.layoutOf
  instrs : Tally p.placeOf? p.listedAt

theorem Placed.tidy {p : Program} (h : p.Placed) : p.Tidy := by
  have howner {b : BlockRef} {f : FuncRef} {func : Func} (hf : p.func? f = some func)
      (hb : b ∈ func.blocks) : ∃ block, p.block? b = some block ∧ block.func = f := by
    have hhome := h.blocks.home_of_mem (a := f) (x := b) (by simpa [layoutOf, hf] using hb)
    unfold ownerOf? at hhome
    cases hblock : p.block? b with
    | none => simp [hblock] at hhome
    | some block => exact ⟨block, rfl, by simpa [hblock] using hhome⟩
  have hplace {i : InstrRef} {b : BlockRef} {block : Block} (hb : p.block? b = some block)
      (hi : i ∈ block.instrs) : ∃ instr, p.instr? i = some instr ∧ instr.block = some b := by
    have hhome := h.instrs.home_of_mem (a := b) (x := i) (by simpa [listedAt, hb] using hi)
    unfold placeOf? at hhome
    cases hinstr : p.instr? i with
    | none => simp [hinstr] at hhome
    | some instr => exact ⟨instr, rfl, by simpa [hinstr] using hhome⟩
  constructor
  case block_once =>
    intro b block hb
    have hone := h.blocks.count_eq_one (x := b) (a := block.func) (by simp [ownerOf?, hb])
    unfold layoutOf at hone
    cases hf : p.func? block.func with
    | none => simp [hf] at hone
    | some func => exact ⟨func, rfl, by simpa [hf] using hone⟩
  case block_nowhere_else =>
    intro b block f func hb hf hne hmem
    obtain ⟨block', hb', rfl⟩ := howner hf hmem
    exact hne (by rw [Option.some.inj (hb.symm.trans hb')])
  case instr_once =>
    intro i instr b hi hb
    have hone := h.instrs.count_eq_one (x := i) (a := b) (by simp [placeOf?, hi, hb])
    unfold listedAt at hone
    cases hblock : p.block? b with
    | none => simp [hblock] at hone
    | some block => exact ⟨block, rfl, by simpa [hblock] using hone⟩
  case instr_nowhere_else =>
    intro i instr b block hi hb hne hmem
    obtain ⟨instr', hi', hplace⟩ := hplace hb hmem
    exact hne (by rw [Option.some.inj (hi.symm.trans hi'), hplace])
  case layout_there =>
    intro f func hf b hb
    obtain ⟨block, hblock, -⟩ := howner hf hb
    exact Option.isSome_iff_exists.2 ⟨block, hblock⟩
  case listed_there =>
    intro b block hb i hi
    obtain ⟨instr, hinstr, -⟩ := hplace hb hi
    exact Option.isSome_iff_exists.2 ⟨instr, hinstr⟩

namespace Placed

variable {p q : Program}

theorem empty : Program.empty.Placed where
  blocks := fun _ _ => rfl
  instrs := fun _ _ => rfl

theorem addFunc (h : p.Placed) {func : Func} (hblocks : func.blocks = []) :
    Placed { p with funcs := p.funcs.push func } where
  blocks := by
    refine h.blocks.congr (fun _ => rfl) fun f => (elim_getElem?_push ..).trans ?_
    split
    · next hf => simp [layoutOf, func?, hf, hblocks]
    · rfl
  instrs := h.instrs

theorem addBlock (h : p.Placed) {f : FuncRef} {func : Func} {position : Nat} {name : String}
    (hfunc : p.func? f = some func) (hposition : position ≤ func.blocks.length) :
    Placed { p with
      blocks := p.blocks.push { name, func := f, instrs := [] }
      funcs := p.funcs.setIfInBounds f.index
        { func with blocks := func.blocks.insertIdx position ⟨p.blocks.size⟩ } } where
  blocks := by
    have hlayout : p.layoutOf f = func.blocks := by simp [layoutOf, hfunc]
    refine h.blocks.insert (x := ⟨p.blocks.size⟩) (a := f) ?_ (hlayout ▸ hposition) ?_ ?_
    · simp [ownerOf?, block?]
    · intro b
      simp only [BlockRef.ext_iff]
      exact elim_getElem?_push ..
    · intro g
      rw [hlayout]
      simp only [FuncRef.ext_iff]
      exact elim_getElem?_setIfInBounds hfunc ..
  instrs := by
    refine h.instrs.congr (fun _ => rfl) fun b => (elim_getElem?_push ..).trans ?_
    split
    · next hb => simp [listedAt, block?, hb]
    · rfl

theorem addInstr (h : p.Placed) {b : BlockRef} {block : Block} {position : Nat} {op : Op} {ty : Ty}
    {name : Option String} (hblock : p.block? b = some block)
    (hposition : position ≤ block.instrs.length) :
    Placed { p with
      instrs := p.instrs.push { block := some b, op, ty, name }
      blocks := p.blocks.setIfInBounds b.index
        { block with instrs := block.instrs.insertIdx position ⟨p.instrs.size⟩ } } where
  blocks := by
    refine h.blocks.congr (fun c => (elim_getElem?_setIfInBounds hblock ..).trans ?_) fun _ => rfl
    split
    · next hc => simp [ownerOf?, block?, hc, show p.blocks[b.index]? = some block from hblock]
    · rfl
  instrs := by
    have hlisted : p.listedAt b = block.instrs := by simp [listedAt, hblock]
    refine h.instrs.insert (x := ⟨p.instrs.size⟩) (a := b) ?_ (hlisted ▸ hposition) ?_ ?_
    · simp [placeOf?, instr?]
    · intro i
      simp only [InstrRef.ext_iff]
      exact elim_getElem?_push ..
    · intro c
      rw [hlisted]
      simp only [BlockRef.ext_iff]
      exact elim_getElem?_setIfInBounds hblock ..

/-- An instruction that names no block is at home nowhere, and is not listed. -/
theorem addDetached (h : p.Placed) {instr : Instr} (hinstr : instr.block = none) :
    Placed { p with instrs := p.instrs.push instr } where
  blocks := h.blocks
  instrs := by
    refine h.instrs.congr (fun i => (elim_getElem?_push ..).trans ?_) fun _ => rfl
    split
    · next hi => simp [placeOf?, instr?, hi, hinstr]
    · rfl

theorem setOp (h : p.Placed) {i : InstrRef} {instr : Instr} (hinstr : p.instr? i = some instr)
    (op : Op) : Placed { p with instrs := p.instrs.setIfInBounds i.index { instr with op } } where
  blocks := h.blocks
  instrs := by
    refine h.instrs.congr (fun j => (elim_getElem?_setIfInBounds hinstr ..).trans ?_) fun _ => rfl
    split
    · next hj => simp [placeOf?, instr?, hj, show p.instrs[i.index]? = some instr from hinstr]
    · rfl

/-- Every change keeps things in their places. -/
theorem makes {change : Change} (h : p.Placed) (hmakes : change.Makes p q) : q.Placed := by
  cases hmakes with
  | addFunc hblocks => exact h.addFunc hblocks
  | addStruct => exact ⟨h.blocks, h.instrs⟩
  | addBlock hfunc hposition => exact h.addBlock hfunc hposition
  | addInstr hblock hposition => exact h.addInstr hblock hposition
  | setOp hinstr => exact h.setOp hinstr _

theorem evolves {permits : Program → Change → Prop} (h : p.Placed)
    (hevolves : p.Evolves permits q) : q.Placed :=
  hevolves.keeps (fun _ _ _ hp _ hmakes => hp.makes hmakes) h

end Placed

end Program

/-- What a user of the library does to a program: add an entry of some kind, put another operation
in the place of the one that an instruction has, or have a loop split. -/
inductive Action where
  | defineFunc (name : String) (params : List Ty) (ret : Ty)
  | declareFunc (name : String) (params : List Ty) (ret : Ty)
  | requireFunc (name : String) (params : List Ty) (ret : Ty)
  | addStruct (name : String) (fields : List Ty)
  | appendBlock (f : FuncRef) (name : String)
  | insertBlock (f : FuncRef) (position : Nat) (name : String)
  | appendInstr (b : BlockRef) (op : Op) (ty : Ty) (name : Option String)
  | insertInstr (b : BlockRef) (position : Nat) (op : Op) (ty : Ty) (name : Option String)
  | insertBeforeEnd (b : BlockRef) (op : Op) (ty : Ty) (name : Option String)
  | addDetached (op : Op) (ty : Ty) (name : Option String)
  | setOp (i : InstrRef) (op : Op)
  | split (splitter : Splitter) (f : FuncRef) (loop : Loop) (deps : Dependences) (plan : Plan)

namespace Action

def ran {α : Type} (edit : Edit α) (p : Program) : Except Failure Unit × Program :=
  ((edit.apply p).1.map fun _ => (), (edit.apply p).2)

def perform (p : Program) : Action → Except Failure Unit × Program
  | defineFunc name params ret => ran (Edit.defineFunc name params ret) p
  | declareFunc name params ret => ran (Edit.declareFunc name params ret) p
  | requireFunc name params ret => ran (Edit.requireFunc name params ret) p
  | addStruct name fields => ran (Edit.addStruct name fields) p
  | appendBlock f name => ran (Edit.appendBlock f name) p
  | insertBlock f position name => ran (Edit.insertBlock f position name) p
  | appendInstr b op ty name => ran (Edit.appendInstr b op ty name) p
  | insertInstr b position op ty name => ran (Edit.insertInstr b position op ty name) p
  | insertBeforeEnd b op ty name => ran (Edit.insertBeforeEnd b op ty name) p
  | addDetached op ty name => ran (Edit.addInstr { block := none, op, ty, name }) p
  | setOp i op => ran (Edit.changeInstr i fun instr => { instr with op }) p
  | split splitter f loop deps plan =>
      ((splitter.split p f loop deps plan).1.map fun _ => (),
        (splitter.split p f loop deps plan).2.2)

/-- Takes actions one after the other. One that is broken off ends the run, and the program before
it is the last one; one that is refused does not. -/
def run (p : Program) : List Action → Program
  | [] => p
  | action :: rest =>
      match action.perform p with
      | (.error (.fault _), _) => p
      | (_, q) => run q rest

variable {p : Program}

theorem isAnswer_of_map {α β : Type} {read : α → β} {outcome : Except Failure α}
    (h : IsAnswer (outcome.map read)) : IsAnswer outcome := by
  rintro fault rfl
  exact h fault rfl

theorem placed_ran {α : Type} {edit : Edit α} {post : α → Program → Prop} (hp : p.Placed)
    (hperforms : Performs (fun _ _ => True) edit post p) (hanswer : IsAnswer (ran edit p).1) :
    (ran edit p).2.Placed :=
  hp.evolves (hperforms _ _ rfl (isAnswer_of_map hanswer)).1

theorem placed_ran_addDetached (hp : p.Placed) {instr : Instr} (hinstr : instr.block = none)
    (hanswer : IsAnswer (ran (Edit.addInstr instr) p).1) :
    (ran (Edit.addInstr instr) p).2.Placed := by
  unfold ran at hanswer ⊢
  rcases hrun : (Edit.addInstr instr).apply p with ⟨_ | i, q⟩
  case error failure =>
    obtain ⟨fault, rfl⟩ := NeverRefused.addInstr instr failure q hrun
    rw [hrun] at hanswer
    exact absurd rfl (hanswer fault)
  case ok =>
    obtain ⟨-, rfl⟩ := addInstr_eq_ok hrun
    exact hp.addDetached hinstr

theorem placed_split {splitter splitter' : Splitter} {f : FuncRef} {loop : Loop}
    {deps : Dependences} {plan : Plan} {outcome : Except Failure Split} {q : Program}
    (hp : p.Placed)
    (h : splitter.split p f loop deps plan = (outcome, splitter', q)) (hanswer : IsAnswer outcome) :
    q.Placed := by
  rcases Splitter.evolves_of_split hanswer h with rfl | ⟨live, -, hevolves⟩
  · exact hp
  · exact hp.evolves hevolves

/-- An action that is not broken off keeps things in their places. -/
theorem placed_perform (hp : p.Placed) (action : Action) (hanswer : IsAnswer (action.perform p).1) :
    (action.perform p).2.Placed := by
  cases action with
  | defineFunc name params ret => exact placed_ran hp (Performs.addFunc rfl trivial) hanswer
  | declareFunc name params ret => exact placed_ran hp (Performs.addFunc rfl trivial) hanswer
  | requireFunc name params ret =>
      exact placed_ran hp (Performs.requireFunc fun _ => trivial) hanswer
  | addStruct name fields => exact placed_ran hp (Performs.addStruct trivial) hanswer
  | appendBlock f name => exact placed_ran hp (Performs.appendBlock fun _ => trivial) hanswer
  | insertBlock f position name => exact placed_ran hp (Performs.insertBlock trivial) hanswer
  | appendInstr b op ty name =>
      exact placed_ran hp (Performs.appendInstr fun _ => trivial) hanswer
  | insertInstr b position op ty name => exact placed_ran hp (Performs.insertInstr trivial) hanswer
  | insertBeforeEnd b op ty name =>
      exact placed_ran hp (Performs.insertBeforeEnd fun _ => trivial) hanswer
  | addDetached op ty name => exact placed_ran_addDetached hp rfl hanswer
  | setOp i op =>
      have hperforms : Performs (fun _ _ => True)
          (Edit.changeInstr i fun instr => { instr with op }) (fun _ _ => True) p :=
        .get_bind (.answer_bind fun instr hinstr =>
          .setInstr (Program.instr_eq_ok_iff.1 hinstr) trivial)
      exact placed_ran hp hperforms hanswer
  | split splitter f loop deps plan =>
      exact placed_split hp rfl (isAnswer_of_map hanswer)

theorem placed_run (hp : p.Placed) (actions : List Action) : (run p actions).Placed := by
  induction actions generalizing p with
  | nil => exact hp
  | cons action actions ih =>
      unfold run
      split
      · exact hp
      · next outcome q hgoes hrun =>
          have hanswer : IsAnswer (action.perform p).1 := by
            rw [hrun]
            exact fun fault hfault => hgoes fault hfault
          have hq := placed_perform hp action hanswer
          rw [hrun] at hq
          exact ih hq

/-- **Everything stays in its place.** From the empty program on, whatever actions are taken, with
splits of any loops among them that succeed or are refused, and up to the first action that is
broken off: every block is in the layout of the function that it names, once and in no other
layout, every instruction that names a block is listed there, once and in no other block, an
instruction that names no block is listed nowhere, and nothing is listed that is not there. -/
theorem tidy_after_run (actions : List Action) : (run Program.empty actions).Tidy :=
  (placed_run .empty actions).tidy

/-- There is no seventh place in the layout, so the run ends there. -/
example : run Program.empty [.defineFunc "f" [] .void, .appendBlock ⟨0⟩ "b",
    .appendInstr ⟨0⟩ (.ret none) .void none, .addDetached .unreachable .void none,
    .insertBlock ⟨0⟩ 7 "c", .addStruct "s" []] = {
      funcs := #[⟨"f", [], .void, [⟨0⟩], false⟩]
      blocks := #[⟨"b", ⟨0⟩, [⟨0⟩]⟩]
      instrs := #[⟨some ⟨0⟩, .ret none, .void, none⟩, ⟨none, .unreachable, .void, none⟩]
      structs := #[] } := by
  decide

end Action

end Decouple
