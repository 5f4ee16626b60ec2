import Decouple.Proofs.Outcomes
import Decouple.Renaming
import Mathlib.Data.List.Nodup
import Mathlib.Logic.Function.Iterate

/-!
# What edits leave behind

An edit that succeeds is taken apart into its steps, and each step says how the
program after it differs from the program before. Three kinds of difference are
enough for all that is done to a program here:

* `Emits b tail code`: the instructions `code` are added to the table and listed in
  the block `b`, in front of its last instructions `tail`; functions and structure
  types may be added as well;
* `Rewrites change`: instructions are changed where they stand;
* `AddsBlocks f func count`: empty blocks are added to the end of a function.

Each kind composes, so a sequence of steps of one kind is one difference of that
kind. A sequence of all kinds that touches only what is new is a `Grows`: what is
there stays as it is, apart from functions whose body is still to be written.
-/

namespace Decouple

open Outcome

namespace Edit

variable {α β : Type} {p q r : Program}

theorem liftM_eq_ok_iff {answer : Except Failure α} {a : α} :
    (liftM answer : Edit α).apply p = (.ok a, q) ↔ answer = .ok a ∧ p = q := by
  rw [apply_liftM, Prod.mk.injEq]

theorem pure_eq_ok_iff {a b : α} : (pure a : Edit α).apply p = (.ok b, q) ↔ a = b ∧ p = q := by
  rw [apply_pure, Prod.mk.injEq, Except.ok.injEq]

theorem get_bind_eq_ok_iff {next : Program → Edit β} {b : β} :
    (get >>= next).apply p = (.ok b, q) ↔ (next p).apply p = (.ok b, q) := by
  rw [apply_bind_eq_ok_iff]
  constructor
  · rintro ⟨a, q', hget, hnext⟩
    obtain ⟨ha, rfl⟩ := Prod.mk.inj hget
    obtain rfl := Except.ok.inj ha
    exact hnext
  · intro hnext
    exact ⟨p, p, rfl, hnext⟩

theorem modify_eq_ok_iff {change : Program → Program} {u : Unit} :
    (modify change : Edit Unit).apply p = (.ok u, q) ↔ q = change p := by
  rw [apply_modify, Prod.mk.injEq, eq_comm (a := change p)]
  exact ⟨fun h => h.2, fun h => ⟨rfl, h⟩⟩

theorem throw_ne_ok {failure : Failure} {a : α} :
    (throw failure : Edit α).apply p ≠ (.ok a, q) := by
  rw [apply_throw]
  intro h
  cases h

/-- A conditional edit in the middle of a sequence. -/
theorem unless_bind_eq_ok {P : Prop} [Decidable P] {edit : Edit Unit} {next : Unit → Edit β}
    {b : β} (h : (if P then next () else edit >>= next).apply p = (.ok b, r)) :
    ∃ u q, (unless P do edit : Edit Unit).apply p = (.ok u, q) ∧ (next u).apply q = (.ok b, r) := by
  by_cases hP : P
  · simp only [hP, if_true] at h ⊢
    exact ⟨(), p, rfl, h⟩
  · simp only [hP, if_false] at h ⊢
    exact apply_bind_eq_ok_iff.1 h

theorem nextIndex_eq_ok {size k : Nat} (h : (nextIndex size).apply p = (.ok k, q)) :
    k = size ∧ p = q := by
  unfold nextIndex at h
  split at h
  · obtain ⟨rfl, rfl⟩ := pure_eq_ok_iff.1 h
    exact ⟨rfl, rfl⟩
  · exact absurd h throw_ne_ok

theorem addFunc_eq_ok {func : Func} {f : FuncRef} (h : (addFunc func).apply p = (.ok f, q)) :
    f = ⟨p.funcs.size⟩ ∧ q = { p with funcs := p.funcs.push func } := by
  unfold addFunc at h
  rw [get_bind_eq_ok_iff, apply_bind_eq_ok_iff] at h
  obtain ⟨k, p', hindex, h⟩ := h
  obtain ⟨rfl, rfl⟩ := nextIndex_eq_ok hindex
  obtain ⟨_, q', hmodify, h⟩ := apply_bind_eq_ok_iff.1 h
  obtain rfl := modify_eq_ok_iff.1 hmodify
  obtain ⟨rfl, rfl⟩ := pure_eq_ok_iff.1 h
  exact ⟨rfl, rfl⟩

theorem addStruct_eq_ok {name : String} {fields : List Ty} {s : StructRef}
    (h : (addStruct name fields).apply p = (.ok s, q)) :
    s = ⟨p.structs.size⟩ ∧ q = { p with structs := p.structs.push { name, fields } } := by
  unfold addStruct at h
  rw [get_bind_eq_ok_iff, apply_bind_eq_ok_iff] at h
  obtain ⟨k, p', hindex, h⟩ := h
  obtain ⟨rfl, rfl⟩ := nextIndex_eq_ok hindex
  obtain ⟨_, q', hmodify, h⟩ := apply_bind_eq_ok_iff.1 h
  obtain rfl := modify_eq_ok_iff.1 hmodify
  obtain ⟨rfl, rfl⟩ := pure_eq_ok_iff.1 h
  exact ⟨rfl, rfl⟩

theorem addInstr_eq_ok {instr : Instr} {i : InstrRef}
    (h : (addInstr instr).apply p = (.ok i, q)) :
    i = ⟨p.instrs.size⟩ ∧ q = { p with instrs := p.instrs.push instr } := by
  unfold addInstr at h
  rw [get_bind_eq_ok_iff, apply_bind_eq_ok_iff] at h
  obtain ⟨k, p', hindex, h⟩ := h
  obtain ⟨rfl, rfl⟩ := nextIndex_eq_ok hindex
  obtain ⟨_, q', hmodify, h⟩ := apply_bind_eq_ok_iff.1 h
  obtain rfl := modify_eq_ok_iff.1 hmodify
  obtain ⟨rfl, rfl⟩ := pure_eq_ok_iff.1 h
  exact ⟨rfl, rfl⟩

theorem insertBlock_eq_ok {f : FuncRef} {position : Nat} {name : String} {b : BlockRef}
    (h : (insertBlock f position name).apply p = (.ok b, q)) :
    ∃ func, p.func? f = some func ∧ position ≤ func.blocks.length ∧ b = ⟨p.blocks.size⟩ ∧
      q = { p with
        blocks := p.blocks.push { name, func := f, instrs := [] }
        funcs := p.funcs.setIfInBounds f.index
          { func with blocks := func.blocks.insertIdx position ⟨p.blocks.size⟩ } } := by
  unfold insertBlock at h
  rw [get_bind_eq_ok_iff, apply_bind_eq_ok_iff] at h
  obtain ⟨k, p', hindex, h⟩ := h
  obtain ⟨rfl, rfl⟩ := nextIndex_eq_ok hindex
  obtain ⟨_, q', hmodify, h⟩ := apply_bind_eq_ok_iff.1 h
  obtain rfl := modify_eq_ok_iff.1 hmodify
  rw [get_bind_eq_ok_iff, apply_bind_eq_ok_iff] at h
  obtain ⟨func, q', hlookup, h⟩ := h
  obtain ⟨hfound, rfl⟩ := liftM_eq_ok_iff.1 hlookup
  have hfunc : p.func? f = some func := Program.func_eq_ok_iff.1 hfound
  split at h
  · next hposition =>
      obtain ⟨_, q', hset, h⟩ := apply_bind_eq_ok_iff.1 h
      obtain rfl := modify_eq_ok_iff.1 hset
      obtain ⟨rfl, rfl⟩ := pure_eq_ok_iff.1 h
      exact ⟨func, hfunc, hposition, rfl, rfl⟩
  · exact absurd h throw_ne_ok

theorem appendBlock_eq_ok {f : FuncRef} {name : String} {b : BlockRef}
    (h : (appendBlock f name).apply p = (.ok b, q)) :
    ∃ func, p.func? f = some func ∧ b = ⟨p.blocks.size⟩ ∧
      q = { p with
        blocks := p.blocks.push { name, func := f, instrs := [] }
        funcs := p.funcs.setIfInBounds f.index
          { func with blocks := func.blocks ++ [⟨p.blocks.size⟩] } } := by
  unfold appendBlock at h
  rw [get_bind_eq_ok_iff, apply_bind_eq_ok_iff] at h
  obtain ⟨func, q', hlookup, h⟩ := h
  obtain ⟨hfound, rfl⟩ := liftM_eq_ok_iff.1 hlookup
  obtain ⟨func', hfunc', -, rfl, rfl⟩ := insertBlock_eq_ok h
  rw [Program.func_eq_ok_iff, hfunc'] at hfound
  obtain rfl := Option.some.inj hfound
  exact ⟨func', hfunc', rfl, by rw [List.insertIdx_length_self]⟩

theorem insertInstr_eq_ok {b : BlockRef} {position : Nat} {op : Op} {ty : Ty}
    {name : Option String} {i : InstrRef}
    (h : (insertInstr b position op ty name).apply p = (.ok i, q)) :
    ∃ block, p.block? b = some block ∧ position ≤ block.instrs.length ∧ i = ⟨p.instrs.size⟩ ∧
      q = { p with
        instrs := p.instrs.push { block := some b, op, ty, name }
        blocks := p.blocks.setIfInBounds b.index
          { block with instrs := block.instrs.insertIdx position ⟨p.instrs.size⟩ } } := by
  unfold insertInstr at h
  obtain ⟨i', q', hadd, h⟩ := apply_bind_eq_ok_iff.1 h
  obtain ⟨rfl, rfl⟩ := addInstr_eq_ok hadd
  rw [get_bind_eq_ok_iff, apply_bind_eq_ok_iff] at h
  obtain ⟨block, q', hlookup, h⟩ := h
  obtain ⟨hfound, rfl⟩ := liftM_eq_ok_iff.1 hlookup
  have hblock : p.block? b = some block := Program.block_eq_ok_iff.1 hfound
  split at h
  · next hposition =>
      obtain ⟨_, q', hset, h⟩ := apply_bind_eq_ok_iff.1 h
      obtain rfl := modify_eq_ok_iff.1 hset
      obtain ⟨rfl, rfl⟩ := pure_eq_ok_iff.1 h
      exact ⟨block, hblock, hposition, rfl, rfl⟩
  · exact absurd h throw_ne_ok

/-- The function that is required is the first one of its name from then on. -/
theorem funcNamed?_of_requireFunc {name : String} {params : List Ty} {ret : Ty} {f : FuncRef}
    (h : (requireFunc name params ret).apply p = (.ok f, q)) : q.funcNamed? name = some f := by
  unfold requireFunc at h
  rw [get_bind_eq_ok_iff] at h
  split at h
  · next f' hf =>
      obtain ⟨rfl, rfl⟩ := pure_eq_ok_iff.1 h
      exact hf
  · next hnone =>
      obtain ⟨rfl, rfl⟩ := addFunc_eq_ok h
      rw [Program.funcNamed?, Option.map_eq_none_iff] at hnone
      simp [Program.funcNamed?, Array.findIdx?_push, hnone]

/-- Several edits in a row, each of which keeps to a reflexive and transitive relation
between the programs before and after it: each edit is met on the way. -/
theorem mapM_eq_ok {edit : α → Edit β} {kept : Program → Program → Prop}
    (hrefl : ∀ p, kept p p) (htrans : ∀ p q r, kept p q → kept q r → kept p r)
    (hstep : ∀ x before y after, kept p before → (edit x).apply before = (.ok y, after) →
      kept before after) {xs : List α} {ys : List β}
    (h : (xs.mapM edit).apply p = (.ok ys, q)) :
    kept p q ∧ List.Forall₂ (fun x y => ∃ before after, kept p before ∧
      (edit x).apply before = (.ok y, after) ∧ kept after q) xs ys := by
  induction xs generalizing p ys with
  | nil =>
      rw [List.mapM_nil] at h
      obtain ⟨rfl, rfl⟩ := pure_eq_ok_iff.1 h
      exact ⟨hrefl _, .nil⟩
  | cons x xs ih =>
      rw [List.mapM_cons] at h
      obtain ⟨y, between, hx, h⟩ := apply_bind_eq_ok_iff.1 h
      obtain ⟨rest, last, hrest, h⟩ := apply_bind_eq_ok_iff.1 h
      obtain ⟨rfl, rfl⟩ := pure_eq_ok_iff.1 h
      have hfirst := hstep x p y between (hrefl p) hx
      obtain ⟨hkept, hall⟩ := ih
        (fun x before y after hbefore => hstep x before y after (htrans _ _ _ hfirst hbefore)) hrest
      refine ⟨htrans _ _ _ hfirst hkept, .cons ⟨p, between, hrefl p, hx, hkept⟩ (hall.imp ?_)⟩
      rintro x y ⟨before, after, hbefore, happly, hafter⟩
      exact ⟨before, after, htrans _ _ _ hfirst hbefore, happly, hafter⟩

end Edit

/-- Inserting between two parts of a list. -/
theorem insertIdx_length_append {α : Type} (init tail : List α) (a : α) :
    (init ++ tail).insertIdx init.length a = init ++ a :: tail := by
  induction init with
  | nil => rfl
  | cons x init ih => exact congrArg (x :: ·) ih

def newRefs (start count : Nat) : List InstrRef := (List.range' start count).map InstrRef.mk

@[simp] theorem newRefs_zero (start : Nat) : newRefs start 0 = [] := rfl

@[simp] theorem length_newRefs (start count : Nat) : (newRefs start count).length = count := by
  simp [newRefs]

theorem newRefs_succ (start count : Nat) :
    newRefs start (count + 1) = ⟨start⟩ :: newRefs (start + 1) count := rfl

theorem newRefs_add (start count more : Nat) :
    newRefs start (count + more) = newRefs start count ++ newRefs (start + count) more := by
  simp [newRefs, ← List.range'_append_1]

theorem mem_newRefs_iff {start count : Nat} {i : InstrRef} :
    i ∈ newRefs start count ↔ start ≤ i.index ∧ i.index < start + count := by
  simp only [newRefs, List.mem_map, List.mem_range'_1]
  constructor
  · rintro ⟨k, hk, rfl⟩
    exact hk
  · intro hi
    exact ⟨i.index, hi, rfl⟩

/-- What comes before a new instruction are the new instructions with smaller numbers. -/
theorem newRefs_eq_append {start count : Nat} {before after : List InstrRef} {i : InstrRef}
    (h : newRefs start count = before ++ i :: after) :
    i = ⟨start + before.length⟩ ∧ before = newRefs start before.length := by
  have hcount : count = before.length + (after.length + 1) := by
    simpa using congrArg List.length h
  rw [hcount, newRefs_add, newRefs_succ] at h
  obtain ⟨hbefore, hrest⟩ := List.append_inj h (by simp)
  exact ⟨(List.cons.inj hrest).1.symm, hbefore.symm⟩

theorem nodup_newRefs (start count : Nat) : (newRefs start count).Nodup := by
  refine List.Nodup.map ?_ List.nodup_range'
  intro j k hjk
  exact congrArg InstrRef.index hjk

def newBlocks (start count : Nat) : List BlockRef := (List.range' start count).map BlockRef.mk

theorem newBlocks_succ (start count : Nat) :
    newBlocks start (count + 1) = ⟨start⟩ :: newBlocks (start + 1) count := rfl

theorem newBlocks_add (start count more : Nat) :
    newBlocks start (count + more) = newBlocks start count ++ newBlocks (start + count) more := by
  simp [newBlocks, ← List.range'_append_1]

theorem mem_newBlocks_iff {start count : Nat} {b : BlockRef} :
    b ∈ newBlocks start count ↔ start ≤ b.index ∧ b.index < start + count := by
  simp only [newBlocks, List.mem_map, List.mem_range'_1]
  constructor
  · rintro ⟨k, hk, rfl⟩
    exact hk
  · intro hb
    exact ⟨b.index, hb, rfl⟩

theorem nodup_newBlocks (start count : Nat) : (newBlocks start count).Nodup := by
  refine List.Nodup.map ?_ List.nodup_range'
  intro j k hjk
  exact congrArg BlockRef.index hjk

/-- The instructions `code` are added to the table and listed in the block `b`, in
front of its last instructions `tail`. -/
structure Emits (b : BlockRef) (tail : List InstrRef) (code : List Instr) (p q : Program) :
    Prop where
  instrs_eq : q.instrs = p.instrs ++ code.toArray
  blocks_eq : ∃ block init, p.block? b = some block ∧ block.instrs = init ++ tail ∧
    q.blocks = p.blocks.setIfInBounds b.index
      { block with instrs := init ++ newRefs p.instrs.size code.length ++ tail }
  funcs_eq : ∃ more, q.funcs = p.funcs ++ more
  structs_eq : ∃ more, q.structs = p.structs ++ more

namespace Emits

variable {b : BlockRef} {tail : List InstrRef} {code more : List Instr} {p q r : Program}

theorem size_eq (h : Emits b tail code p q) : q.instrs.size = p.instrs.size + code.length := by
  simp [h.instrs_eq]

theorem size_blocks_eq (h : Emits b tail code p q) : q.blocks.size = p.blocks.size := by
  obtain ⟨block, init, -, -, hblocks⟩ := h.blocks_eq
  simp [hblocks]

theorem block?_self (h : Emits b tail code p q) {block : Block} {init : List InstrRef}
    (hblock : p.block? b = some block) (hinit : block.instrs = init ++ tail) :
    q.block? b = some
      { block with instrs := init ++ newRefs p.instrs.size code.length ++ tail } := by
  obtain ⟨block', init', hblock', hinit', hblocks⟩ := h.blocks_eq
  rw [hblock] at hblock'
  obtain rfl := Option.some.inj hblock'
  obtain rfl := List.append_cancel_right (hinit.symm.trans hinit')
  obtain ⟨hlt, -⟩ := Array.getElem?_eq_some_iff.1 hblock
  simp [Program.block?, hblocks, hlt]

theorem block?_of_ne (h : Emits b tail code p q) {c : BlockRef} (hne : c ≠ b) :
    q.block? c = p.block? c := by
  obtain ⟨block, init, -, -, hblocks⟩ := h.blocks_eq
  have hindex : b.index ≠ c.index := fun heq => hne (BlockRef.ext heq.symm)
  simp [Program.block?, hblocks, hindex]

theorem instr?_old (h : Emits b tail code p q) {i : InstrRef} (hi : i.index < p.instrs.size) :
    q.instr? i = p.instr? i := by
  simp [Program.instr?, h.instrs_eq, Array.getElem?_append, hi]

theorem instr?_new (h : Emits b tail code p q) (k : Nat) :
    q.instr? ⟨p.instrs.size + k⟩ = code[k]? := by
  have hge : ¬ p.instrs.size + k < p.instrs.size := by omega
  simp [Program.instr?, h.instrs_eq, Array.getElem?_append, hge]

theorem instr?_kept (h : Emits b tail code p q) {i : InstrRef} {instr : Instr}
    (hi : p.instr? i = some instr) : q.instr? i = some instr := by
  obtain ⟨hlt, -⟩ := Array.getElem?_eq_some_iff.1 hi
  rw [h.instr?_old hlt, hi]

theorem func?_kept (h : Emits b tail code p q) {f : FuncRef} {func : Func}
    (hf : p.func? f = some func) : q.func? f = some func := by
  obtain ⟨more, hmore⟩ := h.funcs_eq
  obtain ⟨hlt, -⟩ := Array.getElem?_eq_some_iff.1 hf
  simpa [Program.func?, hmore, Array.getElem?_append, hlt] using hf

theorem funcNamed?_kept (h : Emits b tail code p q) {name : String} {f : FuncRef}
    (hf : p.funcNamed? name = some f) : q.funcNamed? name = some f := by
  obtain ⟨more, hmore⟩ := h.funcs_eq
  obtain ⟨k, hk, rfl⟩ := Option.map_eq_some_iff.1 hf
  rw [Program.funcNamed?, hmore, Array.findIdx?_append, hk]
  rfl

/-- More functions and structure types alone. -/
theorem nil {block : Block} {init : List InstrRef} (hblock : p.block? b = some block)
    (hinit : block.instrs = init ++ tail) (hinstrs : q.instrs = p.instrs)
    (hblocks : q.blocks = p.blocks) (hfuncs : ∃ more, q.funcs = p.funcs ++ more)
    (hstructs : ∃ more, q.structs = p.structs ++ more) : Emits b tail [] p q where
  instrs_eq := by simp [hinstrs]
  blocks_eq := by
    refine ⟨block, init, hblock, hinit, ?_⟩
    have hsame : { block with instrs := init ++ newRefs p.instrs.size 0 ++ tail } = block := by
      simp [← hinit]
    obtain ⟨hlt, heq⟩ := Array.getElem?_eq_some_iff.1 hblock
    rw [List.length_nil, hsame, hblocks, ← heq]
    simp [Array.setIfInBounds, hlt]
  funcs_eq := hfuncs
  structs_eq := hstructs

theorem trans (h : Emits b tail code p q) (h' : Emits b tail more q r) :
    Emits b tail (code ++ more) p r where
  instrs_eq := by simp [h'.instrs_eq, h.instrs_eq]
  blocks_eq := by
    obtain ⟨block, init, hblock, hinit, hblocks⟩ := h.blocks_eq
    obtain ⟨block', init', hblock', hinit', hblocks'⟩ := h'.blocks_eq
    rw [h.block?_self hblock hinit] at hblock'
    obtain rfl := Option.some.inj hblock'
    obtain rfl := List.append_cancel_right hinit'
    refine ⟨block, init, hblock, hinit, ?_⟩
    rw [hblocks', hblocks, Array.setIfInBounds_setIfInBounds, h.size_eq, List.length_append,
      newRefs_add]
    simp only [List.append_assoc]
  funcs_eq := by
    obtain ⟨new, hnew⟩ := h.funcs_eq
    obtain ⟨new', hnew'⟩ := h'.funcs_eq
    exact ⟨new ++ new', by rw [hnew', hnew, Array.append_assoc]⟩
  structs_eq := by
    obtain ⟨new, hnew⟩ := h.structs_eq
    obtain ⟨new', hnew'⟩ := h'.structs_eq
    exact ⟨new ++ new', by rw [hnew', hnew, Array.append_assoc]⟩

end Emits

def EndsWith (p : Program) (b : BlockRef) (tail : List InstrRef) : Prop :=
  ∃ block init, p.block? b = some block ∧ block.instrs = init ++ tail

/-- The instruction ends a block where it stands last. -/
def Closes (p : Program) (last : InstrRef) : Prop :=
  ∃ instr, p.instr? last = some instr ∧ instr.op.isTerminator

/-- All of an instruction but its name. -/
def Instr.body (instr : Instr) : Option BlockRef × Op × Ty := (instr.block, instr.op, instr.ty)

/-- Instructions with the operations and types `ops`, under any names, are added to
the table and listed in the block `b`, in front of its last instructions `tail`. -/
def Writes (b : BlockRef) (tail : List InstrRef) (ops : List (Op × Ty)) (p q : Program) : Prop :=
  ∃ code, Emits b tail code p q ∧
    code.map Instr.body = ops.map fun (op, ty) => (some b, op, ty)

namespace Writes

variable {b : BlockRef} {tail : List InstrRef} {ops more : List (Op × Ty)} {p q r : Program}

theorem endsWith (h : Writes b tail ops p q) : EndsWith q b tail := by
  obtain ⟨code, hemits, -⟩ := h
  obtain ⟨block, init, hblock, hinit, -⟩ := hemits.blocks_eq
  exact ⟨_, _, hemits.block?_self hblock hinit, rfl⟩

theorem closes (h : Writes b tail ops p q) {last : InstrRef} (hlast : Closes p last) :
    Closes q last := by
  obtain ⟨code, hemits, -⟩ := h
  obtain ⟨instr, hinstr, hterm⟩ := hlast
  exact ⟨instr, hemits.instr?_kept hinstr, hterm⟩

/-- More functions and structure types write nothing. -/
theorem nil (h : EndsWith p b tail) (hinstrs : q.instrs = p.instrs)
    (hblocks : q.blocks = p.blocks) (hfuncs : ∃ more, q.funcs = p.funcs ++ more)
    (hstructs : ∃ more, q.structs = p.structs ++ more) : Writes b tail [] p q := by
  obtain ⟨block, init, hblock, hinit⟩ := h
  exact ⟨[], .nil hblock hinit hinstrs hblocks hfuncs hstructs, rfl⟩

theorem refl (h : EndsWith p b tail) : Writes b tail [] p p :=
  nil h rfl rfl ⟨#[], by simp⟩ ⟨#[], by simp⟩

theorem of_addFunc {func : Func} {f : FuncRef} (hend : EndsWith p b tail)
    (h : (Edit.addFunc func).apply p = (.ok f, q)) : Writes b tail [] p q := by
  obtain ⟨-, rfl⟩ := Edit.addFunc_eq_ok h
  exact nil hend rfl rfl ⟨#[func], rfl⟩ ⟨#[], by simp⟩

theorem of_addStruct {name : String} {fields : List Ty} {s : StructRef}
    (hend : EndsWith p b tail) (h : (Edit.addStruct name fields).apply p = (.ok s, q)) :
    Writes b tail [] p q := by
  obtain ⟨-, rfl⟩ := Edit.addStruct_eq_ok h
  exact nil hend rfl rfl ⟨#[], by simp⟩ ⟨#[{ name, fields }], rfl⟩

theorem trans (h : Writes b tail ops p q) (h' : Writes b tail more q r) :
    Writes b tail (ops ++ more) p r := by
  obtain ⟨code, hemits, hops⟩ := h
  obtain ⟨code', hemits', hops'⟩ := h'
  exact ⟨code ++ code', hemits.trans hemits', by rw [List.map_append, List.map_append, hops, hops']⟩

theorem size_eq (h : Writes b tail ops p q) : q.instrs.size = p.instrs.size + ops.length := by
  obtain ⟨code, hemits, hops⟩ := h
  have hlength : code.length = ops.length := by simpa using congrArg List.length hops
  rw [hemits.size_eq, hlength]

theorem size_blocks_eq (h : Writes b tail ops p q) : q.blocks.size = p.blocks.size := by
  obtain ⟨code, hemits, -⟩ := h
  exact hemits.size_blocks_eq

theorem instr?_old (h : Writes b tail ops p q) {i : InstrRef} (hi : i.index < p.instrs.size) :
    q.instr? i = p.instr? i := by
  obtain ⟨code, hemits, -⟩ := h
  exact hemits.instr?_old hi

theorem block?_of_ne (h : Writes b tail ops p q) {c : BlockRef} (hne : c ≠ b) :
    q.block? c = p.block? c := by
  obtain ⟨code, hemits, -⟩ := h
  exact hemits.block?_of_ne hne

theorem func?_kept (h : Writes b tail ops p q) {f : FuncRef} {func : Func}
    (hf : p.func? f = some func) : q.func? f = some func := by
  obtain ⟨code, hemits, -⟩ := h
  exact hemits.func?_kept hf

theorem funcNamed?_kept (h : Writes b tail ops p q) {name : String} {f : FuncRef}
    (hf : p.funcNamed? name = some f) : q.funcNamed? name = some f := by
  obtain ⟨code, hemits, -⟩ := h
  exact hemits.funcNamed?_kept hf

theorem block?_self (h : Writes b tail ops p q) {block : Block} {init : List InstrRef}
    (hblock : p.block? b = some block) (hinit : block.instrs = init ++ tail) :
    q.block? b = some
      { block with instrs := init ++ newRefs p.instrs.size ops.length ++ tail } := by
  obtain ⟨code, hemits, hops⟩ := h
  have hlength : code.length = ops.length := by simpa using congrArg List.length hops
  rw [hemits.block?_self hblock hinit, hlength]

theorem instr?_new (h : Writes b tail ops p q) {k : Nat} {op : Op} {ty : Ty}
    (hk : ops[k]? = some (op, ty)) :
    ∃ name, q.instr? ⟨p.instrs.size + k⟩ = some { block := some b, op, ty, name } := by
  obtain ⟨code, hemits, hops⟩ := h
  have hat := congrArg (fun bodies => bodies[k]?) hops
  simp only [List.getElem?_map, hk, Option.map_some] at hat
  obtain ⟨instr, hinstr, hbody⟩ := Option.map_eq_some_iff.1 hat
  obtain ⟨block, op', ty', name⟩ := instr
  simp only [Instr.body, Prod.mk.injEq] at hbody
  obtain ⟨rfl, rfl, rfl⟩ := hbody
  exact ⟨name, by rw [hemits.instr?_new, hinstr]⟩

/-- A new instruction is placed in the block that it is written to. -/
theorem placed (h : Writes b tail ops p q) {i : InstrRef} {instr : Instr}
    (hi : p.instrs.size ≤ i.index) (hinstr : q.instr? i = some instr) : instr.block = some b := by
  obtain ⟨code, hemits, hops⟩ := h
  obtain ⟨k, hk⟩ := Nat.exists_eq_add_of_le hi
  have hcode : code[k]? = some instr := by
    rw [← hemits.instr?_new k, ← hinstr, ← hk]
  have hbody : instr.body ∈ ops.map fun (op, ty) => (some b, op, ty) :=
    hops ▸ List.mem_map_of_mem (List.mem_of_getElem? hcode)
  obtain ⟨⟨op, ty⟩, -, heq⟩ := List.mem_map.1 hbody
  exact (congrArg Prod.fst heq).symm

theorem of_appendInstr {op : Op} {ty : Ty} {name : Option String} {i : InstrRef}
    (h : (Edit.appendInstr b op ty name).apply p = (.ok i, q)) :
    i = ⟨p.instrs.size⟩ ∧ Writes b [] [(op, ty)] p q := by
  unfold Edit.appendInstr at h
  rw [Edit.get_bind_eq_ok_iff, Edit.apply_bind_eq_ok_iff] at h
  obtain ⟨block, p', hlookup, hinsert⟩ := h
  obtain ⟨hfound, rfl⟩ := Edit.liftM_eq_ok_iff.1 hlookup
  obtain ⟨block', hblock, -, rfl, rfl⟩ := Edit.insertInstr_eq_ok hinsert
  rw [Program.block_eq_ok_iff, hblock] at hfound
  obtain rfl := Option.some.inj hfound
  refine ⟨rfl, [{ block := some b, op, ty, name }], ⟨?_, ?_, ?_, ?_⟩, rfl⟩
  · simp
  · refine ⟨block', block'.instrs, hblock, by simp, ?_⟩
    simp [newRefs_succ, List.insertIdx_length_self]
  · exact ⟨#[], by simp⟩
  · exact ⟨#[], by simp⟩

theorem of_insertBeforeEnd {op : Op} {ty : Ty} {name : Option String} {i last : InstrRef}
    (hend : EndsWith p b [last]) (hlast : Closes p last)
    (h : (Edit.insertBeforeEnd b op ty name).apply p = (.ok i, q)) :
    i = ⟨p.instrs.size⟩ ∧ Writes b [last] [(op, ty)] p q := by
  obtain ⟨block, init, hblock, hinit⟩ := hend
  obtain ⟨instr, hinstr, hterm⟩ := hlast
  have hterminator : p.terminator b = .ok (some last) := by
    refine Program.terminator_eq_ok_iff.2 ⟨block, hblock, .inr ⟨last, instr, ?_, hinstr, ?_⟩⟩
    · rw [hinit, List.getLast?_concat]
    · rw [if_pos hterm]
  unfold Edit.insertBeforeEnd at h
  rw [Edit.get_bind_eq_ok_iff, Edit.apply_bind_eq_ok_iff] at h
  obtain ⟨block', p', hlookup, hrest⟩ := h
  obtain ⟨hfound, rfl⟩ := Edit.liftM_eq_ok_iff.1 hlookup
  rw [Program.block_eq_ok_iff, hblock] at hfound
  obtain rfl := Option.some.inj hfound
  obtain ⟨last?, p', hlookup, hinsert⟩ := Edit.apply_bind_eq_ok_iff.1 hrest
  obtain ⟨hfound, rfl⟩ := Edit.liftM_eq_ok_iff.1 hlookup
  rw [hterminator] at hfound
  obtain rfl := Except.ok.inj hfound
  obtain ⟨block', hblock', -, rfl, rfl⟩ := Edit.insertInstr_eq_ok hinsert
  rw [hblock] at hblock'
  obtain rfl := Option.some.inj hblock'
  refine ⟨rfl, [{ block := some b, op, ty, name }], ⟨?_, ?_, ?_, ?_⟩, rfl⟩
  · simp
  · refine ⟨block, init, hblock, hinit, ?_⟩
    have hlength : block.instrs.length - 1 = init.length := by simp [hinit]
    rw [hlength, hinit, insertIdx_length_append]
    simp [newRefs_succ]
  · exact ⟨#[], by simp⟩
  · exact ⟨#[], by simp⟩

theorem of_requireFunc {name : String} {params : List Ty} {ret : Ty} {f : FuncRef}
    (hend : EndsWith p b tail) (h : (Edit.requireFunc name params ret).apply p = (.ok f, q)) :
    Writes b tail [] p q := by
  unfold Edit.requireFunc at h
  rw [Edit.get_bind_eq_ok_iff] at h
  split at h
  · obtain ⟨-, rfl⟩ := Edit.pure_eq_ok_iff.1 h
    exact refl hend
  · exact of_addFunc hend h

end Writes

/-- A change that does nothing the second time. -/
theorem iterate_of_idempotent {α : Type} {f : α → α} (hf : ∀ x, f (f x) = f x) {n : Nat}
    (hn : n ≠ 0) (x : α) : f^[n] x = f x := by
  obtain ⟨m, rfl⟩ := Nat.exists_eq_succ_of_ne_zero hn
  rw [Function.iterate_succ_apply, Function.iterate_fixed (hf x)]

/-- What one change leaves alone, any number of them do. -/
theorem apply_iterate_of_invariant {α β : Type} {f : α → α} (g : α → β)
    (hf : ∀ x, g (f x) = g x) (n : Nat) (x : α) : g (f^[n] x) = g x := by
  induction n with
  | zero => rfl
  | succ n ih => rw [Function.iterate_succ_apply', hf, ih]

/-- Instructions are changed where they stand, and nothing else is. -/
structure Rewrites (change : InstrRef → Instr → Instr) (p q : Program) : Prop where
  instr? : ∀ i, q.instr? i = (p.instr? i).map (change i)
  size_eq : q.instrs.size = p.instrs.size
  blocks_eq : q.blocks = p.blocks
  funcs_eq : q.funcs = p.funcs
  structs_eq : q.structs = p.structs

namespace Rewrites

variable {change change' : InstrRef → Instr → Instr} {p q r : Program}

theorem refl (p : Program) : Rewrites (fun _ instr => instr) p p where
  instr? := by simp
  size_eq := rfl
  blocks_eq := rfl
  funcs_eq := rfl
  structs_eq := rfl

theorem trans (h : Rewrites change p q) (h' : Rewrites change' q r) :
    Rewrites (fun i instr => change' i (change i instr)) p r where
  instr? := by
    intro i
    rw [h'.instr?, h.instr?, Option.map_map]
    rfl
  size_eq := h'.size_eq.trans h.size_eq
  blocks_eq := h'.blocks_eq.trans h.blocks_eq
  funcs_eq := h'.funcs_eq.trans h.funcs_eq
  structs_eq := h'.structs_eq.trans h.structs_eq

theorem congr (h : Rewrites change p q)
    (heq : ∀ i instr, p.instr? i = some instr → change i instr = change' i instr) :
    Rewrites change' p q where
  instr? := by
    intro i
    rw [h.instr?]
    cases hi : p.instr? i with
    | none => rfl
    | some instr => simp [heq i instr hi]
  size_eq := h.size_eq
  blocks_eq := h.blocks_eq
  funcs_eq := h.funcs_eq
  structs_eq := h.structs_eq

theorem unique (h : Rewrites change p q) (h' : Rewrites change p r) : q = r := by
  have hinstrs : q.instrs = r.instrs := by
    refine Array.ext_getElem? fun k => ?_
    exact (h.instr? ⟨k⟩).trans (h'.instr? ⟨k⟩).symm
  calc q
    _ = ⟨q.funcs, q.blocks, q.instrs, q.structs⟩ := rfl
    _ = r := by rw [hinstrs, h.funcs_eq, h.blocks_eq, h.structs_eq, ← h'.funcs_eq, ← h'.blocks_eq,
        ← h'.structs_eq]

theorem block? (h : Rewrites change p q) (b : BlockRef) : q.block? b = p.block? b := by
  rw [Program.block?, h.blocks_eq]
  rfl

theorem func? (h : Rewrites change p q) (f : FuncRef) : q.func? f = p.func? f := by
  rw [Program.func?, h.funcs_eq]
  rfl

theorem funcNamed? (h : Rewrites change p q) (name : String) :
    q.funcNamed? name = p.funcNamed? name := by
  rw [Program.funcNamed?, h.funcs_eq]
  rfl

/-- Where the blocks after a block can be read now, they could be before. -/
theorem readable (h : Rewrites change p q) {b : BlockRef} {targets : List BlockRef}
    (hq : q.successors b = .ok targets) : ∃ before, p.successors b = .ok before := by
  obtain ⟨block, hblock, hrest⟩ := Program.successors_eq_ok_iff.1 hq
  rw [h.block?] at hblock
  rcases hrest with ⟨hnone, -⟩ | ⟨last, instr, hlast, hinstr, -⟩
  · exact ⟨[], Program.successors_eq_ok_iff.2 ⟨block, hblock, .inl ⟨hnone, rfl⟩⟩⟩
  · rw [h.instr?] at hinstr
    obtain ⟨before, hbefore, -⟩ := Option.map_eq_some_iff.1 hinstr
    exact ⟨_, Program.successors_eq_of_getLast? hblock hlast hbefore⟩

/-- Writing to one instruction. -/
theorem of_setInstr (step : Instr → Instr) {i : InstrRef} {instr : Instr}
    (hi : p.instr? i = some instr) {u : Unit}
    (h : (Edit.setInstr i (step instr)).apply p = (.ok u, q)) :
    Rewrites (fun j => step^[[i].count j]) p q := by
  obtain rfl := Edit.modify_eq_ok_iff.1 h
  constructor
  · intro j
    obtain ⟨hlt, -⟩ := Array.getElem?_eq_some_iff.1 hi
    by_cases hj : j = i
    · subst hj
      have hlookup : p.instr? j = some instr := hi
      rw [hlookup]
      simp [Program.instr?, hlt]
    · have hindex : i.index ≠ j.index := fun heq => hj (InstrRef.ext heq.symm)
      simp [Program.instr?, hindex, Ne.symm hj]
  · simp
  · rfl
  · rfl
  · rfl

/-- One more instruction in front of a list of instructions that are changed the same
way. -/
theorem cons {step : Instr → Instr} {i : InstrRef} {is : List InstrRef}
    (h : Rewrites (fun j => step^[[i].count j]) p q)
    (h' : Rewrites (fun j => step^[is.count j]) q r) :
    Rewrites (fun j => step^[(i :: is).count j]) p r := by
  refine (h.trans h').congr ?_
  intro j instr _
  rw [← Function.iterate_add_apply, ← List.count_append, List.count_append, Nat.add_comm,
    ← List.count_append]
  rfl

theorem of_forM {step : Instr → Instr} {is : List InstrRef} {u : Unit}
    (h : (is.forM fun i => Edit.changeInstr i step).apply p = (.ok u, q)) :
    Rewrites (fun j => step^[is.count j]) p q := by
  induction is generalizing p with
  | nil =>
      obtain ⟨-, rfl⟩ := Edit.pure_eq_ok_iff.1 h
      exact (refl p).congr fun _ _ _ => rfl
  | cons i is ih =>
      obtain ⟨_, between, hi, hrest⟩ := Edit.apply_bind_eq_ok_iff.1 h
      unfold Edit.changeInstr at hi
      rw [Edit.get_bind_eq_ok_iff] at hi
      obtain ⟨instr, p', hlookup, hset⟩ := Edit.apply_bind_eq_ok_iff.1 hi
      obtain ⟨hfound, rfl⟩ := Edit.liftM_eq_ok_iff.1 hlookup
      exact (of_setInstr _ (Program.instr_eq_ok_iff.1 hfound) hset).cons (ih hrest)

theorem of_applyEach {σ : Renaming} {is : List InstrRef} {n : Nat}
    (h : (σ.applyEach is).apply p = (.ok n, q)) :
    Rewrites (fun j => (fun instr => { instr with op := instr.op.mapOperands σ.rename })^[
      is.count j]) p q := by
  induction is generalizing p n with
  | nil =>
      obtain ⟨-, rfl⟩ := Edit.pure_eq_ok_iff.1 h
      exact (refl p).congr fun _ _ _ => rfl
  | cons i is ih =>
      unfold Renaming.applyEach at h
      rw [Edit.get_bind_eq_ok_iff] at h
      obtain ⟨instr, p', hlookup, hchange⟩ := Edit.apply_bind_eq_ok_iff.1 h
      obtain ⟨hfound, rfl⟩ := Edit.liftM_eq_ok_iff.1 hlookup
      obtain ⟨_, between, hset, hothers⟩ := Edit.apply_bind_eq_ok_iff.1 hchange
      obtain ⟨m, last, hrest, hsum⟩ := Edit.apply_bind_eq_ok_iff.1 hothers
      obtain ⟨-, rfl⟩ := Edit.pure_eq_ok_iff.1 hsum
      exact (of_setInstr _ (Program.instr_eq_ok_iff.1 hfound) hset).cons (ih hrest)

/-- Applying a renaming. Without entries it changes nothing, as it would one by one. -/
theorem of_apply {σ : Renaming} {is : List InstrRef} {n : Nat}
    (h : (σ.apply is).apply p = (.ok n, q)) :
    Rewrites (fun j => (fun instr => { instr with op := instr.op.mapOperands σ.rename })^[
      is.count j]) p q := by
  unfold Renaming.apply at h
  split at h
  · next hempty =>
      obtain ⟨-, rfl⟩ := Edit.pure_eq_ok_iff.1 h
      have hid : σ.rename = id := by
        funext v
        have hnone : σ[v]? = none := Std.TreeMap.getElem?_of_isEmpty hempty
        simp [Renaming.rename, hnone]
      refine (refl p).congr ?_
      intro j instr _
      have hstep : (fun instr : Instr => { instr with op := instr.op.mapOperands σ.rename }) =
          id := by
        funext instr
        rw [hid, Op.mapOperands_id]
        rfl
      rw [hstep, Function.iterate_id]
      rfl
  · exact of_applyEach h

end Rewrites

/-- Empty blocks are added to the table and, in order, to the end of the layout of the
function `f`, which was `func`. -/
structure AddsBlocks (f : FuncRef) (func : Func) (count : Nat) (p q : Program) : Prop where
  instrs_eq : q.instrs = p.instrs
  size_eq : q.blocks.size = p.blocks.size + count
  block?_old : ∀ b, b.index < p.blocks.size → q.block? b = p.block? b
  block?_new : ∀ b ∈ newBlocks p.blocks.size count, ∃ name,
    q.block? b = some { name, func := f, instrs := [] }
  func?_self : q.func? f = some
    { func with blocks := func.blocks ++ newBlocks p.blocks.size count }
  func?_of_ne : ∀ g, g ≠ f → q.func? g = p.func? g

namespace AddsBlocks

variable {f : FuncRef} {func : Func} {count more : Nat} {p q r : Program}

theorem refl (hfunc : p.func? f = some func) : AddsBlocks f func 0 p p where
  instrs_eq := rfl
  size_eq := rfl
  block?_old := fun _ _ => rfl
  block?_new := by
    intro b hb
    cases hb
  func?_self := by
    rw [hfunc]
    simp [newBlocks]
  func?_of_ne := fun _ _ => rfl

theorem trans (h : AddsBlocks f func count p q)
    (h' : AddsBlocks f { func with blocks := func.blocks ++ newBlocks p.blocks.size count } more
      q r) : AddsBlocks f func (count + more) p r where
  instrs_eq := h'.instrs_eq.trans h.instrs_eq
  size_eq := by rw [h'.size_eq, h.size_eq, Nat.add_assoc]
  block?_old := by
    intro b hb
    rw [h'.block?_old b (h.size_eq ▸ Nat.lt_add_right _ hb), h.block?_old b hb]
  block?_new := by
    intro b hb
    rw [newBlocks_add, List.mem_append, ← h.size_eq] at hb
    rcases hb with hb | hb
    · obtain ⟨name, hname⟩ := h.block?_new b hb
      have hlt : b.index < q.blocks.size := h.size_eq ▸ (mem_newBlocks_iff.1 hb).2
      exact ⟨name, by rw [h'.block?_old b hlt, hname]⟩
    · exact h'.block?_new b hb
  func?_self := by
    rw [h'.func?_self, h.size_eq, newBlocks_add, List.append_assoc]
  func?_of_ne := by
    intro g hg
    rw [h'.func?_of_ne g hg, h.func?_of_ne g hg]

theorem of_appendBlock {name : String} {b : BlockRef} (hfunc : p.func? f = some func)
    (h : (Edit.appendBlock f name).apply p = (.ok b, q)) :
    b = ⟨p.blocks.size⟩ ∧ AddsBlocks f func 1 p q := by
  obtain ⟨func', hfunc', rfl, rfl⟩ := Edit.appendBlock_eq_ok h
  obtain rfl := Option.some.inj (hfunc.symm.trans hfunc')
  obtain ⟨hlt, -⟩ := Array.getElem?_eq_some_iff.1 hfunc
  refine ⟨rfl, rfl, by simp, ?_, ?_, ?_, ?_⟩
  · intro b hb
    simp [Program.block?, Array.getElem?_push, Nat.ne_of_lt hb]
  · intro b hb
    obtain rfl : b = ⟨p.blocks.size⟩ := by simpa [newBlocks] using hb
    exact ⟨name, by simp [Program.block?]⟩
  · simp [Program.func?, hlt, newBlocks]
  · intro g hg
    have hindex : f.index ≠ g.index := fun heq => hg (FuncRef.ext heq.symm)
    simp [Program.func?, hindex]

end AddsBlocks

/-- What is there stays as it is, apart from functions whose body is still to be written,
and new instructions are placed in new blocks. -/
structure Grows (p q : Program) : Prop where
  size_le : p.instrs.size ≤ q.instrs.size
  size_blocks_le : p.blocks.size ≤ q.blocks.size
  instr?_old : ∀ i, i.index < p.instrs.size → q.instr? i = p.instr? i
  block?_old : ∀ b, b.index < p.blocks.size → q.block? b = p.block? b
  func?_kept : ∀ f func, p.func? f = some func → func.blocks ≠ [] → q.func? f = some func
  placed : ∀ i instr, p.instrs.size ≤ i.index → q.instr? i = some instr →
    ∃ b, instr.block = some b ∧ p.blocks.size ≤ b.index

namespace Grows

variable {p q r : Program}

theorem refl (p : Program) : Grows p p where
  size_le := Nat.le_refl _
  size_blocks_le := Nat.le_refl _
  instr?_old := fun _ _ => rfl
  block?_old := fun _ _ => rfl
  func?_kept := fun _ _ hf _ => hf
  placed := by
    intro i instr hi hinstr
    exact absurd (Array.getElem?_eq_some_iff.1 hinstr).1 (Nat.not_lt_of_le hi)

theorem trans (h : Grows p q) (h' : Grows q r) : Grows p r where
  size_le := Nat.le_trans h.size_le h'.size_le
  size_blocks_le := Nat.le_trans h.size_blocks_le h'.size_blocks_le
  instr?_old := by
    intro i hi
    rw [h'.instr?_old i (Nat.lt_of_lt_of_le hi h.size_le), h.instr?_old i hi]
  block?_old := by
    intro b hb
    rw [h'.block?_old b (Nat.lt_of_lt_of_le hb h.size_blocks_le), h.block?_old b hb]
  func?_kept := by
    intro f func hf hne
    exact h'.func?_kept f func (h.func?_kept f func hf hne) hne
  placed := by
    intro i instr hi hinstr
    by_cases hlt : i.index < q.instrs.size
    · rw [h'.instr?_old i hlt] at hinstr
      exact h.placed i instr hi hinstr
    · obtain ⟨b, hb, hle⟩ := h'.placed i instr (Nat.le_of_not_lt hlt) hinstr
      exact ⟨b, hb, Nat.le_trans h.size_blocks_le hle⟩

theorem instr?_kept (h : Grows p q) {i : InstrRef} {instr : Instr}
    (hi : p.instr? i = some instr) : q.instr? i = some instr := by
  rw [h.instr?_old i (Array.getElem?_eq_some_iff.1 hi).1, hi]

theorem block?_kept (h : Grows p q) {b : BlockRef} {block : Block}
    (hb : p.block? b = some block) : q.block? b = some block := by
  rw [h.block?_old b (Array.getElem?_eq_some_iff.1 hb).1, hb]

/-- Writing to a new block. -/
theorem writes (h : Grows p q) {b : BlockRef} {tail : List InstrRef} {ops : List (Op × Ty)}
    (hb : p.blocks.size ≤ b.index) (hwrites : Writes b tail ops q r) : Grows p r where
  size_le := by
    rw [hwrites.size_eq]
    exact Nat.le_add_right_of_le h.size_le
  size_blocks_le := by
    rw [hwrites.size_blocks_eq]
    exact h.size_blocks_le
  instr?_old := by
    intro i hi
    rw [hwrites.instr?_old (Nat.lt_of_lt_of_le hi h.size_le), h.instr?_old i hi]
  block?_old := by
    intro c hc
    have hne : c ≠ b := by
      rintro rfl
      exact Nat.not_lt_of_le hb hc
    rw [hwrites.block?_of_ne hne, h.block?_old c hc]
  func?_kept := by
    intro f func hf hne
    exact hwrites.func?_kept (h.func?_kept f func hf hne)
  placed := by
    intro i instr hi hinstr
    by_cases hlt : i.index < q.instrs.size
    · rw [hwrites.instr?_old hlt] at hinstr
      exact h.placed i instr hi hinstr
    · exact ⟨b, hwrites.placed (Nat.le_of_not_lt hlt) hinstr, hb⟩

/-- Changing new instructions where they stand. -/
theorem rewrites (h : Grows p q) {change : InstrRef → Instr → Instr}
    (hrewrites : Rewrites change q r)
    (hold : ∀ i instr, i.index < p.instrs.size → change i instr = instr)
    (hblock : ∀ i instr, (change i instr).block = instr.block) : Grows p r where
  size_le := by
    rw [hrewrites.size_eq]
    exact h.size_le
  size_blocks_le := by
    rw [hrewrites.blocks_eq]
    exact h.size_blocks_le
  instr?_old := by
    intro i hi
    have hid : change i = id := funext fun instr => hold i instr hi
    rw [hrewrites.instr?, hid, Option.map_id, id, h.instr?_old i hi]
  block?_old := by
    intro b hb
    rw [hrewrites.block?, h.block?_old b hb]
  func?_kept := by
    intro f func hf hne
    rw [hrewrites.func?, h.func?_kept f func hf hne]
  placed := by
    intro i instr hi hinstr
    rw [hrewrites.instr?] at hinstr
    obtain ⟨before, hbefore, rfl⟩ := Option.map_eq_some_iff.1 hinstr
    rw [hblock]
    exact h.placed i before hi hbefore

/-- Renaming new instructions. -/
theorem apply (h : Grows p q) {σ : Renaming} {is : List InstrRef} {n : Nat}
    (happly : (σ.apply is).apply q = (.ok n, r)) (hnew : ∀ i ∈ is, p.instrs.size ≤ i.index) :
    Grows p r := by
  refine h.rewrites (.of_apply happly) ?_ ?_
  · intro i instr hi
    have hnot : i ∉ is := fun hmem => Nat.not_lt_of_le (hnew i hmem) hi
    rw [List.count_eq_zero.2 hnot]
    rfl
  · intro i instr
    refine apply_iterate_of_invariant Instr.block ?_ _ instr
    exact fun _ => rfl

end Grows

end Decouple
