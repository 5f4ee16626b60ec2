import Decouple.Proofs.LiveLists
import Decouple.Proofs.Passing

/-!
# Who reads the live-outs after the loop is replaced

The block in the place of a loop loads the live-outs again, and what read a live-out outside the
loop reads the load from then on (`Dispatch.install_reads_reloads`). Nothing outside the loop, the
new block included, reads the result of an instruction of the loop any more, so that the loop can
be given up.

Two notions of being outside meet here. Liveness asks where the reader of a value is placed, and
the renaming goes through what the blocks of the layout list; they agree if every listed
instruction is placed in the block that lists it (`Program.PlacedOnce`).
-/

namespace Decouple

open Outcome

def Op.isLoad : Op → Bool
  | .load _ => true
  | _ => false

theorem Op.isLoad_mapOperands (f : Value → Value) (op : Op) :
    (op.mapOperands f).isLoad = op.isLoad := by
  cases op <;> rfl

namespace Program

variable {p q : Program}

def loadsIn (p : Program) (b : BlockRef) : List InstrRef :=
  (p.listedIn [b]).filter fun i => (p.op? i).any Op.isLoad

/-- The blocks list each of their instructions once, and it is placed where it is listed. -/
def PlacedOnce (p : Program) (blocks : List BlockRef) : Prop :=
  ∀ b ∈ blocks, ∀ block, p.block? b = some block → block.instrs.Nodup ∧
    ∀ i ∈ block.instrs, ∃ instr, p.instr? i = some instr ∧ instr.block = some b

theorem PlacedOnce.placed {blocks : List BlockRef} (h : p.PlacedOnce blocks) {b : BlockRef}
    (hb : b ∈ blocks) {i : InstrRef} (hi : p.Lists b i) :
    ∃ instr, p.instr? i = some instr ∧ instr.block = some b := by
  obtain ⟨block, hblock, hmem⟩ := hi
  exact (h b hb block hblock).2 i hmem

/-- An instruction is listed in one block only. -/
theorem PlacedOnce.unique {blocks : List BlockRef} (h : p.PlacedOnce blocks) {b c : BlockRef}
    (hb : b ∈ blocks) (hc : c ∈ blocks) {i : InstrRef} (hi : p.Lists b i) (hi' : p.Lists c i) :
    b = c := by
  obtain ⟨instr, hinstr, hplaced⟩ := h.placed hb hi
  obtain ⟨instr', hinstr', hplaced'⟩ := h.placed hc hi'
  obtain rfl := Option.some.inj (hinstr.symm.trans hinstr')
  exact Option.some.inj (hplaced.symm.trans hplaced')

theorem PlacedOnce.nodup_listedIn {blocks part : List BlockRef} (h : p.PlacedOnce blocks)
    (hpart : ∀ b ∈ part, b ∈ blocks) (hnodup : part.Nodup) : (p.listedIn part).Nodup := by
  refine List.nodup_flatMap.2 ⟨fun b hb => ?_, hnodup.imp_of_mem fun {b c} hb hc hne => ?_⟩
  · cases hblock : p.block? b with
    | none => simp
    | some block => exact (h b (hpart b hb) block hblock).1
  · intro i hi hi'
    have hlists {b : BlockRef} (hi : i ∈ ((p.block? b).map Block.instrs).getD []) :
        p.Lists b i := by
      simpa [listedIn] using (@mem_listedIn_iff p [b] i).1 (by simpa [listedIn] using hi)
    exact hne (h.unique (hpart b hb) (hpart c hc) (hlists hi) (hlists hi'))

end Program

section Loads

def loadRefs : Nat → List (Op × Ty) → List InstrRef
  | _, [] => []
  | next, (op, _) :: rest => (if op.isLoad then [⟨next⟩] else []) ++ loadRefs (next + 1) rest

theorem loadRefs_append (next : Nat) (code more : List (Op × Ty)) :
    loadRefs next (code ++ more) = loadRefs next code ++ loadRefs (next + code.length) more := by
  induction code generalizing next with
  | nil => rfl
  | cons entry code ih =>
      have hnext : next + 1 + code.length = next + (entry :: code).length := by
        rw [List.length_cons]
        omega
      rw [List.cons_append, loadRefs, loadRefs, ih, hnext, List.append_assoc]

theorem loadRefs_eq_nil {next : Nat} {code : List (Op × Ty)}
    (h : ∀ entry ∈ code, ¬ entry.1.isLoad) : loadRefs next code = [] := by
  induction code generalizing next with
  | nil => rfl
  | cons entry code ih =>
      obtain ⟨hentry, hrest⟩ := List.forall_mem_cons.1 h
      rw [loadRefs, if_neg hentry, ih hrest, List.nil_append]

theorem not_isLoad_storeCode (layout : StructRef) (base : InstrRef) (next : Nat)
    (fields : List (Value × Nat)) : ∀ entry ∈ storeCode layout base next fields,
      ¬ entry.1.isLoad := by
  induction fields generalizing next with
  | nil => simp [storeCode]
  | cons field fields ih => simpa [storeCode, Op.isLoad] using ih (next + 2)

theorem not_isLoad_callCode (dispatch : FuncRef) (shared : InstrRef) (thread : Nat)
    (workers : List FuncRef) : ∀ entry ∈ callCode dispatch shared thread workers,
      ¬ entry.1.isLoad := by
  induction workers generalizing thread with
  | nil => simp [callCode]
  | cons worker workers ih => simpa [callCode, Op.isLoad] using ih (thread + 1)

theorem not_isLoad_runCode (init dispatch join : FuncRef) (argPtr : InstrRef) (next : Nat)
    (workers : List FuncRef) : ∀ entry ∈ runCode init dispatch join argPtr next workers,
      ¬ entry.1.isLoad := by
  have hcalls := not_isLoad_callCode dispatch ⟨next + 1⟩ 0 workers
  intro entry hentry
  simp only [runCode, List.cons_append, List.mem_cons, List.mem_append, List.not_mem_nil,
    or_false] at hentry
  rcases hentry with rfl | rfl | hentry | rfl
  · simp [Op.isLoad]
  · simp [Op.isLoad]
  · exact hcalls entry hentry
  · simp [Op.isLoad]

theorem loadRefs_loadCode (layout : StructRef) (base : InstrRef) (next k : Nat) (types : List Ty) :
    loadRefs next (loadCode layout base next k types) =
      (List.range types.length).map fun j => ⟨next + 2 * j + 1⟩ := by
  induction types generalizing next k with
  | nil => rfl
  | cons ty types ih =>
      rw [loadCode, loadRefs, loadRefs, ih, List.length_cons, List.range_succ_eq_map]
      simp only [Op.isLoad, List.map_cons, List.map_map, Function.comp_def]
      simp
      intro j _
      omega

/-- The block in the place of a loop loads the live-outs and nothing else. -/
theorem loadRefs_replacementCode (exchange : Exchange) (init dispatch join : FuncRef)
    (workers : List FuncRef) (liveIn : List Value) (types : List Ty) (exit : BlockRef)
    (next : Nat) :
    loadRefs next (replacementCode exchange init dispatch join workers liveIn types exit next) =
      (List.range types.length).map fun j =>
        ⟨next + 1 + 2 * liveIn.length + (workers.length + 3) + 1 + 2 * j + 1⟩ := by
  have hstores : loadRefs next ((.alloca (.struct exchange.args), .ptr) ::
      storeCode exchange.args ⟨next⟩ (next + 1) liveIn.zipIdx) = [] := by
    refine loadRefs_eq_nil (List.forall_mem_cons.2 ⟨by simp [Op.isLoad], ?_⟩)
    exact not_isLoad_storeCode _ _ _ _
  have hat : next + ((Prod.mk (Op.alloca (.struct exchange.args)) Ty.ptr) ::
      storeCode exchange.args ⟨next⟩ (next + 1) liveIn.zipIdx ++
      runCode init dispatch join ⟨next⟩ (next + 1 + 2 * liveIn.length) workers).length =
      next + 1 + 2 * liveIn.length + (workers.length + 3) := by
    rw [List.length_append, List.length_cons, length_storeCode, List.length_zipIdx, length_runCode]
    omega
  have hlast (n : Nat) : loadRefs n [(.br exit, .void)] = [] := rfl
  rw [replacementCode, loadRefs_append, loadRefs_append, loadRefs_append, hstores, hat, hlast,
    loadRefs_eq_nil (not_isLoad_runCode _ _ _ _ _ _), List.nil_append, List.nil_append,
    List.append_nil]
  cases types with
  | nil => rfl
  | cons ty types =>
      rw [unpackCode, loadRefs, loadRefs_loadCode]
      · simp [Op.isLoad]
      · simp

/-- The loads among the instructions of some code, where the code is found in the table but for
its operands. -/
theorem filter_newRefs {q : Program} {start : Nat} {code : List (Op × Ty)}
    (h : ∀ k op ty, code[k]? = some (op, ty) →
      ∃ op', q.op? ⟨start + k⟩ = some op' ∧ op'.isLoad = op.isLoad) :
    (newRefs start code.length).filter (fun i => (q.op? i).any Op.isLoad) =
      loadRefs start code := by
  induction code generalizing start with
  | nil => rfl
  | cons entry code ih =>
      obtain ⟨op, ty⟩ := entry
      obtain ⟨op', hop', hload⟩ := h 0 op ty rfl
      have hrest := @ih (start + 1) fun k op ty hk => by
        have hindex : start + 1 + k = start + (k + 1) := by omega
        rw [hindex]
        exact h (k + 1) op ty hk
      rw [Nat.add_zero] at hop'
      rw [List.length_cons, newRefs_succ, List.filter_cons, hop', Option.any_some, hload, hrest,
        loadRefs]
      cases op.isLoad <;> rfl

end Loads

/-- What is read in the place of a value after the live-outs `outs` were loaded by `loads`: for a
live-out what is loaded for the last of its positions, and any other value as before. -/
inductive ReadAgain (outs loads : List InstrRef) : Value → Value → Prop
  | reload {k : Nat} {out load : InstrRef} (hout : outs[k]? = some out)
      (hlast : ∀ k' : Nat, outs[k']? = some out → k' ≤ k) (hload : loads[k]? = some load) :
      ReadAgain outs loads (.instr out) (.instr load)
  | same {v : Value} (hv : v ∉ outs.map .instr) : ReadAgain outs loads v v

theorem exists_last_position {α : Type} {xs : List α} {x : α} (h : x ∈ xs) :
    ∃ k : Nat, xs[k]? = some x ∧ ∀ k' : Nat, xs[k']? = some x → k' ≤ k := by
  induction xs with
  | nil => exact absurd h List.not_mem_nil
  | cons y xs ih =>
      by_cases hlater : x ∈ xs
      · obtain ⟨k, hk, hlast⟩ := ih hlater
        refine ⟨k + 1, hk, fun k' hk' => ?_⟩
        cases k' with
        | zero => exact Nat.zero_le _
        | succ k' => exact Nat.succ_le_succ (hlast k' hk')
      · obtain rfl := (List.mem_cons.1 h).resolve_right hlater
        refine ⟨0, rfl, fun k' hk' => ?_⟩
        cases k' with
        | zero => exact Nat.le_refl 0
        | succ k' =>
            rw [List.getElem?_cons_succ] at hk'
            exact absurd (List.mem_of_getElem? hk') hlater

namespace Dispatch

variable {s : Setting} {p q : Program} {func : Func} {d : Dispatch} {code : List (Op × Ty)}
  {b : BlockRef} {i : InstrRef} {instr : Instr}

namespace Installed

/-- The loads of the block in the place of the loop. -/
theorem loadsIn_eq (h : Installed s p func d code q) :
    q.loadsIn d.block = (List.range s.live.liveOut.length).map fun j =>
      ⟨p.instrs.size + 1 + 2 * s.live.liveIn.length + (d.workers.length + 3) + 1 + 2 * j + 1⟩ := by
  have hlisted : q.listedIn [d.block] = newRefs p.instrs.size code.length := by
    simp [Program.listedIn, h.block?_new]
  have hcode : ∀ k op ty, code[k]? = some (op, ty) →
      ∃ op', q.op? ⟨p.instrs.size + k⟩ = some op' ∧ op'.isLoad = op.isLoad := by
    intro k op ty hk
    obtain ⟨name, hname⟩ := h.instr?_new k op ty hk
    refine ⟨_, Program.op?_of_instr? hname, ?_⟩
    rw [renamed_iterate_op, Op.isLoad_mapOperands]
  obtain ⟨init, dispatch, join, types, htypes, heq⟩ := h.code_eq
  have hlength := Program.length_of_valueTypes htypes
  rw [List.length_map] at hlength
  rw [Program.loadsIn, hlisted, filter_newRefs hcode, heq, loadRefs_replacementCode, hlength]

/-- Renaming lets a value be read again. -/
theorem readAgain_rename (h : Installed s p func d code q) (v : Value) :
    ReadAgain s.live.liveOut (q.loadsIn d.block) v
      ((outRenaming s d.workers p.instrs.size).rename v) := by
  by_cases hv : v ∈ s.live.liveOut.map .instr
  · obtain ⟨out, hout, rfl⟩ := List.mem_map.1 hv
    obtain ⟨k, hk, hlast⟩ := exists_last_position hout
    obtain ⟨hlt, -⟩ := List.getElem?_eq_some_iff.1 hk
    have hlookup : (outRenaming s d.workers p.instrs.size)[Value.instr out]? = some (.instr
        ⟨p.instrs.size + 1 + 2 * s.live.liveIn.length + (d.workers.length + 3) + 1 + 2 * k + 1⟩) :=
      loadRenaming_of_last (by simp [hk]) fun k' hk' => hlast k' (by simpa using hk')
    rw [Renaming.rename, hlookup, Option.getD_some]
    refine .reload hk hlast ?_
    rw [h.loadsIn_eq, List.getElem?_map, List.getElem?_range hlt, Option.map_some]
  · rw [rename_of_not_mem hv]
    exact .same hv

/-- The code of the new block is not renamed, because no block lists it before it is there. -/
theorem op?_code (h : Installed s p func d code q) (honce : p.PlacedOnce func.blocks) {k : Nat}
    {op : Op} {ty : Ty} (hk : code[k]? = some (op, ty)) :
    q.op? ⟨p.instrs.size + k⟩ = some op := by
  have hcount : (p.listedIn (func.blocks.filter (isOutside s d.block))).count
      ⟨p.instrs.size + k⟩ = 0 := by
    refine count_outside_eq_zero fun b hb _ hlists => ?_
    obtain ⟨instr, hinstr, -⟩ := honce.placed hb hlists
    obtain ⟨hlt, -⟩ := Array.getElem?_eq_some_iff.1 hinstr
    exact Nat.not_succ_le_self _ (Nat.lt_of_le_of_lt (Nat.le_add_right _ _) hlt)
  obtain ⟨name, hname⟩ := h.instr?_new k op ty hk
  rw [hcount] at hname
  exact Program.op?_of_instr? hname

theorem block_not_mem (h : Installed s p func d code q) (hlive : s.live.Describes p s.loop) :
    d.block ∉ s.loop := by
  intro hmem
  obtain ⟨block, hblock⟩ := hlive.block? _ hmem
  exact h.ne_block (by rw [hblock]; rfl) rfl

/-- The blocks of the loop list what they listed. -/
theorem listedIn_loop (h : Installed s p func d code q) (hlive : s.live.Describes p s.loop) :
    q.listedIn s.loop.blocks = p.listedIn s.loop.blocks := by
  refine List.flatMap_congr fun b hb => ?_
  obtain ⟨block, hblock⟩ := hlive.block? b hb
  rw [h.block?_kept b (h.ne_block (by rw [hblock]; rfl))]

/-- Outside the loop operands are read again. -/
theorem forall₂_readAgain (h : Installed s p func d code q) (hlive : s.live.Describes p s.loop)
    (hb : b ∈ func.blocks) (hout : b ∉ s.loop) (hi : p.Lists b i)
    (hinstr : p.instr? i = some instr) :
    ∃ instr', q.instr? i = some instr' ∧ List.Forall₂
      (ReadAgain s.live.liveOut (q.loadsIn d.block)) instr.op.operands instr'.op.operands := by
  have hlt : ∀ i ∈ s.live.liveOut, i.index < p.instrs.size := by
    intro i hi
    obtain ⟨instr, hinstr⟩ := hlive.instr? i ((hlive.mem_liveOut_iff i).1 hi).1
    exact (Array.getElem?_eq_some_iff.1 hinstr).1
  refine ⟨_, h.instr?_some hinstr, ?_⟩
  rw [h.operands_outside hlt hb hout hi, List.forall₂_map_right_iff]
  exact List.forall₂_same.2 fun v _ => h.readAgain_rename v

/-- Instructions of the loop are left alone. -/
theorem instr?_inside (h : Installed s p func d code q) (honce : p.PlacedOnce func.blocks)
    (hloop : ∀ b ∈ s.loop, b ∈ func.blocks) (hb : b ∈ s.loop) (hi : p.Lists b i) :
    q.instr? i = p.instr? i := by
  obtain ⟨instr, hinstr, -⟩ := honce.placed (hloop b hb) hi
  rw [h.instr?_some hinstr, hinstr, adjusted_of_inside]
  · intro hexit
    obtain rfl := honce.unique (hloop b hb) h.exit_mem hi hexit
    exact h.exit_not_mem hb
  · intro c hc houtside hlists
    obtain rfl := honce.unique (hloop b hb) hc hi hlists
    simp [isOutside, hb] at houtside

/-- The new block reads its own instructions and the live-ins, which the loop does not define. -/
theorem not_mem_operands_new (h : Installed s p func d code q)
    (hlive : s.live.Describes p s.loop) (honce : p.PlacedOnce func.blocks)
    (hi : q.Lists d.block i) (hinstr : q.instr? i = some instr) {x : InstrRef}
    (hx : x ∈ s.live.defined) : .instr x ∉ instr.op.operands := by
  intro hread
  obtain ⟨-, source, hsource, -⟩ := (hlive.mem_defined_iff x).1 hx
  obtain ⟨hlt, -⟩ := Array.getElem?_eq_some_iff.1 hsource
  obtain ⟨block, hblock, hmem⟩ := hi
  obtain rfl := Option.some.inj (h.block?_new.symm.trans hblock)
  obtain ⟨hle, hlt'⟩ := mem_newRefs_iff.1 hmem
  obtain ⟨k, hk⟩ := Nat.exists_eq_add_of_le hle
  obtain rfl : i = ⟨p.instrs.size + k⟩ := InstrRef.ext hk
  obtain ⟨⟨op, ty⟩, hcode⟩ : ∃ entry, code[k]? = some entry :=
    ⟨_, List.getElem?_eq_getElem (Nat.lt_of_add_lt_add_left hlt')⟩
  obtain rfl : instr.op = op := Option.some.inj
    ((Program.op?_of_instr? hinstr).symm.trans (h.op?_code honce hcode))
  obtain ⟨init, dispatch, join, types, -, rfl⟩ := h.code_eq
  rcases (SelfContained.replacementCode k _ _ hcode).2 x hread with ⟨hnew, -⟩ | hin
  · exact Nat.not_lt_of_le hnew hlt
  · exact ((hlive.mem_liveIn_iff _).1 hin).2.1 x rfl hx

/-- What reads a value of the loop elsewhere makes it a live-out, and what is put in for a
live-out is new. -/
theorem not_mem_operands_outside (h : Installed s p func d code q)
    (hlive : s.live.Describes p s.loop) (honce : p.PlacedOnce func.blocks) (hb : b ∈ func.blocks)
    (hout : b ∉ s.loop) (hi : p.Lists b i) (hinstr : q.instr? i = some instr) {x : InstrRef}
    (hx : x ∈ p.listedIn s.loop.blocks) : .instr x ∉ instr.op.operands := by
  intro hread
  obtain ⟨source, hsource⟩ := hlive.instr? x hx
  obtain ⟨hlt, -⟩ := Array.getElem?_eq_some_iff.1 hsource
  obtain ⟨old, hold, hplaced⟩ := honce.placed hb hi
  obtain ⟨instr', hinstr', hslots⟩ := h.forall₂_readAgain hlive hb hout hi hold
  obtain rfl := Option.some.inj (hinstr.symm.trans hinstr')
  obtain ⟨v, hv, hagain⟩ := exists_of_forall₂_of_mem hslots hread
  cases hagain with
  | reload hout hlast hload =>
      rw [h.loadsIn_eq] at hload
      obtain ⟨j, -, rfl⟩ := List.mem_map.1 (List.mem_of_getElem? hload)
      simp only at hlt
      omega
  | same hnot =>
      have hescapes : p.Escapes s.loop x := ⟨i, old, b, hold, hv, hplaced, hout⟩
      exact hnot (List.mem_map_of_mem ((hlive.mem_liveOut_iff x).2 ⟨hx, hescapes⟩))

end Installed

/-- The readers of live-outs outside the loop read what the block in the place of the loop loads,
instructions of the loop stay as they are, and no value of the loop is read outside of it. -/
theorem install_reads_reloads (h : (install s).apply p = (.ok d, q))
    (hfunc : p.func? s.func = some func) (honce : p.PlacedOnce func.blocks)
    (hloop : ∀ b ∈ s.loop, b ∈ func.blocks) (hlive : Liveness.ofLoop p s.loop = .ok s.live) :
    (s.loop.blocks.Nodup → s.live.liveOut.Nodup) ∧
    (q.loadsIn d.block).length = s.live.liveOut.length ∧
    (∀ b ∈ func.blocks, b ∉ s.loop → ∀ i instr, p.Lists b i → p.instr? i = some instr →
      ∃ instr', q.instr? i = some instr' ∧ List.Forall₂
        (ReadAgain s.live.liveOut (q.loadsIn d.block)) instr.op.operands instr'.op.operands) ∧
    (∀ b ∈ s.loop, ∀ i, p.Lists b i → q.instr? i = p.instr? i) ∧
    ∃ after, q.func? s.func = some after ∧ d.block ∈ after.blocks ∧ d.block ∉ s.loop ∧
      ∀ b ∈ after.blocks, b ∉ s.loop → ∀ i instr, q.Lists b i → q.instr? i = some instr →
        ∀ x ∈ q.listedIn s.loop.blocks, q.yields x → .instr x ∉ instr.op.operands := by
  obtain ⟨func', code, hinstalled⟩ := installed_of_install h
  obtain rfl := Option.some.inj (hfunc.symm.trans hinstalled.lookup)
  have hdescribes := Liveness.describes_of_ofLoop hlive
  obtain ⟨after, hafter, hlayout, -⟩ := hinstalled.exists_layout
  refine ⟨fun hnodup => ?_, ?_, fun b hb hout i instr => hinstalled.forall₂_readAgain hdescribes hb
    hout, fun b hb i => hinstalled.instr?_inside honce hloop hb, after, hafter,
    (hlayout d.block).2 (.inl rfl), hinstalled.block_not_mem hdescribes, ?_⟩
  · have horder := Liveness.inOrder_of_ofLoop hlive
    exact horder.nodup_liveOut (honce.nodup_listedIn hloop hnodup)
  · rw [hinstalled.loadsIn_eq, List.length_map, List.length_range]
  · intro b hb hout i instr hi hinstr x hx hyields
    rw [hinstalled.listedIn_loop hdescribes] at hx
    by_cases hnew : b = d.block
    · subst hnew
      obtain ⟨c, hc, hlists⟩ := Program.mem_listedIn_iff.1 hx
      obtain ⟨source, hsource⟩ := hdescribes.instr? x hx
      rw [Program.yields, hinstalled.instr?_inside honce hloop hc hlists, hsource,
        Option.any_some] at hyields
      exact hinstalled.not_mem_operands_new hdescribes honce hi hinstr
        ((hdescribes.mem_defined_iff x).2 ⟨hx, source, hsource, hyields⟩)
    · obtain ⟨block, hblock, hmem⟩ := hi
      rw [hinstalled.block?_kept b hnew] at hblock
      exact hinstalled.not_mem_operands_outside hdescribes honce
        (((hlayout b).1 hb).resolve_left hnew) hout ⟨block, hblock, hmem⟩ hinstr hx

end Dispatch

/-- For a given list of blocks it can be looked up whether each instruction is placed once. -/
theorem Program.placedOnce_of_forall {p : Program} {blocks : List BlockRef}
    (h : ∀ b ∈ blocks, ∀ block ∈ p.block? b, block.instrs.Nodup ∧
      ∀ i ∈ block.instrs, ∃ instr ∈ p.instr? i, instr.block = some b) : p.PlacedOnce blocks := by
  intro b hb block hblock
  obtain ⟨hnodup, hplaced⟩ := h b hb block hblock
  exact ⟨hnodup, fun i hi => hplaced i hi⟩

/-! A loop of one block that is named twice. -/

namespace Repeated

/-- Block 0 leads to the header 1, which goes round and leaves for 2. -/
def program : Program where
  funcs := #[
    { name := "twice"
      params := []
      ret := .i32
      blocks := [⟨0⟩, ⟨1⟩, ⟨2⟩]
      external := false }]
  blocks := #[
    { name := "entry", func := ⟨0⟩, instrs := [⟨0⟩] },
    { name := "header", func := ⟨0⟩, instrs := [⟨1⟩, ⟨2⟩, ⟨3⟩] },
    { name := "exit", func := ⟨0⟩, instrs := [⟨4⟩] }]
  instrs := #[
    ⟨some ⟨0⟩, .br ⟨1⟩, .void, none⟩,
    ⟨some ⟨1⟩, .binary .add (.i32 1) (.i32 2), .i32, some "sum"⟩,
    ⟨some ⟨1⟩, .compare .slt (.instr ⟨1⟩) (.i32 3), .i1, some "more"⟩,
    ⟨some ⟨1⟩, .condBr (.instr ⟨2⟩) ⟨1⟩ ⟨2⟩, .void, none⟩,
    ⟨some ⟨2⟩, .ret (some (.instr ⟨1⟩)), .void, none⟩]
  structs := #[]

/-- One thread does everything; the live-out stands at two positions. -/
def setting : Setting where
  func := ⟨0⟩
  loop := ⟨⟨1⟩, ⟨0⟩, ⟨2⟩, [⟨1⟩, ⟨1⟩]⟩
  deps := ⟨[]⟩
  plan := ⟨1, [⟨0, [⟨1⟩, ⟨2⟩, ⟨3⟩]⟩]⟩
  config := { threads := 1 }
  loopId := 0
  threads := 1
  live := ⟨[⟨1⟩, ⟨2⟩, ⟨1⟩, ⟨2⟩], [], [⟨1⟩, ⟨1⟩]⟩
  dominance := ⟨⟨[], #[]⟩, ⟨[], #[]⟩⟩
  climbLimit := 4

end Repeated

namespace Dispatch

/-- The exit of the function that counts returns the counter, which is loaded again. -/
theorem install_reads_reloads_counting :
    ∃ d q, (install Counting.setting).apply Counting.program = (.ok d, q) ∧
      Counting.program.PlacedOnce Counting.func.blocks ∧
      Liveness.ofLoop Counting.program Counting.loop = .ok Counting.setting.live ∧
      (q.loadsIn d.block).length = 1 ∧
      ∃ instr', q.instr? ⟨8⟩ = some instr' ∧ List.Forall₂
        (ReadAgain [⟨1⟩] (q.loadsIn d.block)) [.instr ⟨1⟩] instr'.op.operands := by
  have hok : ((install Counting.setting).apply Counting.program).1.isOk := by decide +kernel
  obtain ⟨d, q, hinstall⟩ := Edit.exists_of_isOk hok
  have honce : Counting.program.PlacedOnce Counting.func.blocks :=
    Program.placedOnce_of_forall (by decide)
  have hlive : Liveness.ofLoop Counting.program Counting.loop = .ok Counting.setting.live := by
    decide +kernel
  have hinside : ∀ b ∈ Counting.setting.loop.blocks, b ∈ Counting.func.blocks := by decide
  obtain ⟨-, hlength, hread, -⟩ := install_reads_reloads hinstall rfl honce hinside hlive
  refine ⟨d, q, hinstall, honce, hlive, hlength, ?_⟩
  exact hread ⟨4⟩ (by decide) (by decide) ⟨8⟩ _ ⟨_, rfl, by decide⟩ rfl

/-- The live-out is loaded for both of its positions, and the exit reads the second load, not
the first. -/
theorem install_skips_reload_repeated :
    ∃ d q load other instr', (install Repeated.setting).apply Repeated.program = (.ok d, q) ∧
      Repeated.program.PlacedOnce [⟨0⟩, ⟨1⟩, ⟨2⟩] ∧
      Liveness.ofLoop Repeated.program Repeated.setting.loop = .ok Repeated.setting.live ∧
      Repeated.setting.live.liveOut[0]? = some ⟨1⟩ ∧
      Repeated.program.op? ⟨4⟩ = some (.ret (some (.instr ⟨1⟩))) ∧
      q.loadsIn d.block = [load, other] ∧ q.instr? ⟨4⟩ = some instr' ∧
      instr'.op.operands = [.instr other] ∧ other ≠ load := by
  have hrun : (((install Repeated.setting).apply Repeated.program).1.toOption.any fun d =>
      ((install Repeated.setting).apply Repeated.program).2.loadsIn d.block = [⟨12⟩, ⟨14⟩] ∧
      ∃ instr' ∈ ((install Repeated.setting).apply Repeated.program).2.instr? ⟨4⟩,
        instr'.op.operands = [.instr ⟨14⟩]) := by decide +kernel
  rcases hinstall : (install Repeated.setting).apply Repeated.program with ⟨failure | d, q⟩
  · rw [hinstall] at hrun
    cases hrun
  · rw [hinstall] at hrun
    obtain ⟨hloads, instr', hinstr', hoperands⟩ := of_decide_eq_true hrun
    exact ⟨d, q, ⟨12⟩, ⟨14⟩, instr', rfl, Program.placedOnce_of_forall (by decide),
      by decide +kernel, rfl, rfl, hloads, hinstr', hoperands, by decide⟩

end Dispatch

end Decouple
