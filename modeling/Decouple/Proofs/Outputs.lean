import Decouple.Proofs.Ownership
import Decouple.Proofs.Passing

/-!
# The outputs of the workers

Live-outs come back through the structure of the outputs. Each has a field of its own, and one
instruction of all the workers stores to it, at the exit of the worker that runs the live-out
(`Split.WrittenOnce`). The block in the place of the loop loads the same field, and what reads
the live-out outside the loop reads the loaded value from then on (`Split.ReadBack`). A worker
numbers all live-outs before it picks out its own, and the block numbers them again.

The worker of a live-out stores its copy of it if the live-out is no live-in as well, which it is
only if it has no result and is read all the same.
-/

namespace Decouple

open Outcome

/-- No instruction reads the result of an instruction that has none. -/
def Program.ReadsResults (p : Program) : Prop :=
  ∀ i instr e, p.instr? i = some instr → .instr e ∈ instr.op.operands →
    p.valueType (.instr e) ≠ .ok .void

def Program.storesTo (p : Program) (layout : StructRef) (k : Nat) (i : InstrRef) : Bool :=
  match p.op? i with
  | some (.store _ (.instr addr)) =>
      match p.op? addr with
      | some (.fieldAddr _ layout' k') => layout' = layout ∧ k' = k
      | _ => false
  | _ => false

/-- The way to field `k` of the outputs from the structure at `argPtr`: the outputs are at
`outPtr` and the field is at `addr`. -/
structure Exchange.OutPath (exchange : Exchange) (q : Program) (argPtr outPtr addr : InstrRef)
    (k : Nat) : Prop where
  toOuts : q.op? outPtr = some (.fieldAddr (.instr argPtr) exchange.args exchange.outField)
  toField : q.op? addr = some (.fieldAddr (.instr outPtr) exchange.outs k)

/-- One of all the stores of the workers is into field `k` of the outputs. It is at the exit of
the worker that runs `out`, and it stores the copy of `out` that this worker has. -/
def Split.WrittenOnce (split : Split) (plan : Plan) (q : Program) (k : Nat) (out : InstrRef) :
    Prop :=
  ∃ thread w store copy addr outPtr argPtr, plan.threadOf? out = some thread ∧
    split.workers[thread]? = some w ∧ w.thread = thread ∧
    (split.workers.flatMap Worker.outStores).filter (q.storesTo split.exchange.outs k) = [store] ∧
    store ∈ w.outStores ∧ q.RunsBefore w.exit [outPtr, addr, store] (.ret (some .null)) ∧
    w.copyMap[out]? = some copy ∧ q.op? store = some (.store (.instr copy) (.instr addr)) ∧
    split.exchange.OutPath q argPtr outPtr addr k ∧
    q.op? argPtr = some (.cast (.param w.func 0))

/-- Where an instruction outside the loop read `out`, it reads `load` now. -/
def Split.ReadsInstead (p : Program) (func : Func) (loop : Loop) (q : Program)
    (out load : InstrRef) : Prop :=
  ∀ b ∈ func.blocks, b ∉ loop → ∀ i instr, p.Lists b i → p.instr? i = some instr →
    ∃ instr', q.instr? i = some instr' ∧ ∀ n : Nat, instr.op.operands[n]? = some (Value.instr out) →
      instr'.op.operands[n]? = some (Value.instr load)

/-- The block in the place of the loop loads field `k` of the outputs, with the type of `out`,
before it goes to the exit. What it loads is read in the place of `out`, if `out` is the live-out
at this position only. -/
def Split.ReadBack (split : Split) (p : Program) (func : Func) (loop : Loop) (q : Program)
    (k : Nat) (out : InstrRef) : Prop :=
  ∃ ty load addr outPtr argPtr,
    q.RunsBefore split.block [argPtr, outPtr, addr, load] (.br loop.exit) ∧
    q.op? argPtr = some (.alloca (.struct split.exchange.args)) ∧
    split.exchange.OutPath q argPtr outPtr addr k ∧ q.op? load = some (.load (.instr addr)) ∧
    q.valueType (.instr load) = .ok ty ∧ q.fieldType? split.exchange.outs k = some ty ∧
    p.valueType (.instr out) = .ok ty ∧
    ((∀ k', split.live.liveOut[k']? = some out → k' = k) →
      Split.ReadsInstead p func loop q out load)

section Lists

variable {α β : Type}

/-- If one member only has a list that is not empty, then joining all lists gives that list. -/
theorem flatMap_eq_of_unique {f : α → List β} {key : α → Nat} {xs : List α} {a : α} (ha : a ∈ xs)
    (hnodup : (xs.map key).Nodup) (hother : ∀ x ∈ xs, key x ≠ key a → f x = []) :
    xs.flatMap f = f a := by
  induction xs with
  | nil => exact absurd ha List.not_mem_nil
  | cons x xs ih =>
      rw [List.map_cons, List.nodup_cons] at hnodup
      obtain ⟨hnew, hnodup⟩ := hnodup
      have hrest : ∀ x ∈ xs, key x ≠ key a → f x = [] :=
        fun y hy => hother y (List.mem_cons_of_mem _ hy)
      rw [List.flatMap_cons]
      rcases List.mem_cons.1 ha with rfl | ha
      · have hnil : xs.flatMap f = [] := by
          refine List.flatMap_eq_nil_iff.2 fun y hy => hrest y hy fun heq => hnew ?_
          exact heq ▸ List.mem_map_of_mem hy
        rw [hnil, List.append_nil]
      · have hne : key x ≠ key a := fun heq => hnew (heq ▸ List.mem_map_of_mem ha)
        rw [hother x (List.mem_cons_self ..) hne, List.nil_append, ih ha hnodup hrest]

theorem filter_zipIdx {xs : List α} {k : Nat} {a : α} (h : xs[k]? = some a) (start : Nat) :
    (xs.zipIdx start).filter (fun entry => entry.2 = start + k) = [(a, start + k)] := by
  induction xs generalizing k start with
  | nil => cases h
  | cons x xs ih =>
      rw [List.zipIdx_cons, List.filter_cons]
      cases k with
      | zero =>
          obtain rfl := Option.some.inj h
          have hnil : (xs.zipIdx (start + 1)).filter (fun entry => entry.2 = start + 0) = [] := by
            refine List.filter_eq_nil_iff.2 fun entry hentry => ?_
            have hle := List.le_snd_of_mem_zipIdx hentry
            rw [decide_eq_true_iff]
            omega
          rw [hnil]
          exact if_pos (decide_eq_true rfl)
      | succ k =>
          have hrest := ih h (start + 1)
          rw [Nat.add_assoc, Nat.add_comm 1] at hrest
          simp [hrest]

end Lists

namespace Worker

variable {s : Setting} {exchange : Exchange} {hook? : Option FuncRef} {types : List Ty}
  {fields : List (Value × Nat)} {start start' : Nat} {w : Worker} {q : Program}

theorem filter_ownedOuts {k : Nat} {out : InstrRef} (h : s.live.liveOut[k]? = some out)
    (thread : Nat) : (ownedOuts s thread).filter (fun owned => owned.2 = k) =
      if s.plan.threadOf? out = some thread then [(out, k)] else [] := by
  have hzip := filter_zipIdx h 0
  simp only [Nat.zero_add] at hzip
  rw [ownedOuts, List.filter_comm, hzip, List.filter_singleton]
  simp

/-- At its exit the worker stores what `σ` has for the live-out into the field of its position
in the outputs, which it finds behind `argPtr`. -/
def Gives (w : Worker) (exchange : Exchange) (σ : Renaming) (q : Program) (argPtr : InstrRef)
    (out : InstrRef × Nat) (store : InstrRef) : Prop :=
  ∃ value outPtr addr, σ[Value.instr out.1]? = some value ∧
    q.RunsBefore w.exit [outPtr, addr, store] (.ret (some .null)) ∧
    exchange.OutPath q argPtr outPtr addr out.2 ∧ q.op? store = some (.store value (.instr addr))

theorem Gives.storesTo_eq {σ : Renaming} {argPtr store : InstrRef} {out : InstrRef × Nat}
    (h : w.Gives exchange σ q argPtr out store) (k : Nat) :
    q.storesTo exchange.outs k store = decide (out.2 = k) := by
  obtain ⟨value, outPtr, addr, -, -, hpath, hstore⟩ := h
  simp [Program.storesTo, hstore, hpath.toField]

theorem Linked.gives (h : Linked s exchange hook? types fields start start' w q) :
    List.Forall₂ (w.Gives exchange (w.substitution s.live.liveIn (argPtrAt hook? start)) q
      (argPtrAt hook? start)) (ownedOuts s w.thread) w.outStores := by
  obtain ⟨last, hruns⟩ := h.exit
  obtain ⟨hlength, hstored⟩ := List.forall₂_iff_get.1 h.stored
  have hrefs : w.outStores.length = fields.length := by rw [h.outStores_eq, length_storeRefs]
  refine List.forall₂_iff_get.2 ⟨hlength.trans hrefs.symm, fun k hk hk' => ?_⟩
  have hlt : k < fields.length := hrefs ▸ hk'
  obtain ⟨hvalue, hposition⟩ := hstored k hk hlt
  have hfield : fields[k]? = some (fields.get ⟨k, hlt⟩) := List.getElem?_eq_getElem hlt
  have href : w.outStores.get ⟨k, hk'⟩ = ⟨start' + 1 + 2 * k + 1⟩ := by
    have hget := @getElem?_storeRefs (start' + 1) fields k _ hfield
    rw [← h.outStores_eq, List.getElem?_eq_getElem hk'] at hget
    exact Option.some.inj hget
  obtain ⟨hout, haddr, hstore⟩ :=
    @getElem?_exitCode exchange start' (argPtrAt hook? start) fields k _ hfield
  have hbound := (List.getElem?_eq_some_iff.1 hstore).1
  have haddrRef : start' + (2 * k + 1) = start' + 1 + 2 * k := by omega
  have hstoreRef : start' + (2 * k + 2) = start' + 1 + 2 * k + 1 := by omega
  have haddr := hruns.op?_eq haddr
  have hstore := hruns.op?_eq hstore
  rw [haddrRef, hposition] at haddr
  rw [hstoreRef] at hstore
  rw [href]
  refine ⟨_, ⟨start'⟩, ⟨start' + 1 + 2 * k⟩, hvalue, hruns.runsBefore ?_ ?_,
    ⟨hruns.op?_eq hout, haddr⟩, hstore⟩
  · simp
    omega
  · simp [mem_newRefs_iff]
    omega

/-- Among the stores of the worker, those into field `k` are those of its live-outs at
position `k`. -/
theorem Linked.filter_outStores (h : Linked s exchange hook? types fields start start' w q)
    (k : Nat) :
    List.Forall₂ (w.Gives exchange (w.substitution s.live.liveIn (argPtrAt hook? start)) q
      (argPtrAt hook? start)) ((ownedOuts s w.thread).filter fun owned => owned.2 = k)
      (w.outStores.filter (q.storesTo exchange.outs k)) := by
  refine List.rel_filter ?_ h.gives
  intro out store hgives
  simp only [hgives.storesTo_eq k]

theorem Linked.cast_eq (h : Linked s exchange hook? types fields start start' w q) :
    q.op? (argPtrAt hook? start) = some (.cast (.param w.func 0)) := by
  obtain ⟨header, last, -, hruns⟩ := h.entry
  exact hruns.op?_eq (getElem?_entryCode_argPtr hook? w.func)

theorem getElem?_copyRenaming_instr (w : Worker) (i : InstrRef) :
    (copyRenaming w.copies)[Value.instr i]? = w.copyMap[i]?.map .instr := by
  rw [getElem?_copyRenaming, getElem?_copyMap]
  simp [Function.comp_def]

end Worker

namespace Splitter

variable {p q between : Program} {func : Func} {split : Split} {s : Setting} {d : Dispatch}
  {code : List (Op × Ty)} {k : Nat} {out : InstrRef}

namespace Passes

/-- A live-out that is read has a result and so is defined in the loop. -/
theorem not_mem_liveIn (h : Passes s p func d code between q split) (hreads : p.ReadsResults)
    (hout : out ∈ s.live.liveOut) : .instr out ∉ s.live.liveIn := by
  intro hin
  obtain ⟨hlisted, reader, instr, b, hreader, hoperand, -⟩ := (h.live.mem_liveOut_iff out).1 hout
  obtain ⟨-, hforeign, -⟩ := (h.live.mem_liveIn_iff _).1 hin
  obtain ⟨read, hread⟩ := h.live.instr? out hlisted
  have hvoid := hreads reader instr out hreader hoperand
  rw [Program.valueType_of_instr? hread] at hvoid
  refine hforeign out rfl ((h.live.mem_defined_iff out).2 ⟨hlisted, read, hread, ?_⟩)
  exact decide_eq_true fun heq => hvoid (congrArg Except.ok heq)

theorem map_thread_workers (h : Passes s p func d code between q split) :
    split.workers.map Worker.thread = List.range s.plan.threads :=
  map_eq_of_forall₂ h.workers

/-- A worker stores into the field of a live-out only if its thread runs the live-out. -/
theorem outStores_eq_nil (h : Passes s p func d code between q split)
    (hk : s.live.liveOut[k]? = some out) {w : Worker} (hw : w ∈ split.workers)
    (hthread : s.plan.threadOf? out ≠ some w.thread) :
    w.outStores.filter (q.storesTo d.exchange.outs k) = [] := by
  obtain ⟨_, -, -, hook?, types, fields, start, start', hlinked⟩ :=
    exists_of_forall₂_of_mem h.workers hw
  have hstores := hlinked.filter_outStores k
  rw [Worker.filter_ownedOuts hk, if_neg hthread] at hstores
  exact List.forall₂_nil_left_iff.1 hstores

/-- The worker that runs a live-out stores into its field, and no other worker does. -/
theorem writtenOnce (h : Passes s p func d code between q split) (hreads : p.ReadsResults)
    (hmade : s.plan.Made) (hk : s.live.liveOut[k]? = some out) :
    split.WrittenOnce s.plan q k out := by
  have hmem := List.mem_of_getElem? hk
  obtain ⟨thread, hthread⟩ := h.owned out hmem
  have hthreads := h.map_thread_workers
  obtain ⟨w, hw, hwthread⟩ : ∃ w, split.workers[thread]? = some w ∧ w.thread = thread := by
    rw [← Option.map_eq_some_iff, ← List.getElem?_map, hthreads]
    exact List.getElem?_range (hmade.threadOf?_lt hthread)
  have hworker := List.mem_of_getElem? hw
  obtain ⟨_, -, -, hook?, types, fields, start, start', hlinked⟩ :=
    exists_of_forall₂_of_mem h.workers hworker
  have hstores := hlinked.filter_outStores k
  rw [Worker.filter_ownedOuts hk, hwthread, if_pos hthread] at hstores
  obtain ⟨store, rest, ⟨value, outPtr, addr, hvalue, hruns, hpath, hstore⟩, hrest, hfilter⟩ :=
    List.forall₂_cons_left_iff.1 hstores
  obtain rfl := List.forall₂_nil_left_iff.1 hrest
  -- no live-in hides the copy
  rw [Worker.substitution, loadRenaming_of_not_mem (h.not_mem_liveIn hreads hmem),
    Worker.getElem?_copyRenaming_instr] at hvalue
  obtain ⟨copy, hcopy, rfl⟩ := Option.map_eq_some_iff.1 hvalue
  have hsingle : (split.workers.flatMap Worker.outStores).filter
      (q.storesTo d.exchange.outs k) = [store] := by
    rw [List.filter_flatMap, flatMap_eq_of_unique hworker (hthreads ▸ List.nodup_range), hfilter]
    intro w' hw' hne
    refine h.outStores_eq_nil hk hw' ?_
    rw [hthread, ← hwthread]
    exact fun heq => hne (Option.some.inj heq).symm
  have hmemstore : store ∈ w.outStores := by
    refine List.mem_of_mem_filter ?_ (p := q.storesTo d.exchange.outs k)
    rw [hfilter]
    exact List.mem_singleton_self store
  rw [← h.exchange_eq] at hsingle hpath
  exact ⟨thread, w, store, copy, addr, outPtr, _, hthread, hw, hwthread, hsingle, hmemstore, hruns,
    hcopy, hstore, hpath, hlinked.cast_eq⟩

theorem code_eq_append (h : Passes s p func d code between q split) :
    ∃ ops, code = ops ++ [(.br s.loop.exit, .void)] := by
  obtain ⟨init, dispatch, join, types, -, heq⟩ := h.installed.code_eq
  exact ⟨_, heq⟩

/-- The block in the place of the loop goes to the exit at last. -/
theorem runsBefore (h : Passes s p func d code between q split) {is : List InstrRef}
    (his : is.Pairwise fun i j => i.index < j.index)
    (hcode : ∀ i ∈ is, i ∈ newRefs p.instrs.size (code.length - 1)) :
    q.RunsBefore split.block is (.br s.loop.exit) := by
  obtain ⟨ops, rfl⟩ := h.code_eq_append
  obtain ⟨instr, hinstr, -, hop⟩ := h.instr?_code_of_new List.getElem?_concat_length
    (by simp [Op.operands])
  obtain ⟨block, hblock, hlist⟩ := h.block?_eq
  rw [List.length_append, newRefs_add] at hlist
  rw [List.length_append, List.length_singleton, Nat.add_sub_cancel] at hcode
  exact ⟨block, _, _, hblock, hlist, newRefs_sublist his hcode,
    hop ▸ Program.op?_of_instr? hinstr⟩

/-- The field of a live-out has the type of the live-out. -/
theorem fieldType_outs (h : Passes s p func d code between q split) {types : List Ty}
    (htypes : between.valueTypes (s.live.liveOut.map .instr) = .ok types)
    (hk : s.live.liveOut[k]? = some out) :
    ∃ ty, types[k]? = some ty ∧ q.fieldType? d.exchange.outs k = some ty ∧
      p.valueType (.instr out) = .ok ty := by
  have htypes := h.larger.keeps.valueTypes_eq_ok htypes
  have hvalue : (s.live.liveOut.map Value.instr)[k]? = some (.instr out) := by simp [hk]
  obtain ⟨ty, hty, hafter⟩ := Program.valueType_of_valueTypes htypes hvalue
  obtain ⟨instr, hinstr⟩ := h.instr?_of_mem_liveOut (List.mem_of_getElem? hk)
  have hbefore := Program.valueType_of_instr? hinstr
  obtain rfl := Except.ok.inj ((h.keeps.valueType_eq_ok hbefore).symm.trans hafter)
  obtain ⟨name, types', htypes', houts⟩ := h.fits.outs
  obtain rfl := Except.ok.inj (htypes.symm.trans htypes')
  exact ⟨_, hty, (Program.fieldType?_of_structTy? houts k).trans hty, hbefore⟩

/-- What a block outside the loop lists is renamed. -/
theorem operands_outside (h : Passes s p func d code between q split) {b : BlockRef}
    (hb : b ∈ func.blocks) (hout : b ∉ s.loop) {i : InstrRef} {instr : Instr} (hi : p.Lists b i)
    (hinstr : p.instr? i = some instr) :
    ∃ instr', q.instr? i = some instr' ∧ instr'.op.operands =
      instr.op.operands.map (Dispatch.outRenaming s d.workers p.instrs.size).rename := by
  have hlt : ∀ i ∈ s.live.liveOut, i.index < p.instrs.size := by
    intro i hi
    obtain ⟨instr, hinstr⟩ := h.instr?_of_mem_liveOut hi
    exact (Array.getElem?_eq_some_iff.1 hinstr).1
  exact ⟨_, h.larger.instr?_kept (h.installed.instr?_some hinstr),
    h.installed.operands_outside hlt hb hout hi instr⟩

/-- If a live-out stands at one position only, its readers outside the loop read the value loaded
from there. -/
theorem readsInstead (h : Passes s p func d code between q split)
    (hk : s.live.liveOut[k]? = some out) (hunique : ∀ k', s.live.liveOut[k']? = some out → k' = k)
    {unpack : Nat} (hunpack : unpack = 2 * s.live.liveIn.length + d.workers.length + 4) :
    Split.ReadsInstead p func s.loop q out ⟨p.instrs.size + (unpack + 2 * k + 2)⟩ := by
  have hmem : Value.instr out ∈ s.live.liveOut.map Value.instr :=
    List.mem_map_of_mem (List.mem_of_getElem? hk)
  intro b hb hout i instr hi hinstr
  obtain ⟨instr', hinstr', hoperands⟩ := h.operands_outside hb hout hi hinstr
  rw [Dispatch.outRenaming] at hoperands
  obtain ⟨k', hk', hlookup⟩ := @loadRenaming_of_mem ∅ (p.instrs.size + 1 +
    2 * s.live.liveIn.length + (d.workers.length + 3) + 1) _ _ hmem
  obtain rfl : k' = k := hunique k' (by simpa using hk')
  refine ⟨instr', hinstr', fun n hn => ?_⟩
  rw [hoperands, List.getElem?_map, hn, Option.map_some, Renaming.rename, hlookup, hunpack,
    Option.getD_some]
  congr 3
  omega

/-- The block in the place of the loop loads from the field of a live-out. -/
theorem readBack (h : Passes s p func d code between q split)
    (hk : s.live.liveOut[k]? = some out) : split.ReadBack p func s.loop q k out := by
  rw [Split.ReadBack, h.exchange_eq, h.live_eq]
  obtain ⟨init, dispatch, join, types, htypes, heq⟩ := h.installed.code_eq
  obtain ⟨ty, hty, hfield, htype⟩ := h.fieldType_outs htypes hk
  obtain ⟨unpack, hunpack⟩ : ∃ n, n = 2 * s.live.liveIn.length + d.workers.length + 4 := ⟨_, rfl⟩
  obtain ⟨hout, haddr, hload⟩ := @getElem?_replacementCode_load d.exchange p.instrs.size types init
    dispatch join d.workers s.live.liveIn s.loop.exit k ty hty unpack hunpack
  rw [← heq] at hout haddr hload
  obtain ⟨halloca, -⟩ := h.code_args
  have hlt : unpack + 2 * k + 2 < code.length - 1 := by
    have hle := Nat.le_sub_one_of_lt (List.getElem?_eq_some_iff.1 hload).1
    refine Nat.lt_of_le_of_ne hle fun hlast => ?_
    obtain ⟨ops, rfl⟩ := h.code_eq_append
    rw [hlast, List.length_append, List.length_singleton, Nat.add_sub_cancel,
      List.getElem?_concat_length] at hload
    cases hload
  obtain ⟨argInstr, hargInstr, -, hargOp⟩ := h.instr?_code_of_new halloca (by simp [Op.operands])
  obtain ⟨outInstr, houtInstr, -, houtOp⟩ := h.instr?_code_of_new hout (by simp [Op.operands])
  obtain ⟨addrInstr, haddrInstr, -, haddrOp⟩ := h.instr?_code_of_new haddr (by
    simp [Op.operands])
  obtain ⟨loadInstr, hloadInstr, rfl, hloadOp⟩ := h.instr?_code_of_new hload (by
    simp [Op.operands]
    omega)
  have haddrRef : p.instrs.size + (unpack + 2 * k + 1) = p.instrs.size + unpack + 1 + 2 * k := by
    omega
  rw [haddrRef] at haddrInstr
  refine ⟨_, _, _, _, ⟨p.instrs.size⟩, h.runsBefore ?_ ?_,
    hargOp ▸ Program.op?_of_instr? hargInstr,
    ⟨houtOp ▸ Program.op?_of_instr? houtInstr, haddrOp ▸ Program.op?_of_instr? haddrInstr⟩,
    hloadOp ▸ Program.op?_of_instr? hloadInstr, Program.valueType_of_instr? hloadInstr, hfield,
    htype, fun hunique => h.readsInstead hk hunique hunpack⟩
  · simp
    omega
  · simp [mem_newRefs_iff]
    omega

end Passes

/-- Every live-out has one writer among the workers, and its reader reads what is written. -/
theorem split_returns_outs {splitter splitter' : Splitter} {f : FuncRef} {loop : Loop}
    {deps : Dependences} {plan : Plan}
    (h : splitter.split p f loop deps plan = (.ok split, splitter', q)) (hmade : plan.Made)
    (hreads : p.ReadsResults) :
    ∃ func, p.func? f = some func ∧ ∀ k out, split.live.liveOut[k]? = some out →
      split.WrittenOnce plan q k out ∧ split.ReadBack p func loop q k out := by
  obtain ⟨s, func, d, code, between, rfl, rfl, rfl, hpasses⟩ := passes_of_split h
  refine ⟨func, hpasses.installed.lookup, fun k out hk => ?_⟩
  rw [hpasses.live_eq] at hk
  exact ⟨hpasses.writtenOnce hreads hmade hk, hpasses.readBack hk⟩

end Splitter

namespace Counting

theorem readsResults : program.ReadsResults := by
  have hall : ∀ instr ∈ program.instrs.toList, ∀ v ∈ instr.op.operands,
      program.valueType v ≠ .ok .void := by decide
  intro i instr e hinstr he
  exact hall instr (Array.mem_toList_iff.2 (Array.mem_of_getElem? hinstr)) _ he

end Counting

namespace Splitter

/-- The exit of the function that counts returns the counter, which the first thread runs. -/
theorem split_returns_outs_counting :
    ∃ result splitter' q, (ofConfig Config.standard).split Counting.program ⟨0⟩ Counting.loop
        Counting.setting.deps Counting.setting.plan = (.ok result, splitter', q) ∧
      Counting.setting.plan.Made ∧ Counting.program.ReadsResults ∧
      result.live.liveOut[0]? = some ⟨1⟩ ∧ result.workers.length = 2 ∧
      result.WrittenOnce Counting.setting.plan q 0 ⟨1⟩ ∧
      result.ReadBack Counting.program Counting.func Counting.loop q 0 ⟨1⟩ := by
  obtain ⟨result, splitter', q, hsplit, hrun⟩ := exists_of_any (ofConfig Config.standard)
    Counting.program ⟨0⟩ Counting.loop Counting.setting.deps Counting.setting.plan
    (fun result _ => result.live.liveOut[0]? = some ⟨1⟩ ∧ result.workers.length = 2)
    (by decide +kernel)
  obtain ⟨hout, htwo⟩ := of_decide_eq_true hrun
  obtain ⟨func, hfunc, hreturns⟩ := split_returns_outs hsplit Counting.made Counting.readsResults
  obtain rfl : Counting.func = func := Option.some.inj hfunc
  exact ⟨result, splitter', q, hsplit, Counting.made, Counting.readsResults, hout, htwo,
    hreturns 0 ⟨1⟩ hout⟩

end Splitter

end Decouple
