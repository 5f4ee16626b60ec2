import Decouple.Proofs.Passing
import Decouple.Proofs.WorkerFlow

/-!
# The arguments of the workers

Live-ins go through the structure of the arguments (`Split.MarshalsArgs`): each has a field of
its own, of the type it has; the block in the place of the loop stores it there before it starts
the workers, and every worker loads it from there before it enters the loop. Three places count
the live-ins, each for itself, and none of the steps between them changes a type.

A live-in that is a live-out as well is not stored if a block of the function lists the reference
of its store before the reference is taken: the store is then renamed with the readers of
live-outs.
-/

namespace Decouple

open Outcome

namespace Worker

/-- In its entry the worker loads `v` from field `k` of the arguments, which its parameter leads
to, with the type `ty`, before it goes to its copy of the header; and `σ` has what it loads for
`v`. -/
def Receives (w : Worker) (exchange : Exchange) (loop : Loop) (σ : Renaming) (q : Program)
    (k : Nat) (v : Value) (ty : Ty) : Prop :=
  ∃ header argPtr addr load, w.blockMap[loop.header]? = some header ∧
    q.RunsBefore w.entry [argPtr, addr, load] (.br header) ∧
    q.op? argPtr = some (.cast (.param w.func 0)) ∧
    q.op? addr = some (.fieldAddr (.instr argPtr) exchange.args k) ∧
    q.op? load = some (.load (.instr addr)) ∧ q.valueType (.instr load) = .ok ty ∧
    σ[v]? = some (.instr load)

section Linked

variable {s : Setting} {exchange : Exchange} {hook? : Option FuncRef} {types : List Ty}
  {fields : List (Value × Nat)} {start start' : Nat} {w : Worker} {q : Program}

theorem Linked.receives (h : Linked s exchange hook? types fields start start' w q)
    (hnodup : s.live.liveIn.Nodup) {k : Nat} {v : Value} {ty : Ty}
    (hv : s.live.liveIn[k]? = some v) (hty : types[k]? = some ty) :
    w.Receives exchange s.loop (w.substitution s.live.liveIn (argPtrAt hook? start)) q k v ty := by
  obtain ⟨header, last, hheader, hruns⟩ := h.entry
  have hargPtr := @getElem?_entryCode_argPtr exchange start types hook? w.func
  obtain ⟨haddr, hload⟩ := @getElem?_entryCode_load exchange start types hook? w.func k ty hty
  have hlt := (List.getElem?_eq_some_iff.1 hload).1
  -- the references of the two instructions, counted from the pointer to the arguments
  have hptr : (argPtrAt hook? start).index = start + (hookCode hook?).length := rfl
  have haddrRef : start + ((hookCode hook?).length + 1 + 2 * k) =
      (argPtrAt hook? start).index + 1 + 2 * k := by omega
  have hloadRef : start + ((hookCode hook?).length + 2 + 2 * k) =
      (argPtrAt hook? start).index + 1 + 2 * k + 1 := by omega
  obtain ⟨name, hname⟩ := hruns.code _ _ _ hload
  have haddr := hruns.op?_eq haddr
  rw [haddrRef] at haddr
  rw [hloadRef] at hname
  refine ⟨header, argPtrAt hook? start, _, _, hheader, hruns.runsBefore ?_ ?_,
    hruns.op?_eq hargPtr, haddr, Program.op?_of_instr? hname, Program.valueType_of_instr? hname,
    loadRenaming_of_nodup hnodup hv⟩
  · simp
    omega
  · simp [mem_newRefs_iff]
    omega

end Linked

end Worker

def Op.isCall : Op → Bool
  | .call _ _ => true
  | _ => false

theorem Op.isCall_mapOperands (f : Value → Value) (op : Op) :
    (op.mapOperands f).isCall = op.isCall := by
  cases op <;> rfl

namespace Split

/-- Before it calls anything, the block in the place of the loop stores `v` into field `k` of
the structure at `argPtr`. What it stores is not `v` itself only if `v` is a live-out and a
block outside the loop lists the reference of the storing instruction, which is new. -/
def Sends (split : Split) (p : Program) (func : Func) (loop : Loop) (q : Program)
    (argPtr : InstrRef) (k : Nat) (v : Value) : Prop :=
  ∃ block before after addr store stored, q.block? split.block = some block ∧
    block.instrs = before ++ after ∧ [argPtr, addr, store].Sublist before ∧
    (∀ i ∈ before, ∀ op, q.op? i = some op → ¬ op.isCall) ∧
    q.op? addr = some (.fieldAddr (.instr argPtr) split.exchange.args k) ∧
    q.op? store = some (.store stored (.instr addr)) ∧
    ((v ∈ split.live.liveOut.map .instr → ∀ b ∈ func.blocks, b ∉ loop → ¬ p.Lists b store) →
      stored = v)

/-- The live-ins are passed to the workers: the structure of the arguments has a field for each
of them and the outputs behind, the block in the place of the loop stores them, and every worker
loads them and reads what it loaded. -/
structure MarshalsArgs (split : Split) (p : Program) (func : Func) (loop : Loop) (q : Program) :
    Prop where
  layout : ∃ name types, q.structTy? split.exchange.args =
      some { name, fields := types ++ [.struct split.exchange.outs] } ∧
    types.length = split.live.liveIn.length
  outField_eq : split.exchange.outField = split.live.liveIn.length
  typesKept : ∀ v ty, p.valueType v = .ok ty → q.valueType v = .ok ty
  sent : ∃ argPtr, q.op? argPtr = some (.alloca (.struct split.exchange.args)) ∧
    ∀ k v, split.live.liveIn[k]? = some v → split.Sends p func loop q argPtr k v
  received : ∀ w ∈ split.workers, ∃ σ : Renaming,
    (∀ k v, split.live.liveIn[k]? = some v → ∃ ty, q.valueType v = .ok ty ∧
      q.fieldType? split.exchange.args k = some ty ∧
      w.Receives split.exchange loop σ q k v ty) ∧
    (∀ v, v ∉ split.live.liveIn → σ[v]? = (Worker.copyRenaming w.copies)[v]?) ∧
    ∀ pair ∈ w.copies, ∃ source copy, q.instr? pair.1 = some source ∧
      q.instr? pair.2 = some copy ∧ copy.op.operands = source.op.operands.map σ.rename

end Split

namespace Splitter

namespace Passes

variable {p q between : Program} {func : Func} {split : Split} {s : Setting} {d : Dispatch}
  {code : List (Op × Ty)}

/-- The block in the place of the loop calls nothing before it has stored all live-ins. -/
theorem not_isCall (h : Passes s p func d code between q split) {k : Nat}
    (hk : k ≤ 2 * s.live.liveIn.length) {op : Op}
    (hop : q.op? ⟨p.instrs.size + k⟩ = some op) : ¬ op.isCall := by
  obtain ⟨halloca, hstores⟩ := h.code_args
  have hnot (op' : Op) (ty : Ty) (hcode : code[k]? = some (op', ty)) (hop' : ¬ op'.isCall) :
      ¬ op.isCall := by
    obtain ⟨instr, hinstr, -, heq⟩ := h.instr?_code hcode
    obtain rfl := Option.some.inj ((Program.op?_of_instr? hinstr).symm.trans hop)
    rw [heq, Op.isCall_mapOperands]
    exact hop'
  have hstore (j : Nat) (hj : j < s.live.liveIn.length) :=
    hstores j s.live.liveIn[j] (List.getElem?_eq_getElem hj)
  cases k with
  | zero => exact hnot _ _ halloca (by simp [Op.isCall])
  | succ k =>
      obtain ⟨j, rfl | rfl⟩ : ∃ j, k = 2 * j ∨ k = 2 * j + 1 := ⟨k / 2, by omega⟩
      · exact hnot _ _ (hstore j (by omega)).1 (by simp [Op.isCall])
      · exact hnot _ _ (hstore j (by omega)).2 (by simp [Op.isCall])

/-- It stores the value it is meant to, unless the value is a live-out and the store is renamed
with the readers of live-outs, for which a block outside the loop has to list it. -/
theorem exists_stored (h : Passes s p func d code between q split) {k : Nat} {v : Value}
    {addr : InstrRef} (hk : code[k]? = some (.store v (.instr addr), .void))
    (haddr : p.instrs.size ≤ addr.index) :
    ∃ stored, q.op? ⟨p.instrs.size + k⟩ = some (.store stored (.instr addr)) ∧
      ((v ∈ s.live.liveOut.map .instr →
        ∀ b ∈ func.blocks, b ∉ s.loop → ¬ p.Lists b ⟨p.instrs.size + k⟩) → stored = v) := by
  obtain ⟨instr, hinstr, -, heq⟩ := h.instr?_code hk
  rw [Op.mapOperands,
    Function.iterate_fixed (Dispatch.rename_of_not_mem (h.not_mem_of_le haddr))] at heq
  refine ⟨_, (Program.op?_of_instr? hinstr).trans (congrArg some heq), fun hfree => ?_⟩
  by_cases hout : v ∈ s.live.liveOut.map .instr
  · rw [Dispatch.count_outside_eq_zero (hfree hout)]
    rfl
  · exact Function.iterate_fixed (Dispatch.rename_of_not_mem hout) _

theorem sends (h : Passes s p func d code between q split) {k : Nat} {v : Value}
    (hv : s.live.liveIn[k]? = some v) :
    split.Sends p func s.loop q ⟨p.instrs.size⟩ k v := by
  obtain ⟨-, hstores⟩ := h.code_args
  obtain ⟨haddr, hstore⟩ := hstores k v hv
  obtain ⟨block, hblock, hlist⟩ := h.block?_eq
  have hlt : 2 * k + 2 < code.length := (List.getElem?_eq_some_iff.1 hstore).1
  obtain ⟨rest, hrest⟩ := Nat.exists_eq_add_of_le (Nat.succ_le_of_lt hlt)
  rw [hrest, newRefs_add] at hlist
  have haddrRef : p.instrs.size + (2 * k + 1) = p.instrs.size + 1 + 2 * k := by omega
  obtain ⟨instr, hinstr, -, heq⟩ := h.instr?_code_of_new haddr (by simp [Op.operands])
  rw [haddrRef] at hinstr
  obtain ⟨stored, hstored, hsame⟩ := h.exists_stored hstore (by simp only; omega)
  refine ⟨block, _, _, ⟨p.instrs.size + 1 + 2 * k⟩, ⟨p.instrs.size + (2 * k + 2)⟩, stored, hblock,
    hlist, newRefs_sublist ?_ ?_, ?_, ?_, hstored, h.live_eq ▸ hsame⟩
  · simp
    omega
  · simp [mem_newRefs_iff]
    omega
  · intro i hi op hop
    obtain ⟨hle, hlt'⟩ := mem_newRefs_iff.1 hi
    obtain ⟨m, hm⟩ := Nat.exists_eq_add_of_le hle
    obtain rfl : i = ⟨p.instrs.size + m⟩ := InstrRef.ext hm
    have hkn : k < s.live.liveIn.length := (List.getElem?_eq_some_iff.1 hv).1
    exact h.not_isCall (by simp only at hlt'; omega) hop
  · rw [h.exchange_eq, ← heq]
    exact Program.op?_of_instr? hinstr

theorem marshalsArgs (h : Passes s p func d code between q split) :
    split.MarshalsArgs p func s.loop q := by
  obtain ⟨name, types, htypes, hargs⟩ := h.fits.args
  obtain ⟨halloca, -⟩ := h.code_args
  constructor
  · rw [h.exchange_eq, h.live_eq]
    exact ⟨name, types, hargs, Program.length_of_valueTypes htypes⟩
  · rw [h.exchange_eq, h.live_eq]
    exact h.fits.outField_eq
  · exact fun v ty => h.keeps.valueType_eq_ok
  · rw [h.exchange_eq, h.live_eq]
    obtain ⟨instr, hinstr, -, heq⟩ := h.instr?_code_of_new halloca (by simp [Op.operands])
    exact ⟨⟨p.instrs.size⟩, heq ▸ Program.op?_of_instr? hinstr, fun k v hv => h.sends hv⟩
  · intro w hw
    obtain ⟨thread, -, -, hook?, types', fields, start, start', hlinked⟩ :=
      exists_of_forall₂_of_mem h.workers hw
    obtain rfl := Except.ok.inj (htypes.symm.trans hlinked.types_eq)
    rw [h.exchange_eq, h.live_eq]
    refine ⟨_, fun k v hv => ?_, fun v hv => loadRenaming_of_not_mem hv, hlinked.copies⟩
    obtain ⟨ty, hty, hvalue⟩ := Program.valueType_of_valueTypes htypes hv
    refine ⟨ty, hvalue, ?_, hlinked.receives h.live.nodup_liveIn hv hty⟩
    rw [Program.fieldType?_of_structTy? hargs,
      List.getElem?_append_left (List.getElem?_eq_some_iff.1 hty).1, hty]

end Passes

/-- Live-ins are passed to the workers, and no loop is refused because of the type of one. -/
theorem split_marshals_args (splitter : Splitter) (p : Program) (f : FuncRef) (loop : Loop)
    (deps : Dependences) (plan : Plan) :
    (∀ split splitter' q, splitter.split p f loop deps plan = (.ok split, splitter', q) →
      ∃ func, p.func? f = some func ∧ split.MarshalsArgs p func loop q) ∧
    ∀ failure splitter' q, splitter.split p f loop deps plan = (.error failure, splitter', q) →
      (∀ value expected found, failure ≠ .rejected (.typeMismatch value expected found)) ∧
        ∀ value, failure ≠ .violated (.noArgField value) := by
  constructor
  · intro split splitter' q h
    obtain ⟨s, func, d, code, between, rfl, rfl, rfl, hpasses⟩ := passes_of_split h
    exact ⟨func, hpasses.installed.lookup, hpasses.marshalsArgs⟩
  · intro failure splitter' q h
    have hcalm := calm_split h
    constructor
    · rintro value expected found rfl
      exact hcalm rfl
    · rintro value rfl
      exact hcalm rfl

/-- The first split of the function that counts passes its argument; the second writes a worker
and is refused then, since the plan leaves the other thread with nothing to do. -/
theorem split_marshals_args_counting :
    (∃ result splitter' q, (ofConfig Config.standard).split Counting.program ⟨0⟩ Counting.loop
        Counting.setting.deps Counting.setting.plan = (.ok result, splitter', q) ∧
      result.live.liveIn = [.param ⟨0⟩ 0] ∧ result.workers.length = 2 ∧
      result.MarshalsArgs Counting.program Counting.func Counting.loop q) ∧
    ∃ failure splitter' q, (ofConfig Config.standard).split Counting.program ⟨0⟩ Counting.loop
        Counting.setting.deps ⟨2, [⟨0, [⟨1⟩, ⟨2⟩, ⟨4⟩, ⟨6⟩]⟩]⟩ = (.error failure, splitter', q) ∧
      (∀ value expected found, failure ≠ .rejected (.typeMismatch value expected found)) ∧
        ∀ value, failure ≠ .violated (.noArgField value) := by
  constructor
  · obtain ⟨result, splitter', q, hsplit, hrun⟩ := exists_of_any (ofConfig Config.standard)
      Counting.program ⟨0⟩ Counting.loop Counting.setting.deps Counting.setting.plan
      (fun result _ => result.live.liveIn = [.param ⟨0⟩ 0] ∧ result.workers.length = 2)
      (by decide +kernel)
    obtain ⟨hin, htwo⟩ := of_decide_eq_true hrun
    obtain ⟨func, hfunc, hmarshals⟩ := (split_marshals_args ..).1 result splitter' q hsplit
    obtain rfl : Counting.func = func := Option.some.inj hfunc
    exact ⟨result, splitter', q, hsplit, hin, htwo, hmarshals⟩
  · have hfails : ((ofConfig Config.standard).split Counting.program ⟨0⟩ Counting.loop
        Counting.setting.deps ⟨2, [⟨0, [⟨1⟩, ⟨2⟩, ⟨4⟩, ⟨6⟩]⟩]⟩).1.isOk = false := by decide +kernel
    rcases hsplit : (ofConfig Config.standard).split Counting.program ⟨0⟩ Counting.loop
      Counting.setting.deps ⟨2, [⟨0, [⟨1⟩, ⟨2⟩, ⟨4⟩, ⟨6⟩]⟩]⟩ with ⟨failure | result, splitter', q⟩
    · exact ⟨failure, splitter', q, rfl,
        (split_marshals_args ..).2 failure splitter' q hsplit⟩
    · rw [hsplit] at hfails
      cases hfails

end Splitter

/-! A loop that calls a function without a result and reads the result all the same. It is a
live-in and a live-out then. The entry lists a reference that is not taken yet and that one of
the stores of the live-ins gets. -/

namespace Waiting

/-- Block 0 leads to the header 1, which goes round through 2 and leaves for 3. Reference 8
is not taken. -/
def program : Program where
  funcs := #[
    { name := "wait"
      params := []
      ret := .i32
      blocks := [⟨0⟩, ⟨1⟩, ⟨2⟩, ⟨3⟩]
      external := false }]
  blocks := #[
    { name := "entry", func := ⟨0⟩, instrs := [⟨8⟩, ⟨0⟩] },
    { name := "header", func := ⟨0⟩, instrs := [⟨1⟩, ⟨2⟩, ⟨3⟩] },
    { name := "latch", func := ⟨0⟩, instrs := [⟨4⟩] },
    { name := "exit", func := ⟨0⟩, instrs := [⟨5⟩] }]
  instrs := #[
    ⟨some ⟨0⟩, .br ⟨1⟩, .void, none⟩,
    ⟨some ⟨1⟩, .call (.func ⟨0⟩) [], .void, none⟩,
    ⟨some ⟨1⟩, .compare .slt (.instr ⟨1⟩) (.i32 3), .i1, some "more"⟩,
    ⟨some ⟨1⟩, .condBr (.instr ⟨2⟩) ⟨2⟩ ⟨3⟩, .void, none⟩,
    ⟨some ⟨2⟩, .br ⟨1⟩, .void, none⟩,
    ⟨some ⟨3⟩, .ret (some (.instr ⟨1⟩)), .void, none⟩]
  structs := #[]

def loop : Loop := ⟨⟨1⟩, ⟨0⟩, ⟨3⟩, [⟨1⟩, ⟨2⟩]⟩

def plan : Plan := ⟨1, [⟨0, [⟨1⟩, ⟨2⟩]⟩]⟩

def config : Config := { threads := 1, verify := false }

end Waiting

/-- The block in the place of the loop has no store of the live-in. -/
theorem Splitter.split_loses_arg_waiting :
    ∃ result splitter' q block, (ofConfig Waiting.config).split Waiting.program ⟨0⟩ Waiting.loop
        ⟨[]⟩ Waiting.plan = (.ok result, splitter', q) ∧
      result.live.liveIn[0]? = some (.instr ⟨1⟩) ∧ q.block? result.block = some block ∧
      ∀ i ∈ block.instrs, ∀ addr, q.op? i ≠ some (.store (.instr ⟨1⟩) addr) := by
  obtain ⟨result, splitter', q, hsplit, hrun⟩ := exists_of_any (ofConfig Waiting.config)
    Waiting.program ⟨0⟩ Waiting.loop ⟨[]⟩ Waiting.plan
    (fun result q => result.live.liveIn[0]? = some (.instr ⟨1⟩) ∧
      ∃ block ∈ q.block? result.block, ∀ i ∈ block.instrs, ∀ op ∈ q.op? i,
        ∀ addr ∈ op.operands, op ≠ .store (.instr ⟨1⟩) addr) (by decide +kernel)
  obtain ⟨hin, block, hblock, hnone⟩ := of_decide_eq_true hrun
  refine ⟨result, splitter', q, block, hsplit, hin, hblock, fun i hi addr hstore => ?_⟩
  exact hnone i hi _ hstore addr (by simp [Op.operands]) rfl

end Decouple
