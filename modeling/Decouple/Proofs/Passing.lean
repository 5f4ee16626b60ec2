import Decouple.Proofs.ArgTypes
import Decouple.Proofs.Replacement
import Decouple.Proofs.Splitting
import Mathlib.Data.List.Sort

/-!
# Values on their way into and out of workers

A split that succeeds, seen from the values that are exchanged (`Passes`): the structures fit
the values in the program that comes out, the block in the place of the loop holds its code, and
every worker takes the live-ins in and gives its live-outs out (`Worker.Linked`). Nothing is
asked of the program: its functions need not be well-formed, and blocks of the loop may be
listed more than once.
-/

namespace Decouple

open Outcome

/-- New references that increase come in this order. -/
theorem newRefs_sublist {start count : Nat} {is : List InstrRef}
    (his : is.Pairwise fun i j => i.index < j.index) (hnew : ∀ i ∈ is, i ∈ newRefs start count) :
    is.Sublist (newRefs start count) := by
  have hantisymm : Std.Antisymm fun i j : InstrRef => i.index < j.index :=
    ⟨fun _ _ hlt hgt => absurd hgt (Nat.lt_asymm hlt)⟩
  have hnodup : is.Nodup := his.imp fun hlt heq => Nat.ne_of_lt hlt (congrArg InstrRef.index heq)
  refine List.sublist_of_subperm_of_pairwise (List.subperm_of_subset hnodup hnew) his ?_
  exact List.pairwise_map.2 List.pairwise_lt_range'

theorem Op.mapOperands_eq_self {f : Value → Value} {op : Op} (h : ∀ v ∈ op.operands, f v = v) :
    op.mapOperands f = op := by
  cases op with
  | phi incoming =>
      rw [mapOperands, List.map_congr_left, List.map_id]
      intro pair hpair
      exact Prod.ext (h pair.1 (List.mem_map_of_mem hpair)) rfl
  | call callee args =>
      rw [mapOperands, h callee (List.mem_cons_self ..), List.map_congr_left, List.map_id]
      exact fun v hv => h v (List.mem_cons_of_mem _ hv)
  | ret value =>
      cases value with
      | none => rfl
      | some v => exact congrArg (fun v => Op.ret (some v)) (h v (List.mem_singleton_self v))
  | _ => simp_all [operands, mapOperands]

namespace Program

variable {p : Program}

def fieldType? (p : Program) (layout : StructRef) (k : Nat) : Option Ty :=
  (p.structTy? layout).bind fun structTy => structTy.fields[k]?

theorem fieldType?_of_structTy? {layout : StructRef} {name : String}
    {fields : List Ty} (h : p.structTy? layout = some { name, fields }) (k : Nat) :
    p.fieldType? layout k = fields[k]? := by
  rw [fieldType?, h]
  rfl

theorem valueType_of_instr? {i : InstrRef} {instr : Instr}
    (h : p.instr? i = some instr) : p.valueType (.instr i) = .ok instr.ty :=
  bind_eq_ok_iff.2 ⟨instr, instr_eq_ok_iff.2 h, rfl⟩

theorem valueType_of_valueTypes {values : List Value} {types : List Ty}
    (h : p.valueTypes values = .ok types) {k : Nat} {v : Value} (hv : values[k]? = some v) :
    ∃ ty, types[k]? = some ty ∧ p.valueType v = .ok ty := by
  obtain ⟨hlength, hall⟩ := List.forall₂_iff_get.1 (mapM_eq_ok_iff.1 h)
  obtain ⟨hlt, rfl⟩ := List.getElem?_eq_some_iff.1 hv
  have hlt' : k < types.length := hlength ▸ hlt
  exact ⟨types[k], List.getElem?_eq_getElem hlt', hall k hlt hlt'⟩

def op? (p : Program) (i : InstrRef) : Option Op := (p.instr? i).map Instr.op

theorem op?_of_instr? {i : InstrRef} {instr : Instr} (h : p.instr? i = some instr) :
    p.op? i = some instr.op := by
  rw [op?, h]
  rfl

/-- The block runs the instructions in this order, and at last an instruction that does
`final`. -/
def RunsBefore (p : Program) (b : BlockRef) (is : List InstrRef) (final : Op) : Prop :=
  ∃ block before last, p.block? b = some block ∧ block.instrs = before ++ [last] ∧
    is.Sublist before ∧ p.op? last = some final

end Program

structure Enlarges (p q : Program) : Prop extends Grows p q where
  keeps : p.KeepsTypes q

namespace Enlarges

variable {p q r : Program}

theorem refl (p : Program) : Enlarges p p := ⟨.refl p, .refl p⟩

theorem trans (h : Enlarges p q) (h' : Enlarges q r) : Enlarges p r :=
  ⟨h.toGrows.trans h'.toGrows, h.keeps.trans h'.keeps⟩

end Enlarges

namespace Worker

namespace Runs

variable {q : Program} {b : BlockRef} {start : Nat} {code : List (Op × Ty)} {last : InstrRef}
  {final : Op}

theorem op?_eq (h : Runs q b start code last final) {k : Nat} {op : Op} {ty : Ty}
    (hk : code[k]? = some (op, ty)) : q.op? ⟨start + k⟩ = some op := by
  obtain ⟨name, hname⟩ := h.code k op ty hk
  exact Program.op?_of_instr? hname

theorem runsBefore (h : Runs q b start code last final) {is : List InstrRef}
    (his : is.Pairwise fun i j => i.index < j.index)
    (hcode : ∀ i ∈ is, i ∈ newRefs start code.length) : q.RunsBefore b is final := by
  obtain ⟨block, hblock, hlist⟩ := h.listed
  obtain ⟨name, hname⟩ := h.final
  exact ⟨block, _, last, hblock, hlist, newRefs_sublist his hcode, Program.op?_of_instr? hname⟩

end Runs

/-- What a worker reads in the place of other values, if it loads the live-ins behind
`argPtr`. -/
def substitution (w : Worker) (liveIn : List Value) (argPtr : InstrRef) : Renaming :=
  loadRenaming (copyRenaming w.copies) (argPtr.index + 1) liveIn

/-- The worker loads the live-ins, which have the types `types`, in code that starts at `start`,
and stores its live-outs in code that starts at `start'`. -/
structure Linked (s : Setting) (exchange : Exchange) (hook? : Option FuncRef) (types : List Ty)
    (fields : List (Value × Nat)) (start start' : Nat) (w : Worker) (q : Program) : Prop where
  types_eq : q.valueTypes s.live.liveIn = .ok types
  stored : List.Forall₂ (Stored (w.substitution s.live.liveIn (argPtrAt hook? start)))
    (ownedOuts s w.thread) fields
  outStores_eq : w.outStores = storeRefs (start' + 1) fields
  entry : ∃ header last, w.blockMap[s.loop.header]? = some header ∧
    Runs q w.entry start (entryCode exchange hook? w.func start types) last (.br header)
  exit : ∃ last, Runs q w.exit start'
    (exitCode exchange (argPtrAt hook? start) start' fields) last (.ret (some .null))
  copies : ∀ pair ∈ w.copies, ∃ source copy, q.instr? pair.1 = some source ∧
    q.instr? pair.2 = some copy ∧ copy.op.operands = source.op.operands.map
      (w.substitution s.live.liveIn (argPtrAt hook? start)).rename

section Linked

variable {s : Setting} {exchange : Exchange} {hook? : Option FuncRef} {types : List Ty}
  {fields : List (Value × Nat)} {start start' : Nat} {w : Worker} {o p q r : Program}

theorem Linked.grow (h : Linked s exchange hook? types fields start start' w q)
    (hlarger : Enlarges q r) : Linked s exchange hook? types fields start start' w r where
  types_eq := hlarger.keeps.valueTypes_eq_ok h.types_eq
  stored := h.stored
  outStores_eq := h.outStores_eq
  entry := by
    obtain ⟨header, last, hheader, hruns⟩ := h.entry
    exact ⟨header, last, hheader, hruns.grow hlarger.toGrows⟩
  exit := by
    obtain ⟨last, hruns⟩ := h.exit
    exact ⟨last, hruns.grow hlarger.toGrows⟩
  copies := by
    intro pair hpair
    obtain ⟨source, copy, hsource, hcopy, hoperands⟩ := h.copies pair hpair
    exact ⟨source, copy, hlarger.instr?_kept hsource, hlarger.instr?_kept hcopy, hoperands⟩

theorem operands_copied (blockMap : Std.TreeMap BlockRef BlockRef) (op : Op) :
    (copied s blockMap op).operands = op.operands := by
  simp [copied]

theorem linked_of_build {d : Dispatch} {thread : Nat} (hshares : Shares p p s.loop)
    (hpreheader : s.loop.preheader ∉ s.loop) (hexit : s.loop.exit ∉ s.loop)
    (h : (build s d thread).apply p = (.ok w, q)) :
    Grows p q ∧ w.thread = thread ∧ ∃ hook? types fields start start',
      Linked s d.exchange hook? types fields start start' w q := by
  obtain ⟨f, func, blocks, pairs, σ, header, stores, p₁, p₂, w₀, hfunc, hempty, -, hstages, -,
    rfl⟩ := stages_of_build hshares hpreheader hexit h
  have hgrows := hstages.grows hfunc hempty
  obtain ⟨hook?, types, start', fields, -, htypes, rfl, hfields, rfl, -, hentry, hexit⟩ :=
    hstages.bordered.ends
  refine ⟨hgrows, hstages.skeleton.thread_eq, hook?, types, fields, p₂.instrs.size, start', htypes,
    hfields, rfl, ⟨header, _, hstages.header_eq, hentry⟩, ⟨_, hexit⟩, ?_⟩
  intro pair hpair
  obtain ⟨b, -, copy, -, hcopy⟩ := hstages.copied.copies pair hpair
  obtain ⟨source, name, hsource, -, hname⟩ := hstages.copies hpair hcopy
  refine ⟨source, _, hgrows.instr?_kept hsource, hname, ?_⟩
  rw [Op.operands_mapOperands, operands_copied]
  rfl

/-- A program shares the loop with itself if it shares it with any program. -/
theorem Shares.self {loop : Loop} (h : Shares o p loop) : Shares p p loop where
  size_le := Nat.le_refl _
  block? := by
    intro b hb
    obtain ⟨block, -, hblock⟩ := h.block? b hb
    exact ⟨block, hblock, hblock⟩
  instr? := by
    rintro b hb i ⟨block', hblock', hi⟩
    obtain ⟨block, hold, hnew⟩ := h.block? b hb
    obtain rfl := Option.some.inj (hnew.symm.trans hblock')
    exact ⟨(h.instr? b hb i ⟨block, hold, hi⟩).1, rfl⟩
  placed := fun _ _ _ => Iff.rfl

/-- The workers are written one after the other, and none is changed by a later one. -/
theorem linked_of_mapM {d : Dispatch} {threads : List Nat} {workers : List Worker}
    {liveOut : List InstrRef} (hshares : Shares p p s.loop)
    (hpreheader : s.loop.preheader ∉ s.loop) (hexit : s.loop.exit ∉ s.loop)
    (hfits : d.exchange.Fits s.live.liveIn liveOut p)
    (h : (threads.mapM (build s d)).apply p = (.ok workers, q)) :
    Enlarges p q ∧ List.Forall₂ (fun thread w => w.thread = thread ∧
      ∃ hook? types fields start start',
        Linked s d.exchange hook? types fields start start' w q) threads workers := by
  have hstep : ∀ thread before w after, Enlarges p before →
      (build s d thread).apply before = (.ok w, after) → Enlarges before after := by
    intro thread before w after hbefore hbuild
    exact ⟨(linked_of_build (hshares.grow hbefore.toGrows).self hpreheader hexit hbuild).1,
      (steady_build thread (fun _ => id) (hfits.keep hbefore.keeps)).keeps w after hbuild⟩
  obtain ⟨hlarger, hall⟩ := Edit.mapM_eq_ok Enlarges.refl (fun _ _ _ => Enlarges.trans) hstep h
  refine ⟨hlarger, hall.imp ?_⟩
  rintro thread w ⟨before, after, hbefore, hbuild, hafter⟩
  obtain ⟨-, hthread, hook?, types, fields, start, start', hlinked⟩ :=
    linked_of_build (hshares.grow hbefore.toGrows).self hpreheader hexit hbuild
  exact ⟨hthread, hook?, types, fields, start, start', hlinked.grow hafter⟩

end Linked

end Worker

namespace Dispatch

variable {s : Setting} {p q : Program} {func : Func} {d : Dispatch} {code : List (Op × Ty)}

/-- The loop can be read after the installation. -/
theorem Installed.shares_self (h : Installed s p func d code q)
    (hlive : s.live.Describes p s.loop) : Worker.Shares q q s.loop where
  size_le := Nat.le_refl _
  block? := by
    intro b hb
    obtain ⟨block, hblock⟩ := hlive.block? b hb
    have hkept := h.block?_kept b (h.ne_block (by rw [hblock]; rfl))
    exact ⟨block, hkept.trans hblock, hkept.trans hblock⟩
  instr? := by
    rintro b hb i ⟨block', hblock', hi⟩
    obtain ⟨block, hblock⟩ := hlive.block? b hb
    have hkept := h.block?_kept b (h.ne_block (by rw [hblock]; rfl))
    obtain ⟨instr, hinstr⟩ := hlive.instr? i
      (Program.mem_listedIn_iff.2 ⟨b, hb, block', hkept.symm.trans hblock', hi⟩)
    have hlt : i.index < p.instrs.size := (Array.getElem?_eq_some_iff.1 hinstr).1
    exact ⟨h.size_eq ▸ Nat.lt_add_right _ hlt, rfl⟩
  placed := fun _ _ _ => Iff.rfl

/-- What no block outside the loop lists is not renamed. -/
theorem count_outside_eq_zero {i : InstrRef}
    (hfree : ∀ b ∈ func.blocks, b ∉ s.loop → ¬ p.Lists b i) :
    (p.listedIn (func.blocks.filter (isOutside s d.block))).count i = 0 := by
  rw [List.count_eq_zero, Program.mem_listedIn_iff]
  rintro ⟨b, hb, hlists⟩
  obtain ⟨hb, houtside⟩ := List.mem_filter.1 hb
  simp only [isOutside, decide_eq_true_eq] at houtside
  exact hfree b hb houtside.2 hlists

theorem renamed_iterate_op (σ : Renaming) (n : Nat) (instr : Instr) :
    ((renamed σ)^[n] instr).op = instr.op.mapOperands (σ.rename^[n]) := by
  induction n with
  | zero => exact (Op.mapOperands_id instr.op).symm
  | succ n ih =>
      rw [Function.iterate_succ_apply', renamed, ih, Op.mapOperands_mapOperands,
        Function.iterate_succ']

theorem renamed_iterate_ty (σ : Renaming) (n : Nat) (instr : Instr) :
    ((renamed σ)^[n] instr).ty = instr.ty := by
  refine apply_iterate_of_invariant Instr.ty ?_ n instr
  exact fun _ => rfl

end Dispatch

/-- The loop of the setting was split between the programs `p` and `q` with the result
`split`. In the program `between` the block of `d` is in place and no worker is written. -/
structure Splitter.Passes (s : Setting) (p : Program) (func : Func) (d : Dispatch)
    (code : List (Op × Ty)) (between q : Program) (split : Split) : Prop where
  installed : Dispatch.Installed s p func d code between
  larger : Enlarges between q
  keeps : p.KeepsTypes q
  fits : d.exchange.Fits s.live.liveIn s.live.liveOut q
  live : s.live.Describes p s.loop
  owned : ∀ i ∈ s.live.liveOut, ∃ thread, s.plan.threadOf? i = some thread
  block_eq : split.block = d.block
  exchange_eq : split.exchange = d.exchange
  live_eq : split.live = s.live
  workers : List.Forall₂ (fun thread w => w.thread = thread ∧
    ∃ hook? types fields start start',
      Worker.Linked s d.exchange hook? types fields start start' w q)
    (List.range s.plan.threads) split.workers

namespace Splitter

variable {p q : Program} {f : FuncRef} {func : Func} {loop : Loop} {deps : Dependences}
  {plan : Plan} {splitter splitter' : Splitter} {split : Split}

theorem passes_of_split (h : splitter.split p f loop deps plan = (.ok split, splitter', q)) :
    ∃ s func d code between, s.func = f ∧ s.loop = loop ∧ s.plan = plan ∧
      Passes s p func d code between q split := by
  obtain ⟨hrequest, s, hsetting, hsplit⟩ := split_eq_ok h
  obtain ⟨hthreads, -, hpreheader⟩ := checkRequest_eq_ok hrequest
  obtain ⟨rfl, rfl, rfl, rfl, hcount, hlive, -, howned, -⟩ := setting_eq_ok hsetting
  obtain ⟨d, between, hinstall, hworkers, hblock, hexchange, hsame, -⟩ := splitIn_eq_ok hsplit
  obtain ⟨func, code, hinstalled⟩ := Dispatch.installed_of_install hinstall
  have hdescribes := Liveness.describes_of_ofLoop hlive
  have hfits := Dispatch.fits_of_install hinstall
  obtain ⟨hlarger, hlinked⟩ := Worker.linked_of_mapM (hinstalled.shares_self hdescribes) hpreheader
    hinstalled.exit_not_mem hfits hworkers
  rw [hcount, ← hthreads] at hlinked
  exact ⟨s, func, d, code, between, rfl, rfl, rfl, hinstalled, hlarger,
    (steady_splitIn s).keeps split q hsplit, hfits.keep hlarger.keeps, hdescribes, howned, hblock,
    hexchange, hsame, hlinked⟩

namespace Passes

variable {s : Setting} {d : Dispatch} {code : List (Op × Ty)} {between : Program}

theorem instr?_of_mem_liveOut (h : Passes s p func d code between q split) {i : InstrRef}
    (hi : i ∈ s.live.liveOut) : ∃ instr, p.instr? i = some instr :=
  h.live.instr? i ((h.live.mem_liveOut_iff i).1 hi).1

/-- A new instruction is no live-out. -/
theorem not_mem_of_le (h : Passes s p func d code between q split) {i : InstrRef}
    (hi : p.instrs.size ≤ i.index) : Value.instr i ∉ s.live.liveOut.map .instr := by
  intro hmem
  obtain ⟨j, hj, heq⟩ := List.mem_map.1 hmem
  obtain rfl := Value.instr.inj heq
  obtain ⟨instr, hinstr⟩ := h.instr?_of_mem_liveOut hj
  exact Nat.not_lt_of_le hi (Array.getElem?_eq_some_iff.1 hinstr).1

theorem block?_eq (h : Passes s p func d code between q split) :
    ∃ block, q.block? split.block = some block ∧
      block.instrs = newRefs p.instrs.size code.length := by
  rw [h.block_eq]
  exact ⟨_, h.larger.block?_kept h.installed.block?_new, rfl⟩

/-- The code of the block in the place of the loop; it is renamed where blocks outside the loop
list references that were not taken before. -/
theorem instr?_code (h : Passes s p func d code between q split) {k : Nat} {op : Op} {ty : Ty}
    (hk : code[k]? = some (op, ty)) :
    ∃ instr, q.instr? ⟨p.instrs.size + k⟩ = some instr ∧ instr.ty = ty ∧
      instr.op = op.mapOperands ((Dispatch.outRenaming s d.workers p.instrs.size).rename^[
        (p.listedIn (func.blocks.filter (Dispatch.isOutside s d.block))).count
          ⟨p.instrs.size + k⟩]) := by
  obtain ⟨name, hname⟩ := h.installed.instr?_new k op ty hk
  exact ⟨_, h.larger.instr?_kept hname, Dispatch.renamed_iterate_ty ..,
    Dispatch.renamed_iterate_op ..⟩

/-- What reads new instructions only is not renamed. -/
theorem instr?_code_of_new (h : Passes s p func d code between q split) {k : Nat} {op : Op}
    {ty : Ty} (hk : code[k]? = some (op, ty))
    (hop : ∀ v ∈ op.operands, ∃ i, v = .instr i ∧ p.instrs.size ≤ i.index) :
    ∃ instr, q.instr? ⟨p.instrs.size + k⟩ = some instr ∧ instr.ty = ty ∧ instr.op = op := by
  obtain ⟨instr, hinstr, hty, heq⟩ := h.instr?_code hk
  refine ⟨instr, hinstr, hty, heq.trans (Op.mapOperands_eq_self fun v hv => ?_)⟩
  obtain ⟨i, rfl, hi⟩ := hop v hv
  exact Function.iterate_fixed (Dispatch.rename_of_not_mem (h.not_mem_of_le hi)) _

/-- The block in the place of the loop begins with the structure and the stores into it. -/
theorem code_args (h : Passes s p func d code between q split) :
    code[0]? = some (.alloca (.struct d.exchange.args), .ptr) ∧
      ∀ k v, s.live.liveIn[k]? = some v →
        code[2 * k + 1]? = some (.fieldAddr (.instr ⟨p.instrs.size⟩) d.exchange.args k, .ptr) ∧
        code[2 * k + 2]? = some (.store v (.instr ⟨p.instrs.size + 1 + 2 * k⟩), .void) := by
  obtain ⟨init, dispatch, join, types, -, rfl⟩ := h.installed.code_eq
  exact ⟨rfl, fun k v hv => getElem?_replacementCode_store hv⟩

end Passes

end Splitter

end Decouple
