import Decouple.Proofs.DominanceTrees
import Decouple.Proofs.EarlyStops
import Decouple.Proofs.LiveLists
import Decouple.Proofs.Ranges
import Decouple.Proofs.SplitChanges

/-!
# Splitting is not broken off

A loop of a program whose references lead somewhere can be split or is refused, however badly the
program, the loop, the dependences and the plan fit together. Every step is gone through once to
see that what it looks up is there: the entries that the request names, what crosses the border of
the loop, the immediate dominators of every flow graph, and what earlier steps have added. Only a
log asks for structure types, so these have to be there only if one is kept
(`Counting.undeclared`).

What is left are numbers that do not fit into 32 bits. `Splitter.split_fault` says which they can
be, and `Splitter.split_breaks_off_for_numbers_only` that with numbers enough there is an answer.
The live-ins have to be counted apart from the tables: one instruction can bring in any number of
them (`Crowd`).
-/

namespace Decouple

open Outcome Program Edit

variable {p q : Program} {typed short : Prop}

namespace Liveness

variable {loop : Loop} {live : Liveness}

theorem isAnswer_escapes {i : InstrRef} {readers : List InstrRef} (hi : (p.instr? i).isSome)
    (hreaders : ∀ reader ∈ readers, (p.instr? reader).isSome) :
    IsAnswer (escapes p loop i readers) := by
  induction readers with
  | nil => exact .ok false
  | cons reader readers ih =>
      obtain ⟨hreader, hreaders⟩ := List.forall_mem_cons.1 hreaders
      refine .bind (isAnswer_instr hreader) fun instr _ => ?_
      split
      · exact .bind (isAnswer_valueName hi) fun _ _ => .rejected _
      · exact .bind (ih hreaders) fun _ _ => .ok _

theorem isAnswer_overLoop {step : Liveness → InstrRef → Except Failure Liveness} (hp : p.InRange)
    (hblocks : ∀ b ∈ loop.blocks, (p.block? b).isSome)
    (hstep : ∀ live i, (p.instr? i).isSome → IsAnswer (step live i)) (live : Liveness) :
    IsAnswer (overLoop p loop step live) := by
  refine .foldlM (fun b hb live => ?_) live
  refine .bind (isAnswer_block (hblocks b hb)) fun block hblock => ?_
  exact .foldlM (fun i hi live =>
    hstep live i (hp.isSome_instr? (block_eq_ok_iff.1 hblock) i hi)) live

theorem isAnswer_ofLoop (hp : p.InRange) (hblocks : ∀ b ∈ loop.blocks, (p.block? b).isSome) :
    IsAnswer (ofLoop p loop) := by
  have hreaders (i : InstrRef) : ∀ reader ∈ (UseMap.ofProgram p).readers (.instr i),
      (p.instr? reader).isSome := by
    intro reader hreader
    obtain ⟨-, instr, hinstr, -⟩ := UseMap.mem_readers_ofProgram_iff.1 hreader
    exact Option.isSome_iff_exists.2 ⟨instr, hinstr⟩
  refine .bind (isAnswer_overLoop hp hblocks (fun live i hi => ?_) _) fun live _ => ?_
  · refine .bind (isAnswer_instr hi) fun instr _ => ?_
    exact .bind (isAnswer_escapes hi (hreaders i)) fun _ _ => .ok _
  · refine isAnswer_overLoop hp hblocks (fun live i hi => ?_) live
    exact .bind (isAnswer_instr hi) fun _ _ => .ok _

structure InRange (live : Liveness) (p : Program) : Prop where
  liveIn : ∀ v ∈ live.liveIn, p.VariableInRange v
  liveOut : ∀ i ∈ live.liveOut, (p.instr? i).isSome

theorem inRange_of_ofLoop (hp : p.InRange) (h : ofLoop p loop = .ok live) : live.InRange p where
  liveIn := by
    intro v hv
    obtain ⟨hvariable, -, i, -, instr, hinstr, hmem⟩ :=
      ((describes_of_ofLoop h).mem_liveIn_iff v).1 hv
    exact ⟨hvariable, (hp.op hinstr).operands v hmem⟩
  liveOut := by
    intro i hi
    have hdescribes := describes_of_ofLoop h
    obtain ⟨instr, hinstr⟩ := hdescribes.instr? i ((hdescribes.mem_liveOut_iff i).1 hi).1
    exact Option.isSome_iff_exists.2 ⟨instr, hinstr⟩

theorem InRange.extend (h : live.InRange p) (hextends : p.Extends q) : live.InRange q where
  liveIn := fun v hv => hextends.variableInRange (h.liveIn v hv)
  liveOut := fun i hi => hextends.isSome_instr? (h.liveOut i hi)

end Liveness

namespace FlowGraph

/-- The edges of a flow graph stay between the places of the layout, also where it repeats
blocks. -/
theorem consistent_of_ofFunc {f : FuncRef} {func : Func} {flow : FlowGraph}
    (h : ofFunc p f = .ok flow) (hfunc : p.func? f = some func) :
    flow.graph.size = flow.blocks.length ∧ flow.graph.Consistent := by
  obtain ⟨succs, rfl, hall⟩ := ofFunc_eq_ok h hfunc
  have hlength := hall.length_eq
  refine ⟨by simp [Digraph.ofSuccs, Digraph.size, hlength], Digraph.ofSuccs_consistent ?_⟩
  intro u v hmem
  by_cases hu : u < succs.length
  · obtain ⟨targets, -, hafter⟩ := hall.get (i := u) (by omega) hu
    simp only [List.get_eq_getElem] at hafter
    simp only [List.getElem?_toArray, List.getElem?_eq_getElem hu, Option.getD_some, hafter,
      targetPositions, List.mem_eraseDups, List.mem_filterMap] at hmem
    obtain ⟨target, -, htarget⟩ := hmem
    obtain ⟨hlt, -⟩ := List.getElem?_eq_some_iff.1 (getElem?_of_lastIndex? htarget)
    simpa [← hlength] using hlt
  · simp [List.getElem?_eq_none (Nat.le_of_not_lt hu)] at hmem

end FlowGraph

theorem Dominance.isAnswer_ofFunc {f : FuncRef} (hp : p.InRange) (hf : (p.func? f).isSome) :
    IsAnswer (Dominance.ofFunc p f) := by
  obtain ⟨func, hfunc⟩ := Option.isSome_iff_exists.1 hf
  have hflow : IsAnswer (FlowGraph.ofFunc p f) := by
    refine .bind (isAnswer_func hf) fun func' hfunc' => ?_
    refine .bind (.mapM fun b hb => ?_) fun _ _ => .ok _
    have hblock := hp.isSome_block? (func_eq_ok_iff.1 hfunc') b hb
    exact .bind (hp.isAnswer_successors hblock) fun _ _ => .ok _
  refine .bind hflow fun flow hflow' => ?_
  obtain ⟨hsize, hgraph⟩ := FlowGraph.consistent_of_ofFunc hflow' hfunc
  obtain ⟨dom, hdom⟩ := Dominance.exists_domTree hsize hgraph
  obtain ⟨postDom, hpostDom⟩ := Dominance.exists_postDomTree hgraph
  rw [hdom, hpostDom]
  exact .ok _

namespace Renaming

/-- What the renaming puts in is there and no constant. -/
def InRange (σ : Renaming) (p : Program) : Prop :=
  ∀ v u : Value, σ[v]? = some u → p.VariableInRange u

variable {σ : Renaming}

theorem InRange.empty (p : Program) : InRange ∅ p := by
  intro v u hu
  simp at hu

theorem InRange.extend (h : σ.InRange p) (hextends : p.Extends q) : σ.InRange q :=
  fun v u hu => hextends.variableInRange (h v u hu)

theorem InRange.insert (h : σ.InRange p) {v u : Value} (hu : p.VariableInRange u) :
    Renaming.InRange (σ.insert v u) p := by
  have hall : ∀ a b : Value, σ[a]? = some b → p.VariableInRange b := h
  exact forall_getElem?_insert hall hu

theorem InRange.rename (h : σ.InRange p) (v : Value) :
    σ.rename v = v ∨ p.VariableInRange (σ.rename v) := by
  unfold Renaming.rename
  cases hu : σ[v]? with
  | none => exact .inl rfl
  | some u => exact .inr (h v u hu)

theorem InRange.mapOperands (h : σ.InRange p) {op : Op} {ty : Ty}
    (hop : p.OpComplete typed op ty) : p.OpComplete typed (op.mapOperands σ.rename) ty := by
  refine hop.mapOperands (fun v _ hv => ?_) fun v _ hv => ?_
  · rcases h.rename v with heq | hvariable
    · rwa [heq]
    · exact hvariable.inRange
  · rcases h.rename v with heq | hvariable
    · rwa [heq]
    · exact hvariable.constant

theorem robust_apply (hp : p.Complete typed) (hσ : σ.InRange p) {is : List InstrRef}
    (his : ∀ i ∈ is, (p.instr? i).isSome) :
    Robust typed short (σ.apply is) (fun _ _ => True) p := by
  have heach : Robust typed short (σ.applyEach is) (fun _ _ => True) p := by
    induction is generalizing p with
    | nil => exact .of_pure hp trivial
    | cons i is ih =>
        obtain ⟨hi, his⟩ := List.forall_mem_cons.1 his
        refine .get_bind (.answer_bind (isAnswer_instr hi) fun instr hinstr => ?_)
        have hlookup := instr_eq_ok_iff.1 hinstr
        refine .bind (.setInstr hp hlookup (hσ.mapOperands (hp.op hlookup))) fun _ q hq hpq _ => ?_
        have hrest := ih hq (hσ.extend hpq) fun j hj => hpq.isSome_instr? (his j hj)
        exact .bind hrest fun _ r hr _ _ => .of_pure hr trivial
  unfold Renaming.apply
  split
  · exact .of_pure hp trivial
  · exact heach

end Renaming

/-- What a setting mentions is there, and the loop has the shape that a request is asked for. -/
structure Setting.InRange (s : Setting) (p : Program) : Prop where
  func : (p.func? s.func).isSome
  exit : (p.block? s.loop.exit).isSome
  blocks : ∀ b ∈ s.loop, (p.block? b).isSome
  live : s.live.InRange p
  concerns : ∀ thread, ∀ i ∈ Worker.concerns s thread, (p.instr? i).isSome
  header : s.loop.header ∈ s.loop
  threads : s.threads = s.plan.threads

/-- A log can be kept of a program that is complete. -/
theorem Setting.isAnswer_log (s : Setting) {f : FuncRef} (hp : p.Complete typed)
    (htracing : s.config.tracing → typed) (hf : (p.func? f).isSome) : IsAnswer (s.log p f) := by
  unfold Setting.log
  split
  · next hlog => exact .bind (hp.isAnswer_funcText (htracing hlog) hf) fun _ _ => .ok _
  · exact .ok ()

theorem Setting.InRange.extend {s : Setting} (h : s.InRange p) (hextends : p.Extends q) :
    s.InRange q where
  func := hextends.isSome_func? h.func
  exit := hextends.isSome_block? h.exit
  blocks := fun b hb => hextends.isSome_block? (h.blocks b hb)
  live := h.live.extend hextends
  concerns := fun thread i hi => hextends.isSome_instr? (h.concerns thread i hi)
  header := h.header
  threads := h.threads

/-- A number for a field is at hand unless there are too many entries. -/
theorem Exchange.robust_field_bind {β : Type} {k : Nat} {next : Nat → Edit β}
    {post : β → Program → Prop} (hk : numberLimit ≤ k → p.Overfull ∨ short)
    (hnext : k < numberLimit → Robust typed short (next k) post p) :
    Robust typed short ((liftM (Exchange.field k) : Edit Nat) >>= next) post p := by
  unfold Exchange.field
  split
  · next hlt => exact .answer_bind (.ok k) fun n hn => Except.ok.inj hn ▸ hnext hlt
  · next hge =>
      refine ⟨nofun, fun fault q heq => ?_⟩
      obtain ⟨hfault, rfl⟩ := Prod.mk.inj heq
      cases hfault
      exact ⟨⟨k, rfl⟩, hk (Nat.not_lt.1 hge)⟩

structure Exchange.InRange (exchange : Exchange) (typed : Prop) (p : Program) : Prop where
  args : ∃ structTy, p.structTy? exchange.args = some structTy ∧
    (typed → ∀ ty ∈ structTy.fields, p.TypeInRange ty)
  outs : (p.structTy? exchange.outs).isSome

theorem Exchange.InRange.extend {exchange : Exchange} (h : exchange.InRange typed p)
    (hextends : p.Extends q) : exchange.InRange typed q where
  args := by
    obtain ⟨structTy, hargs, hfields⟩ := h.args
    exact ⟨structTy, hextends.structTy? _ structTy hargs,
      fun htyped ty hty => hextends.type (hfields htyped ty hty)⟩
  outs := hextends.isSome_structTy? h.outs

theorem Exchange.InRange.isSome_args {exchange : Exchange} (h : exchange.InRange typed p) :
    (p.structTy? exchange.args).isSome := by
  obtain ⟨structTy, hargs, -⟩ := h.args
  exact Option.isSome_iff_exists.2 ⟨structTy, hargs⟩

theorem Exchange.InRange.typeInRange {exchange : Exchange} (h : exchange.InRange typed p)
    (htyped : typed) {structTy : StructTy} {ty : Ty}
    (hargs : p.structTy exchange.args = .ok structTy) (hty : ty ∈ structTy.fields) :
    p.TypeInRange ty := by
  obtain ⟨structTy', hlookup, hfields⟩ := h.args
  obtain rfl := Option.some.inj (hlookup.symm.trans (structTy_eq_ok_iff.1 hargs))
  exact hfields htyped ty hty

/-- The structures can be added unless there are too many live-ins to number the fields. -/
theorem Exchange.robust_declare {live : Liveness} {loopId : Nat} (hp : p.Complete typed)
    (hlive : live.InRange p) (hshort : numberLimit ≤ live.liveIn.length → short) :
    Robust typed short (Exchange.declare loopId live.liveIn live.liveOut)
      (fun exchange q => exchange.InRange typed q ∧ live.liveIn.length < numberLimit) p := by
  have houts : ∀ v ∈ live.liveOut.map Value.instr, p.ValueInRange v :=
    List.forall_mem_map.2 hlive.liveOut
  refine .get_bind (.answer_bind (isAnswer_valueTypes houts) fun outTypes _ => ?_)
  refine .bind (.addStruct hp) fun outs q hq hpq houts => ?_
  have hliveIn : ∀ v ∈ live.liveIn, p.ValueInRange v := fun v hv => (hlive.liveIn v hv).inRange
  refine .answer_bind (isAnswer_valueTypes hliveIn) fun argTypes hargTypes => ?_
  rw [length_of_valueTypes hargTypes]
  refine robust_field_bind (fun hge => .inr (hshort hge)) fun hlt => ?_
  refine .bind (.addStruct hq) fun args r hr hqr hargs => .of_pure hr ⟨⟨⟨_, hargs, ?_⟩, ?_⟩, hlt⟩
  · intro htyped ty hty
    rcases List.mem_append.1 hty with hty | hty
    · have hvariables : ∀ v ∈ live.liveIn, v.isVariable := fun v hv =>
        (hlive.liveIn v hv).isVariable
      exact (hpq.trans hqr).type (hp.typesInRange htyped hvariables hargTypes ty hty)
    · obtain rfl := List.mem_singleton.1 hty
      exact hqr.isSome_structTy? (Option.isSome_iff_exists.2 ⟨_, houts⟩)
  · exact hqr.isSome_structTy? (Option.isSome_iff_exists.2 ⟨_, houts⟩)

namespace Dispatch

variable {s : Setting} {exchange : Exchange} {block : BlockRef}

theorem isAnswer_exitPosition (hp : p.InRange) (hf : (p.func? s.func).isSome)
    (hexit : (p.block? s.loop.exit).isSome) : IsAnswer (exitPosition p s) := by
  have hphis {is : List InstrRef} (his : ∀ i ∈ is, (p.instr? i).isSome) :
      IsAnswer (checkExitPhis p s.loop is) := by
    induction is with
    | nil => exact .ok ()
    | cons i is ih =>
        obtain ⟨hi, his⟩ := List.forall_mem_cons.1 his
        refine .bind (isAnswer_instr hi) fun instr _ => ?_
        dsimp only
        split
        · exact .bind (isAnswer_valueName hi) fun _ _ => .rejected _
        · exact ih his
  unfold exitPosition
  dsimp only
  split
  · exact .bind (isAnswer_block hexit) fun _ _ => .rejected _
  · refine .bind (isAnswer_func hf) fun func _ => ?_
    split
    · exact .bind (isAnswer_block hexit) fun _ _ => .rejected _
    · refine .bind (isAnswer_block hexit) fun exit hexit => ?_
      exact .bind (hphis (hp.isSome_instr? (block_eq_ok_iff.1 hexit))) fun _ _ => .ok _

theorem robust_redirect {blocks : List BlockRef} (hp : p.Complete typed)
    (hblock : (p.block? block).isSome) (hblocks : ∀ b ∈ blocks, (p.block? b).isSome) :
    Robust typed short (redirect s block blocks) (fun _ _ => True) p := by
  have hturn {p : Program} {b : BlockRef} (hp : p.Complete typed) (hblock : (p.block? block).isSome)
      (hb : (p.block? b).isSome) :
      Robust typed short (redirectBlock s block b) (fun _ _ => True) p := by
    refine .get_bind (.answer_bind (hp.isAnswer_terminator hb) fun last? hlast => ?_)
    split
    · exact .of_pure hp trivial
    · have hlisted := hp.isSome_of_lists (lists_of_terminator hlast)
      refine .answer_bind (isAnswer_instr hlisted) fun instr hinstr => ?_
      have hlookup := instr_eq_ok_iff.1 hinstr
      have hop := hp.op hlookup
      refine .bind (.setInstr hp hlookup (hop.mapSuccessors fun target htarget => ?_))
        fun _ q hq _ _ => .of_pure hq trivial
      split
      · exact hblock
      · exact hop.targets target htarget
  induction blocks generalizing p with
  | nil => exact .of_pure hp trivial
  | cons b blocks ih =>
      obtain ⟨hb, hblocks⟩ := List.forall_mem_cons.1 hblocks
      have hrest {n : Nat} {q : Program} (hq : q.Complete typed) (hpq : p.Extends q) :
          Robust typed short (do return n + (← redirect s block blocks)) (fun _ _ => True) q :=
        .bind (ih hq (hpq.isSome_block? hblock) fun b hb => hpq.isSome_block? (hblocks b hb))
          fun _ r hr _ _ => .of_pure hr trivial
      unfold redirect
      split
      · exact .bind (hturn hp hblock hb) fun _ q hq hpq _ => hrest hq hpq
      · exact hrest hp (.refl p)

theorem robust_retarget {is : List InstrRef} (hp : p.Complete typed)
    (hblock : (p.block? block).isSome) (his : ∀ i ∈ is, (p.instr? i).isSome) :
    Robust typed short (retarget s block is) (fun _ _ => True) p := by
  refine .forM hp fun i hi q hq hpq => ?_
  have hi := hpq.isSome_instr? (his i hi)
  refine .get_bind (.answer_bind (isAnswer_instr hi) fun instr hinstr => ?_)
  have hlookup := instr_eq_ok_iff.1 hinstr
  have hop := hq.op hlookup
  refine .setInstr hq hlookup (hop.mapIncoming fun pred hpred => ?_)
  split
  · exact hpq.isSome_block? hblock
  · exact hop.preds pred hpred

theorem robust_addWorkers (hp : p.Complete typed) {threads : List Nat} :
    Robust typed short (threads.mapM (addWorker s))
      (fun fs q => ∀ f ∈ fs, (q.func? f).isSome) p := by
  have hkept (f : FuncRef) (q r : Program) (hf : (q.func? f).isSome) (hqr : q.Extends r) :
      (r.func? f).isSome := hqr.isSome_func? hf
  refine .mapM hkept hp fun thread _ q hq _ => .get_bind ?_
  split
  · exact .of_reject _
  · refine (Robust.addFunc hq rfl ?_).imp fun f r _ _ hf => Option.isSome_iff_exists.2 ⟨_, hf⟩
    simp [TypeInRange]

theorem robust_storeArgs {argPtr : InstrRef} {k : Nat} {values : List Value} (hp : p.Complete typed)
    (hblock : (p.block? block).isSome) (hexchange : exchange.InRange typed p)
    (hargPtr : (p.instr? argPtr).isSome) (hvalues : ∀ v ∈ values, p.VariableInRange v)
    (hk : k + values.length ≤ numberLimit) :
    Robust typed short (storeArgs exchange block argPtr k values) (fun _ _ => True) p := by
  induction values generalizing k p with
  | nil => exact .of_pure hp trivial
  | cons v values ih =>
      obtain ⟨hv, hvalues⟩ := List.forall_mem_cons.1 hvalues
      rw [List.length_cons] at hk
      refine .get_bind (.answer_bind (isAnswer_valueName hv.inRange) fun name _ => ?_)
      refine Exchange.robust_field_bind (fun hge => by omega) fun _ => ?_
      refine .bind (.appendInstr hp hblock (.fieldAddr hargPtr hexchange.isSome_args))
        fun addr q hq hpq haddr => ?_
      have hblock := hpq.isSome_block? hblock
      refine .bind (.appendInstr hq hblock (.store (hpq.variableInRange hv) haddr.1))
        fun _ r hr hqr _ => ?_
      have hpr := hpq.trans hqr
      exact ih hr (hqr.isSome_block? hblock) (hexchange.extend hpr) (hpr.isSome_instr? hargPtr)
        (fun v hv => hpr.variableInRange (hvalues v hv)) (by omega)

theorem robust_callWorkers {dispatch : FuncRef} {shared : InstrRef} {thread : Nat}
    {workers : List FuncRef} (hp : p.Complete typed) (hblock : (p.block? block).isSome)
    (hdispatch : (p.func? dispatch).isSome) (hshared : (p.instr? shared).isSome)
    (hworkers : ∀ f ∈ workers, (p.func? f).isSome) :
    Robust typed short (callWorkers block dispatch shared thread workers) (fun _ _ => True) p := by
  induction workers generalizing thread p with
  | nil => exact .of_pure hp trivial
  | cons worker workers ih =>
      obtain ⟨hworker, hworkers⟩ := List.forall_mem_cons.1 hworkers
      refine .bind (.appendInstr hp hblock (.call hdispatch ?_)) fun _ q hq hpq _ => ?_
      · simpa [Value.i32, ValueInRange, ConstantInRange, TypeInRange, Ty.i32] using
          ⟨hworker, hshared⟩
      exact ih hq (hpq.isSome_block? hblock) (hpq.isSome_func? hdispatch)
        (hpq.isSome_instr? hshared) fun f hf => hpq.isSome_func? (hworkers f hf)

theorem robust_runWorkers {argPtr : InstrRef} {workers : List FuncRef} (hp : p.Complete typed)
    (hblock : (p.block? block).isSome) (hargPtr : (p.instr? argPtr).isSome)
    (hworkers : ∀ f ∈ workers, (p.func? f).isSome) :
    Robust typed short (runWorkers s block argPtr workers) (fun _ _ => True) p := by
  have htypes {p : Program} : ∀ ty ∈ [.void, .i32, .ptr, .ptr], p.TypeInRange ty := by
    simp [TypeInRange, Ty.i32]
  refine .bind (.requireFunc hp (by simp [TypeInRange])) fun init p₁ hp₁ hext₁ hinit => ?_
  refine .bind (.requireFunc hp₁ htypes) fun dispatch p₂ hp₂ hext₂ hdispatch => ?_
  refine .bind (.requireFunc hp₂ (by simp [TypeInRange])) fun join p₃ hp₃ hext₃ hjoin => ?_
  have hext := (hext₁.trans hext₂).trans hext₃
  have hinit := (hext₂.trans hext₃).isSome_func? hinit
  refine .bind (.appendInstr hp₃ (hext.isSome_block? hblock) (.call hinit nofun))
    fun _ p₄ hp₄ hext₄ _ => ?_
  have hext := hext.trans hext₄
  refine .bind (.appendInstr hp₄ (hext.isSome_block? hblock)
    (.cast (.instr (hext.isSome_instr? hargPtr)))) fun shared p₅ hp₅ hext₅ hshared => ?_
  have hext := hext.trans hext₅
  have hlater := (hext₃.trans hext₄).trans hext₅
  refine .bind (robust_callWorkers hp₅ (hext.isSome_block? hblock) (hlater.isSome_func? hdispatch)
    hshared.1 fun f hf => hext.isSome_func? (hworkers f hf)) fun _ p₆ hp₆ hext₆ _ => ?_
  have hext := hext.trans hext₆
  have hjoin := ((hext₄.trans hext₅).trans hext₆).isSome_func? hjoin
  exact .bind (.appendInstr hp₆ (hext.isSome_block? hblock) (.call hjoin nofun))
    fun _ p₇ hp₇ _ _ => .of_pure hp₇ trivial

/-- Each live-out takes an entry of its own, so the table of instructions is full before the
numbers for the fields run out. -/
theorem robust_loadOuts {outPtr : InstrRef} {k : Nat} {outs : List InstrRef} {σ : Renaming}
    (hp : p.Complete typed) (hblock : (p.block? block).isSome)
    (hexchange : exchange.InRange typed p)
    (houtPtr : (p.instr? outPtr).isSome) (houts : ∀ i ∈ outs, (p.instr? i).isSome)
    (hσ : σ.InRange p) (hk : k ≤ p.instrs.size) :
    Robust typed short (loadOuts exchange block outPtr k outs σ)
      (fun σ q => σ.InRange q ∧ k + outs.length ≤ q.instrs.size) p := by
  induction outs generalizing k p σ with
  | nil => exact .of_pure hp ⟨hσ, hk⟩
  | cons i outs ih =>
      obtain ⟨hi, houts⟩ := List.forall_mem_cons.1 houts
      refine .get_bind (.answer_bind (isAnswer_valueName hi) fun name _ => ?_)
      refine .answer_bind (isAnswer_valueType hi) fun ty hty => ?_
      refine Exchange.robust_field_bind (fun hge => .inl (.of_instrs (hge.trans hk))) fun _ => ?_
      refine .bind (.appendInstr hp hblock (.fieldAddr houtPtr hexchange.outs))
        fun addr q hq hpq ⟨haddr, hgrows⟩ => ?_
      have hblock := hpq.isSome_block? hblock
      have hty (htyped : typed) := hpq.type (hp.typeInRange htyped rfl hty)
      refine .bind (.appendInstr hq hblock (.load haddr hty))
        fun loaded r hr hqr ⟨hloaded, hgrows'⟩ => ?_
      have hpr := hpq.trans hqr
      refine (ih hr (hqr.isSome_block? hblock) (hexchange.extend hpr) (hpr.isSome_instr? houtPtr)
        (fun j hj => hpr.isSome_instr? (houts j hj)) ((hσ.extend hpr).insert (.instr hloaded))
        (by omega)).imp fun σ' t _ _ hpost => ?_
      rw [List.length_cons]
      exact ⟨hpost.1, by omega⟩

theorem isAnswer_instrsOf {blocks : List BlockRef} (hblocks : ∀ b ∈ blocks, (p.block? b).isSome) :
    IsAnswer (instrsOf p blocks) := by
  refine .bind (.mapM fun b hb => ?_) fun _ _ => .ok _
  exact .bind (isAnswer_block (hblocks b hb)) fun _ _ => .ok _

theorem isSome_of_instrsOf {blocks : List BlockRef} {is : List InstrRef} (hp : p.InRange)
    (h : instrsOf p blocks = .ok is) : ∀ i ∈ is, (p.instr? i).isSome := by
  intro i hi
  rw [instrsOf_eq_ok h] at hi
  obtain ⟨b, -, hi⟩ := mem_listedIn_iff.1 hi
  exact hp.isSome_of_lists hi

theorem robust_unpackOuts {argPtr : InstrRef} (hp : p.Complete typed) (hs : s.InRange p)
    (hblock : (p.block? block).isSome) (hexchange : exchange.InRange typed p)
    (hargPtr : (p.instr? argPtr).isSome) :
    Robust typed short (unpackOuts s exchange block argPtr)
      (fun _ q => s.live.liveOut.length ≤ q.instrs.size) p := by
  refine .bind (.appendInstr hp hblock (.fieldAddr hargPtr hexchange.isSome_args))
    fun outPtr q hq hpq houtPtr => ?_
  have hs := hs.extend hpq
  refine .bind (robust_loadOuts hq (hpq.isSome_block? hblock) (hexchange.extend hpq) houtPtr.1
    hs.live.liveOut (.empty q) (Nat.zero_le _)) fun σ r hr hqr ⟨hσ, hlength⟩ => ?_
  refine .get_bind (.answer_bind (isAnswer_func (hs.extend hqr).func) fun func hfunc => ?_)
  have hblocks : ∀ b ∈ func.blocks.filter (isOutside s block), (r.block? b).isSome := fun b hb =>
    hr.isSome_block? (func_eq_ok_iff.1 hfunc) b (List.mem_of_mem_filter hb)
  refine .answer_bind (isAnswer_instrsOf hblocks) fun is his => ?_
  refine .bind (σ.robust_apply hr hσ (isSome_of_instrsOf hr.toInRange his)) fun _ t ht hrt _ => ?_
  rw [Nat.zero_add] at hlength
  exact .of_pure ht (hlength.trans hrt.instrs)

structure Ready (d : Dispatch) (s : Setting) (typed : Prop) (p : Program) : Prop where
  workers : ∀ f ∈ d.workers, (p.func? f).isSome
  exchange : d.exchange.InRange typed p
  liveIn : s.live.liveIn.length < numberLimit
  liveOut : s.live.liveOut.length ≤ p.instrs.size

theorem Ready.extend {d : Dispatch} (h : d.Ready s typed p) (hextends : p.Extends q) :
    d.Ready s typed q where
  workers := fun f hf => hextends.isSome_func? (h.workers f hf)
  exchange := h.exchange.extend hextends
  liveIn := h.liveIn
  liveOut := h.liveOut.trans hextends.instrs

structure Begun (s : Setting) (block : BlockRef) (p : Program) : Prop where
  setting : s.InRange p
  block : (p.block? block).isSome

theorem Begun.extend (h : Begun s block p) (hextends : p.Extends q) : Begun s block q :=
  ⟨h.setting.extend hextends, hextends.isSome_block? h.block⟩

theorem robust_leave {d : Dispatch} (hp : p.Complete typed) (hbegun : Begun s d.block p)
    (hready : d.Ready s typed p) :
    Robust typed short (do
      let _ ← Edit.appendInstr d.block (.br s.loop.exit) .void none
      return d) (fun d q => Ready d s typed q) p :=
  .bind (.appendInstr hp hbegun.block (.br hbegun.setting.exit))
    fun _ _ hq hpq _ => .of_pure hq (hready.extend hpq)

theorem robust_install (hp : p.Complete typed) (hs : s.InRange p)
    (hshort : numberLimit ≤ s.live.liveIn.length → short) :
    Robust typed short (install s) (fun d q => d.Ready s typed q) p := by
  refine .get_bind (.answer_bind (isAnswer_exitPosition hp.toInRange hs.func hs.exit)
    fun position hposition => ?_)
  obtain ⟨-, func, -, hfunc, hindex, -⟩ := exitPosition_eq_ok hposition
  -- The exit was found in the layout, so its position is one to insert at.
  obtain ⟨hlt, -⟩ := List.findIdx?_eq_some_iff_getElem.1 hindex
  refine .bind (.insertBlock hp hfunc (Nat.le_of_lt hlt)) fun block p₁ hp₁ hext₁ hblock => ?_
  have hbegun : Begun s block p₁ := ⟨hs.extend hext₁, hblock⟩
  refine .get_bind (.answer_bind (isAnswer_func hbegun.setting.func) fun func' hfunc' => ?_)
  have hlayout := hp₁.isSome_block? (func_eq_ok_iff.1 hfunc')
  refine .bind (robust_redirect hp₁ hbegun.block hlayout) fun redirected p₂ hp₂ hext₂ _ => ?_
  have hbegun := hbegun.extend hext₂
  refine .get_bind (.answer_bind (isAnswer_block hbegun.setting.exit) fun exit hexit => ?_)
  have hlisted := hp₂.isSome_instr? (block_eq_ok_iff.1 hexit)
  refine .bind (robust_retarget hp₂ hbegun.block hlisted) fun _ p₃ hp₃ hext₃ _ => ?_
  have hbegun := hbegun.extend hext₃
  refine .bind (robust_addWorkers hp₃) fun workers p₄ hp₄ hext₄ hworkers => ?_
  have hbegun := hbegun.extend hext₄
  refine .bind (Exchange.robust_declare hp₄ hbegun.setting.live hshort)
    fun exchange p₅ hp₅ hext₅ ⟨hexchange, hliveIn⟩ => ?_
  have hbegun := hbegun.extend hext₅
  refine .bind (.appendInstr hp₅ hbegun.block (.alloca hexchange.isSome_args))
    fun argPtr p₆ hp₆ hext₆ ⟨hargPtr, _⟩ => ?_
  have hbegun := hbegun.extend hext₆
  refine .bind (robust_storeArgs hp₆ hbegun.block (hexchange.extend hext₆) hargPtr
    hbegun.setting.live.liveIn (by omega)) fun _ p₇ hp₇ hext₇ _ => ?_
  have hbegun := hbegun.extend hext₇
  have hargPtr := hext₇.isSome_instr? hargPtr
  have hlater := (hext₅.trans hext₆).trans hext₇
  have hworkers : ∀ f ∈ workers, (p₇.func? f).isSome := fun f hf =>
    hlater.isSome_func? (hworkers f hf)
  refine .bind (robust_runWorkers hp₇ hbegun.block hargPtr hworkers) fun _ p₈ hp₈ hext₈ _ => ?_
  have hbegun := hbegun.extend hext₈
  have hexchange := hexchange.extend ((hext₆.trans hext₇).trans hext₈)
  have hleave {q : Program} (hq : q.Complete typed) (hext : p₈.Extends q)
      (hliveOut : s.live.liveOut.length ≤ q.instrs.size) :
      Robust typed short _ (fun d q => Ready d s typed q) q :=
    robust_leave (d := { block, workers, exchange, redirected }) hq (hbegun.extend hext)
      ⟨fun f hf => (hext₈.trans hext).isSome_func? (hworkers f hf), hexchange.extend hext, hliveIn,
        hliveOut⟩
  dsimp only
  split
  · next hempty =>
      rw [List.isEmpty_iff] at hempty
      exact hleave hp₈ (.refl p₈) (by simp [hempty])
  · exact .bind (robust_unpackOuts hp₈ hbegun.setting hbegun.block hexchange
      (hext₈.isSome_instr? hargPtr)) fun _ q hq hext hliveOut => hleave hq hext hliveOut

end Dispatch

theorem exists_of_climb {α : Type} {parent? : BlockRef → Option BlockRef}
    {lookup? : BlockRef → Option α} {limit : Nat} {b : BlockRef} {found : α}
    (h : climb parent? lookup? limit b = .ok found) : ∃ c, lookup? c = some found := by
  fun_induction climb parent? lookup? limit b with
  | case1 limit b found' hfound => exact ⟨b, hfound.trans (congrArg some (Except.ok.inj h))⟩
  | case2 => cases h
  | case3 => cases h
  | case4 _ _ _ _ _ ih => exact ih h

namespace Worker

variable {s : Setting} {d : Dispatch} {exchange : Exchange} {w : Worker} {thread : Nat}
  {blockMap : Std.TreeMap BlockRef BlockRef} {blocks : List BlockRef} {f : FuncRef}

theorem isAnswer_vacantFunc (hready : d.Ready s typed p) : IsAnswer (vacantFunc p d thread) := by
  unfold vacantFunc
  split
  · exact .rejected _
  · next f hf =>
      refine .bind (isAnswer_func (hready.workers f (List.mem_of_getElem? hf))) fun func _ => ?_
      exact .require fun _ => .require fun _ => .ok f

theorem valueInRange_of_vacantFunc (h : vacantFunc p d thread = .ok f) :
    p.ValueInRange (.param f 0) := by
  unfold vacantFunc at h
  split at h
  · cases h
  · next f' hf =>
      obtain ⟨func, hfunc, h⟩ := bind_eq_ok_iff.1 h
      dsimp only at h
      obtain ⟨-, h⟩ := require_bind_eq_ok h
      obtain ⟨hparams, h⟩ := require_bind_eq_ok h
      obtain rfl := pure_eq_ok_iff.1 h
      exact ⟨func, func_eq_ok_iff.1 hfunc, by omega⟩

theorem isAnswer_concernedBlocks (hs : s.InRange p) (hthread : thread < s.threads) :
    IsAnswer (concernedBlocks p s thread) := by
  have hplaces : IsAnswer (placesOf p (concerns s thread)) := by
    refine .bind (.mapM fun i hi => ?_) fun _ _ => .ok _
    exact .bind (isAnswer_instr (hs.concerns thread i hi)) fun _ _ => .ok _
  unfold concernedBlocks
  dsimp only
  rw [if_pos (hs.threads ▸ hthread)]
  refine .bind hplaces fun places _ => .guard fun _ => ?_
  split
  · exact .ok _
  · exact .bind (isAnswer_block (hs.blocks _ hs.header)) fun _ _ => .rejected _

def CopiesInRange (blockMap : Std.TreeMap BlockRef BlockRef) (p : Program) : Prop :=
  ∀ b c : BlockRef, blockMap[b]? = some c → (p.block? c).isSome

theorem CopiesInRange.extend (h : CopiesInRange blockMap p) (hextends : p.Extends q) :
    CopiesInRange blockMap q :=
  fun b c hc => hextends.isSome_block? (h b c hc)

theorem CopiesInRange.insert (h : CopiesInRange blockMap p) {b c : BlockRef}
    (hc : (p.block? c).isSome) : CopiesInRange (blockMap.insert b c) p := by
  have hall : ∀ a d : BlockRef, blockMap[a]? = some d → (p.block? d).isSome := h
  exact forall_getElem?_insert hall hc

theorem isSome_getElem?_insert {a b c : BlockRef} (h : (blockMap[a]?).isSome ∨ a = b) :
    ((blockMap.insert b c)[a]?).isSome := by
  rw [Std.TreeMap.getElem?_insert]
  split
  · rfl
  · next hne => exact h.resolve_right fun heq => hne (by simp [heq])

theorem robust_addCopies (hp : p.Complete typed) (hf : (p.func? f).isSome)
    (hblocks : ∀ b ∈ blocks, (p.block? b).isSome) (hcopies : CopiesInRange blockMap p) :
    Robust typed short (addCopies f thread blocks blockMap)
      (fun copied q => CopiesInRange copied q ∧
        ∀ b, (blockMap[b]?).isSome ∨ b ∈ blocks → (copied[b]?).isSome) p := by
  induction blocks generalizing blockMap p with
  | nil => exact .of_pure hp ⟨hcopies, by simp⟩
  | cons b blocks ih =>
      obtain ⟨hb, hblocks⟩ := List.forall_mem_cons.1 hblocks
      refine .get_bind (.answer_bind (isAnswer_block hb) fun block _ => ?_)
      refine .bind (.appendBlock hp hf) fun copy q hq hpq hcopy => ?_
      refine (ih hq (hpq.isSome_func? hf) (fun c hc => hpq.isSome_block? (hblocks c hc))
        ((hcopies.extend hpq).insert hcopy)).imp fun copied r _ _ ⟨hcopied, hcovers⟩ => ?_
      refine ⟨hcopied, fun c hc => hcovers c ?_⟩
      rw [List.mem_cons, ← or_assoc] at hc
      exact hc.imp_left isSome_getElem?_insert

structure InRange (w : Worker) (blocks : List BlockRef) (p : Program) : Prop where
  param : p.ValueInRange (.param w.func 0)
  entry : (p.block? w.entry).isSome
  exit : (p.block? w.exit).isSome
  copies : CopiesInRange w.blockMap p
  covers : ∀ b ∈ blocks, (w.blockMap[b]?).isSome

theorem InRange.extend (h : w.InRange blocks p) (hextends : p.Extends q) : w.InRange blocks q where
  param := hextends.value h.param
  entry := hextends.isSome_block? h.entry
  exit := hextends.isSome_block? h.exit
  copies := h.copies.extend hextends
  covers := h.covers

theorem isAnswer_copyOf {b : BlockRef} (h : (blockMap[b]?).isSome) :
    IsAnswer (copyOf blockMap b) := by
  obtain ⟨copy, hcopy⟩ := Option.isSome_iff_exists.1 h
  simp only [copyOf, hcopy]
  exact .ok copy

theorem robust_addSkeleton (hp : p.Complete typed) (hparam : p.ValueInRange (.param f 0))
    (hblocks : ∀ b ∈ blocks, (p.block? b).isSome) (hheader : s.loop.header ∈ blocks) :
    Robust typed short (addSkeleton s f thread blocks) (fun w q => w.InRange blocks q) p := by
  have hf {q : Program} (hpq : p.Extends q) : (q.func? f).isSome :=
    isSome_func?_of_param (hpq.value hparam)
  refine .bind (.appendBlock hp (hf (.refl p))) fun entry p₁ hp₁ hext₁ hentry => ?_
  refine .bind (robust_addCopies hp₁ (hf hext₁) (fun b hb => hext₁.isSome_block? (hblocks b hb))
    (by simp [CopiesInRange])) fun copied p₂ hp₂ hext₂ ⟨hcopies, hcovers⟩ => ?_
  have hext := hext₁.trans hext₂
  refine .bind (.appendBlock hp₂ (hf hext)) fun exit p₃ hp₃ hext₃ hexit => ?_
  have hentry := (hext₂.trans hext₃).isSome_block? hentry
  have hcopies := ((hcopies.extend hext₃).insert (b := s.loop.preheader) hentry).insert
    (b := s.loop.exit) hexit
  have hcovers (b : BlockRef) (hb : b ∈ blocks) :
      (((copied.insert s.loop.preheader entry).insert s.loop.exit exit)[b]?).isSome :=
    isSome_getElem?_insert (.inl (isSome_getElem?_insert (.inl (hcovers b (.inr hb)))))
  refine .answer_bind (isAnswer_copyOf (hcovers _ hheader)) fun header hcopy => ?_
  have hheader := hcopies _ _ (copyOf_eq_ok hcopy)
  refine .bind (.appendInstr hp₃ hentry (.br hheader)) fun _ p₄ hp₄ hext₄ _ => ?_
  refine .bind (.appendInstr hp₄ (hext₄.isSome_block? hexit) .retNull) fun _ p₅ hp₅ hext₅ _ => ?_
  have hlast := hext₄.trans hext₅
  exact .of_pure hp₅ ⟨((hext.trans hext₃).trans hlast).value hparam, hlast.isSome_block? hentry,
    hlast.isSome_block? hexit, hcopies.extend hlast, hcovers⟩

theorem exists_of_copyOfTarget {target copy : BlockRef}
    (h : copyOfTarget s blockMap target = .ok copy) : ∃ b : BlockRef, blockMap[b]? = some copy := by
  unfold copyOfTarget at h
  split at h
  · cases h
  · split at h
    · next hclimb =>
        obtain rfl := Except.ok.inj h
        exact exists_of_climb hclimb
    · cases h

theorem exists_of_copyOfPred {pred copy : BlockRef} (h : copyOfPred s blockMap pred = .ok copy) :
    ∃ b : BlockRef, blockMap[b]? = some copy := by
  unfold copyOfPred at h
  split at h
  · next hclimb =>
      obtain rfl := Except.ok.inj h
      exact exists_of_climb hclimb
  · cases h

theorem isAnswer_copyOp (op : Op) : IsAnswer (copyOp s blockMap op) := by
  have htarget (target : BlockRef) : IsAnswer (copyOfTarget s blockMap target) := by
    unfold copyOfTarget
    split
    · exact .rejected _
    · split
      · exact .ok _
      · exact .rejected _
  have hpred (pred : BlockRef) : IsAnswer (copyOfPred s blockMap pred) := by
    unfold copyOfPred
    split
    · exact .ok _
    · exact .rejected _
  unfold copyOp
  split
  · next op' failure hchange =>
      obtain ⟨target, -, hfailure⟩ := Op.changeSuccessors_eq_some hchange
      intro fault hfault
      exact htarget target fault (hfailure.trans (congrArg _ (Except.error.inj hfault)))
  · unfold Op.traverseIncoming
    split
    · refine .bind (.mapM fun pair _ => ?_) fun _ _ => .ok _
      exact .bind (hpred pair.2) fun _ _ => .ok _
    · exact .ok _

/-- A copy goes to copies and comes from copies. -/
theorem opComplete_of_copyOp {op op' : Op} {ty : Ty} (hcopies : CopiesInRange blockMap p)
    (hop : p.OpComplete typed op ty) (h : copyOp s blockMap op = .ok op') :
    p.OpComplete typed op' ty := by
  obtain ⟨rfl, htargets, hpreds⟩ := copyOp_eq_ok h
  refine (hop.mapSuccessors fun target htarget => ?_).mapIncoming fun pred hpred => ?_
  · obtain ⟨b, hb⟩ := exists_of_copyOfTarget (htargets target htarget)
    exact hcopies b _ hb
  · rw [Op.incoming_mapSuccessors] at hpred
    obtain ⟨pair, hpair, rfl⟩ := List.mem_map.1 hpred
    obtain ⟨b, hb⟩ := exists_of_copyOfPred (hpreds pair hpair)
    exact hcopies b _ hb

theorem isAnswer_isCopied {b : BlockRef} {i : InstrRef} {instr : Instr}
    (hb : (p.block? b).isSome) (hi : (p.instr? i).isSome) :
    IsAnswer (isCopied p s thread b i instr) := by
  unfold isCopied
  split
  · exact .ok _
  · split
    · exact .ok _
    · exact .bind (isAnswer_valueName hi) fun _ _ =>
        .bind (isAnswer_block hb) fun _ _ => .rejected _

def ClonesInRange (copies : List (InstrRef × InstrRef)) (p : Program) : Prop :=
  ∀ pair ∈ copies, (p.instr? pair.2).isSome

theorem robust_copyInstrs {b copy : BlockRef} {is : List InstrRef} (hp : p.Complete typed)
    (hw : w.InRange blocks p) (hb : (p.block? b).isSome) (hcopy : (p.block? copy).isSome)
    (his : ∀ i ∈ is, (p.instr? i).isSome) :
    Robust typed short (copyInstrs s w b copy is) (fun copies q => ClonesInRange copies q) p := by
  induction is generalizing p with
  | nil => exact .of_pure hp (by simp [ClonesInRange])
  | cons i is ih =>
      obtain ⟨hi, his⟩ := List.forall_mem_cons.1 his
      refine .get_bind (.answer_bind (isAnswer_instr hi) fun instr hinstr => ?_)
      refine .answer_bind (isAnswer_isCopied hb hi) fun taken _ => ?_
      split
      · refine .answer_bind (isAnswer_copyOp instr.op) fun op hop => ?_
        have hop := opComplete_of_copyOp hw.copies (hp.op (instr_eq_ok_iff.1 hinstr)) hop
        refine .bind (.appendInstr hp hcopy hop) fun clone q hq hpq hclone => ?_
        have hrest := ih hq (hw.extend hpq) (hpq.isSome_block? hb) (hpq.isSome_block? hcopy)
          fun j hj => hpq.isSome_instr? (his j hj)
        refine .bind hrest fun later r hr hqr hlater => .of_pure hr ?_
        exact List.forall_mem_cons.2 ⟨hqr.isSome_instr? hclone.1, hlater⟩
      · exact ih hp hw hb hcopy his

theorem robust_copyBlocks {rest : List BlockRef} (hp : p.Complete typed) (hw : w.InRange blocks p)
    (hrest : ∀ b ∈ rest, b ∈ blocks ∧ (p.block? b).isSome) :
    Robust typed short (copyBlocks s w rest) (fun copies q => ClonesInRange copies q) p := by
  induction rest generalizing p with
  | nil => exact .of_pure hp (by simp [ClonesInRange])
  | cons b rest ih =>
      obtain ⟨⟨hmem, hb⟩, hrest⟩ := List.forall_mem_cons.1 hrest
      refine .answer_bind (isAnswer_copyOf (hw.covers b hmem)) fun copy hcopy => ?_
      have hcopy := hw.copies _ _ (copyOf_eq_ok hcopy)
      refine .get_bind (.answer_bind (isAnswer_block hb) fun block hblock => ?_)
      have his := hp.isSome_instr? (block_eq_ok_iff.1 hblock)
      refine .bind (robust_copyInstrs hp hw hb hcopy his) fun copied q hq hpq hcopied => ?_
      have hlater := ih hq (hw.extend hpq) fun c hc =>
        ⟨(hrest c hc).1, hpq.isSome_block? (hrest c hc).2⟩
      refine .bind hlater fun later r hr hqr hlater => .of_pure hr ?_
      exact List.forall_mem_append.2
        ⟨fun pair hpair => hqr.isSome_instr? (hcopied pair hpair), hlater⟩

theorem ClonesInRange.renaming {copies : List (InstrRef × InstrRef)}
    (h : ClonesInRange copies p) : (copyRenaming copies).InRange p := by
  intro v u hu
  obtain ⟨pair, hpair, -, rfl⟩ := exists_of_copyRenaming hu
  exact .instr (h pair hpair)

theorem robust_loadArgs {entry : BlockRef} {argPtr : InstrRef} {k : Nat} {values : List Value}
    {σ : Renaming} (hp : p.Complete typed) (hentry : (p.block? entry).isSome)
    (hexchange : exchange.InRange typed p) (hargPtr : (p.instr? argPtr).isSome)
    (hvalues : ∀ v ∈ values, p.VariableInRange v) (hσ : σ.InRange p)
    (hk : k + values.length ≤ numberLimit) :
    Robust typed short (loadArgs exchange entry argPtr k values σ) (fun σ q => σ.InRange q) p := by
  induction values generalizing k p σ with
  | nil => exact .of_pure hp hσ
  | cons v values ih =>
      obtain ⟨hv, hvalues⟩ := List.forall_mem_cons.1 hvalues
      rw [List.length_cons] at hk
      refine .get_bind (.answer_bind (isAnswer_valueName hv.inRange) fun name _ => ?_)
      refine .answer_bind (isAnswer_structTy hexchange.isSome_args) fun structTy hstructTy => ?_
      split
      · exact .of_reject _
      · next ty hty =>
          refine Exchange.robust_field_bind (fun hge => by omega) fun _ => ?_
          refine .bind (.insertBeforeEnd hp hentry (.fieldAddr hargPtr hexchange.isSome_args))
            fun addr q hq hpq haddr => ?_
          have hentry := hpq.isSome_block? hentry
          have hty (htyped : typed) := hpq.type
            (hexchange.typeInRange htyped hstructTy (List.mem_of_getElem? hty))
          refine .bind (.insertBeforeEnd hq hentry (.load haddr.1 hty))
            fun loaded r hr hqr hloaded => ?_
          have hpr := hpq.trans hqr
          have hread := isAnswer_valueType (hpr.value hv.inRange)
          refine .get_bind (.answer_bind hread fun declared _ => ?_)
          split
          · exact .of_reject _
          · exact ih hr (hqr.isSome_block? hentry) (hexchange.extend hpr)
              (hpr.isSome_instr? hargPtr) (fun u hu => hpr.variableInRange (hvalues u hu))
              ((hσ.extend hpr).insert (.instr hloaded.1)) (by omega)

theorem robust_unpackArgs {σ : Renaming} (hp : p.Complete typed) (hs : s.InRange p)
    (hready : d.Ready s typed p) (hw : w.InRange blocks p) (hσ : σ.InRange p) :
    Robust typed short (unpackArgs s d.exchange w σ)
      (fun unpacked q => (q.instr? unpacked.1).isSome ∧ unpacked.2.InRange q) p := by
  have hload {q : Program} (hq : q.Complete typed) (hpq : p.Extends q) : Robust typed short (do
      let param ← (← get).paramValue w.func 0
      let argPtr ← Edit.insertBeforeEnd w.entry (.cast param) .ptr "args"
      let σ ← loadArgs d.exchange w.entry argPtr 0 s.live.liveIn σ
      return (argPtr, σ) : Edit (InstrRef × Renaming))
        (fun unpacked q => (q.instr? unpacked.1).isSome ∧ unpacked.2.InRange q) q := by
    have hparam := hpq.value hw.param
    have hentry := hpq.isSome_block? hw.entry
    refine .get_bind ?_
    rw [paramValue_of_inRange hparam]
    refine .answer_bind (.ok _) fun param heq => ?_
    obtain rfl := Except.ok.inj heq
    refine .bind (.insertBeforeEnd hq hentry (.cast ⟨rfl, hparam⟩))
      fun argPtr r hr hqr hargPtr => ?_
    have hpr := hpq.trans hqr
    have hready := hready.extend hpr
    refine .bind (robust_loadArgs hr (hqr.isSome_block? hentry) hready.exchange hargPtr.1
      (hs.extend hpr).live.liveIn (hσ.extend hpr) ?_) fun σ t ht hrt hσ => ?_
    · have := hready.liveIn
      omega
    · exact .of_pure ht ⟨hrt.isSome_instr? hargPtr.1, hσ⟩
  unfold unpackArgs
  dsimp only
  split
  · exact hload hp (.refl p)
  · refine .bind (.requireFunc hp (by simp [TypeInRange])) fun hook q hq hpq hhook => ?_
    exact .bind (.insertBeforeEnd hq (hpq.isSome_block? hw.entry) (.call hhook nofun))
      fun _ r hr hqr _ => hload hr (hpq.trans hqr)

theorem robust_storeEach {σ : Renaming} {outPtr : InstrRef} {owned : List (InstrRef × Nat)}
    (hp : p.Complete typed) (hexit : (p.block? w.exit).isSome)
    (hexchange : exchange.InRange typed p) (houtPtr : (p.instr? outPtr).isSome) (hσ : σ.InRange p)
    (howned : ∀ out ∈ owned, (p.instr? out.1).isSome ∧ out.2 ≤ p.instrs.size) :
    Robust typed short (storeEach exchange w σ outPtr owned) (fun _ _ => True) p := by
  induction owned generalizing p with
  | nil => exact .of_pure hp trivial
  | cons out owned ih =>
      obtain ⟨⟨hi, hk⟩, howned⟩ := List.forall_mem_cons.1 howned
      refine .get_bind (.answer_bind (isAnswer_valueName hi) fun name _ => ?_)
      split
      · exact .of_reject _
      · next v hv =>
          refine Exchange.robust_field_bind (fun hge => .inl (.of_instrs (hge.trans hk)))
            fun _ => ?_
          refine .bind (.insertBeforeEnd hp hexit (.fieldAddr houtPtr hexchange.outs))
            fun addr q hq hpq haddr => ?_
          have hexit := hpq.isSome_block? hexit
          have hvalue := hpq.variableInRange (hσ _ v hv)
          refine .bind (.insertBeforeEnd hq hexit (.store hvalue haddr.1))
            fun store r hr hqr _ => ?_
          have hpr := hpq.trans hqr
          have hrest := ih hr (hqr.isSome_block? hexit) (hexchange.extend hpr)
            (hpr.isSome_instr? houtPtr) (hσ.extend hpr) fun out hout =>
              ⟨hpr.isSome_instr? (howned out hout).1, (howned out hout).2.trans hpr.instrs⟩
          exact .bind hrest fun _ t ht _ _ => .of_pure ht trivial

theorem robust_storeOuts {σ : Renaming} {argPtr : InstrRef} (hp : p.Complete typed)
    (hs : s.InRange p) (hready : d.Ready s typed p) (hw : w.InRange blocks p) (hσ : σ.InRange p)
    (hargPtr : (p.instr? argPtr).isSome) :
    Robust typed short (storeOuts s d.exchange w σ argPtr) (fun _ _ => True) p := by
  have howned : ∀ out ∈ ownedOuts s w.thread,
      (p.instr? out.1).isSome ∧ out.2 ≤ p.instrs.size := by
    intro out hout
    have hlookup := List.mem_zipIdx_iff_getElem?.1 (List.mem_of_mem_filter hout)
    obtain ⟨hlt, -⟩ := List.getElem?_eq_some_iff.1 hlookup
    exact ⟨hs.live.liveOut _ (List.mem_of_getElem? hlookup), hlt.le.trans hready.liveOut⟩
  unfold storeOuts
  split
  · exact .of_pure hp trivial
  · refine .bind (.insertBeforeEnd hp hw.exit (.fieldAddr hargPtr hready.exchange.isSome_args))
      fun outPtr q hq hpq houtPtr => ?_
    exact robust_storeEach hq (hpq.isSome_block? hw.exit) (hready.exchange.extend hpq) houtPtr.1
      (hσ.extend hpq) fun out hout =>
        ⟨hpq.isSome_instr? (howned out hout).1, (howned out hout).2.trans hpq.instrs⟩

theorem robust_build (hp : p.Complete typed) (hs : s.InRange p) (hready : d.Ready s typed p)
    (htracing : s.config.tracing → typed) (hthread : thread < s.threads) :
    Robust typed short (build s d thread) (fun w q => (q.func? w.func).isSome) p := by
  refine .get_bind (.answer_bind (isAnswer_vacantFunc hready) fun f hf => ?_)
  refine .get_bind (.answer_bind (isAnswer_concernedBlocks hs hthread) fun blocks hblocks => ?_)
  -- The header concerns the thread, so it is among the blocks that get a copy.
  obtain ⟨hsublist, -, hheader⟩ := concernedBlocks_eq_ok hblocks
  have hblocks : ∀ b ∈ blocks, (p.block? b).isSome := fun b hb => hs.blocks b (hsublist.subset hb)
  refine .bind (robust_addSkeleton hp (valueInRange_of_vacantFunc hf) hblocks (hheader hs.header))
    fun w p₁ hp₁ hext₁ hw => ?_
  refine .bind (robust_copyBlocks hp₁ hw fun b hb => ⟨hb, hext₁.isSome_block? (hblocks b hb)⟩)
    fun copies p₂ hp₂ hext₂ hcopies => ?_
  have hext := hext₁.trans hext₂
  have hw := hw.extend hext₂
  refine .bind (robust_unpackArgs hp₂ (hs.extend hext) (hready.extend hext) hw hcopies.renaming)
    fun ⟨argPtr, σ⟩ p₃ hp₃ hext₃ ⟨hargPtr, hσ⟩ => ?_
  have hext := hext.trans hext₃
  have hw := hw.extend hext₃
  have hcopied : ∀ i ∈ copies.map Prod.snd, (p₃.instr? i).isSome :=
    List.forall_mem_map.2 fun pair hpair => hext₃.isSome_instr? (hcopies pair hpair)
  refine .bind (σ.robust_apply hp₃ hσ hcopied) fun _ p₄ hp₄ hext₄ _ => ?_
  have hext := hext.trans hext₄
  have hw := hw.extend hext₄
  refine .bind (robust_storeOuts hp₄ (hs.extend hext) (hready.extend hext) hw (hσ.extend hext₄)
    (hext₄.isSome_instr? hargPtr)) fun outStores p₅ hp₅ hext₅ _ => ?_
  have hparam := (hext.trans hext₅).value (valueInRange_of_vacantFunc hf)
  have hlog := s.isAnswer_log hp₅ htracing (isSome_func?_of_param hparam)
  refine .get_bind (.answer_bind hlog fun _ _ => .of_pure hp₅ ?_)
  exact isSome_func?_of_param (hw.extend hext₅).param

end Worker

namespace Splitter

variable {splitter splitter' : Splitter} {config : Config} {f : FuncRef} {loop : Loop}
  {deps : Dependences} {plan : Plan} {outcome : Except Failure Split} {s : Setting} {loopId : Nat}

/-- What a request to split a loop mentions is there. -/
structure RequestInRange (p : Program) (f : FuncRef) (loop : Loop) (deps : Dependences)
    (plan : Plan) : Prop where
  func : (p.func? f).isSome
  header : (p.block? loop.header).isSome
  preheader : (p.block? loop.preheader).isSome
  exit : (p.block? loop.exit).isSome
  blocks : ∀ b ∈ loop.blocks, (p.block? b).isSome
  deps : ∀ edge ∈ deps.edges, (p.instr? edge.dependency).isSome ∧ (p.instr? edge.dependent).isSome
  members : ∀ scc ∈ plan.sccs, ∀ i ∈ scc.members, (p.instr? i).isSome

theorem isAnswer_checkRequest (hrequest : RequestInRange p f loop deps plan) :
    IsAnswer (checkRequest config p f loop plan) := by
  have hplace {func : Func} {role : LoopRole} {b : BlockRef} (hb : (p.block? b).isSome) :
      IsAnswer (checkPlace p f func role b) := by
    refine .bind (isAnswer_block hb) fun block _ => ?_
    split
    · exact .ok ()
    · exact .rejected _
  refine .bind (isAnswer_func hrequest.func) fun func _ => ?_
  refine .guard fun _ => .guard fun _ => .require fun _ => .require fun _ => ?_
  refine .bind (hplace hrequest.header) fun _ _ => .bind (hplace hrequest.preheader) fun _ _ => ?_
  refine .bind (hplace hrequest.exit) fun _ _ => ?_
  refine .bind (.forM fun b hb => hplace (hrequest.blocks b hb)) fun _ _ => .require fun _ => ?_
  split
  · exact .rejected _
  · exact .ok ()

theorem isAnswer_setting (hp : p.InRange) (hrequest : RequestInRange p f loop deps plan) :
    IsAnswer (setting config loopId p f loop deps plan) := by
  have howned {is : List InstrRef} (his : ∀ i ∈ is, (p.instr? i).isSome) :
      IsAnswer (checkOwned p plan is) := by
    induction is with
    | nil => exact .ok ()
    | cons i is ih =>
        obtain ⟨hi, his⟩ := List.forall_mem_cons.1 his
        unfold checkOwned
        dsimp only
        split
        · exact .bind (isAnswer_valueName hi) fun _ _ => .rejected _
        · exact ih his
  refine .bind (Liveness.isAnswer_ofLoop hp hrequest.blocks) fun live hlive => ?_
  have hliveOut := (Liveness.inRange_of_ofLoop hp hlive).liveOut
  refine .bind (howned hliveOut) fun _ _ => ?_
  refine .bind (Dominance.isAnswer_ofFunc hp hrequest.func) fun dominance _ => ?_
  exact .bind (isAnswer_func hrequest.func) fun _ _ => .ok _

theorem inRange_setting (hp : p.InRange) (hrequest : RequestInRange p f loop deps plan)
    (hcheck : checkRequest config p f loop plan = .ok ())
    (h : setting config loopId p f loop deps plan = .ok s) : s.InRange p := by
  obtain ⟨rfl, rfl, rfl, rfl, hthreads, hlive, -⟩ := setting_eq_ok h
  obtain ⟨hplan, hheader, -⟩ := checkRequest_eq_ok hcheck
  refine ⟨hrequest.func, hrequest.exit, hrequest.blocks, Liveness.inRange_of_ofLoop hp hlive, ?_,
    hheader, hthreads.trans hplan.symm⟩
  intro thread i hi
  obtain ⟨j, hj, hi⟩ := List.mem_flatMap.1 hi
  rcases List.mem_cons.1 hi with rfl | hi
  · obtain ⟨scc, hscc, hi⟩ := List.mem_flatMap.1 hj
    exact hrequest.members scc (List.mem_of_mem_filter hscc) i hi
  · obtain ⟨edge, hedge, rfl⟩ := List.mem_map.1 hi
    exact (hrequest.deps edge (List.mem_of_mem_filter hedge)).1

theorem robust_splitIn (hp : p.Complete typed) (hs : s.InRange p)
    (htracing : s.config.tracing → typed)
    (hshort : numberLimit ≤ s.live.liveIn.length → short) :
    Robust typed short (splitIn s) (fun _ _ => True) p := by
  refine .bind (Dispatch.robust_install hp hs hshort) fun d q hq hpq hready => ?_
  have hbuild : Robust typed short ((List.range s.threads).mapM (Worker.build s d))
      (fun ws r => ∀ w ∈ ws, (r.func? w.func).isSome) q := by
    have hkept (w : Worker) (r t : Program) (hw : (r.func? w.func).isSome) (hrt : r.Extends t) :
        (t.func? w.func).isSome := hrt.isSome_func? hw
    refine .mapM hkept hq fun thread hthread r hr hqr => ?_
    exact Worker.robust_build hr (hs.extend (hpq.trans hqr)) (hready.extend hqr) htracing
      (List.mem_range.1 hthread)
  refine .bind hbuild fun workers r hr hqr hworkers => ?_
  have hfunc := (hs.extend (hpq.trans hqr)).func
  have hlog := s.isAnswer_log hr htracing hfunc
  dsimp only
  split
  · have hfuncs : ∀ f ∈ s.func :: workers.map Worker.func, (r.func? f).isSome :=
      List.forall_mem_cons.2 ⟨hfunc, List.forall_mem_map.2 hworkers⟩
    have hcheck := IsAnswer.forM fun f hf => hr.isAnswer_check (hfuncs f hf)
    refine .get_bind (.answer_bind hcheck fun _ _ => ?_)
    exact .get_bind (.answer_bind hlog fun _ _ => .of_pure hr trivial)
  · exact .get_bind (.answer_bind hlog fun _ _ => .of_pure hr trivial)

/-- What a split that is broken off ran out of: numbers for loops, for the entries of a table, or
for the live-ins. -/
theorem split_fault (hp : p.InRange) (htypes : splitter.config.tracing → p.TypesInRange)
    (hrequest : RequestInRange p f loop deps plan) {fault : Fault}
    (h : splitter.split p f loop deps plan = (.error (.fault fault), splitter', q)) :
    (∃ n, fault = .numberTooLarge n) ∧ (numberLimit ≤ splitter.numbered + 1 ∨ q.Overfull ∨
      ∃ live, Liveness.ofLoop p loop = .ok live ∧ numberLimit ≤ live.liveIn.length) := by
  rcases split_cases h with ⟨failure, hrefused, heq, -⟩ | ⟨hcheck, ⟨hlimit, heq, -⟩ | ⟨-, hrun⟩⟩
  · rw [← Except.error.inj heq] at hrefused
    exact absurd hrefused (isAnswer_checkRequest hrequest fault)
  · cases heq
    exact ⟨⟨_, rfl⟩, .inl hlimit⟩
  · have hrobust : Robust splitter.config.tracing
        (∃ live, Liveness.ofLoop p loop = .ok live ∧ numberLimit ≤ live.liveIn.length)
        ((liftM (setting splitter.config splitter.numbered p f loop deps plan) : Edit Setting) >>=
          splitIn) (fun _ _ => True) p := by
      refine .answer_bind (isAnswer_setting hp hrequest) fun s hsetting => ?_
      obtain ⟨-, -, -, -, -, hlive, -, -, hconfig, -⟩ := setting_eq_ok hsetting
      exact robust_splitIn ⟨hp, htypes⟩ (inRange_setting hp hrequest hcheck hsetting)
        (fun hlog => hconfig ▸ hlog) fun hge => ⟨s.live, hlive, hge⟩
    obtain ⟨hnumber, hshortage⟩ := hrobust.fault fault q hrun
    exact ⟨hnumber, .inr hshortage⟩

/-- **Splitting is not broken off.** Take a program whose references lead somewhere, and a request
that mentions what is there, whatever else is wrong with them. If a log is kept, let the references
to structure types lead somewhere too. Then a split is broken off by a number that does not fit into
32 bits and by nothing else. If there is a number for the loop, no table gets overfull, and the
live-ins can be numbered, then the loop is split or the request is refused. -/
theorem split_breaks_off_for_numbers_only (hp : p.InRange)
    (htypes : splitter.config.tracing → p.TypesInRange)
    (hrequest : RequestInRange p f loop deps plan)
    (h : splitter.split p f loop deps plan = (outcome, splitter', q)) :
    (∀ fault, outcome = .error (.fault fault) → ∃ n, fault = .numberTooLarge n) ∧
    (splitter.numbered + 1 < numberLimit → ¬ q.Overfull →
      (∀ live, Liveness.ofLoop p loop = .ok live → live.liveIn.length < numberLimit) →
      (∃ result, outcome = .ok result) ∨ ∃ rejection, outcome = .error (.rejected rejection)) := by
  refine ⟨fun fault hfault => (split_fault hp htypes hrequest (hfault ▸ h)).1,
    fun hnumber hroom hliveIn => ?_⟩
  cases outcome with
  | ok result => exact .inl ⟨result, rfl⟩
  | error failure =>
      cases failure with
      | rejected rejection => exact .inr ⟨rejection, rfl⟩
      | fault fault =>
          rcases (split_fault hp htypes hrequest h).2 with hlimit | hfull | ⟨live, hlive, hlimit⟩
          · exact absurd hnumber (Nat.not_lt.2 hlimit)
          · exact absurd hfull hroom
          · exact absurd (hliveIn live hlive) (Nat.not_lt.2 hlimit)

end Splitter

namespace Tangled

/-- The circle with its first block twice and the block that does not end, as if it were a loop. -/
def loop : Loop := ⟨⟨1⟩, ⟨0⟩, ⟨3⟩, [⟨1⟩, ⟨2⟩, ⟨5⟩, ⟨1⟩]⟩

/-- One thread goes from left to right, the other one back. -/
def plan : Plan := ⟨2, [⟨0, [⟨1⟩]⟩, ⟨1, [⟨2⟩]⟩]⟩

def deps : Dependences := ⟨[⟨⟨1⟩, ⟨2⟩, .control⟩]⟩

def splitter : Splitter := .ofConfig { threads := 2, tracing := true }

theorem inRange : program.InRange where
  layout := by decide
  listed := by decide
  placed := by simp [program, Program.block?]
  operands := by simp [program, Op.operands, ValueInRange, Program.func?]
  targets := by decide
  preds := by decide

theorem typesInRange : program.TypesInRange where
  funcs := by simp [program, TypeInRange, Ty.i1]
  instrs := by simp [program, TypeInRange, Op.types]
  constants := by simp [program, Op.operands, ConstantInRange]

theorem requestInRange : Splitter.RequestInRange program ⟨0⟩ loop deps plan where
  func := by decide
  header := by decide
  preheader := by decide
  exit := by decide
  blocks := by decide
  deps := by decide
  members := by decide

end Tangled

/-- The workers are written although nothing fits, and it is the check of the first one, whose copy
of a repeated block stays empty, that refuses the result. -/
theorem Splitter.split_breaks_off_for_numbers_only_tangled :
    ∃ outcome splitter' q, Tangled.splitter.split Tangled.program ⟨0⟩ Tangled.loop
        Tangled.deps Tangled.plan = (outcome, splitter', q) ∧
      q.instrs.size = 30 ∧ ∃ rejection, outcome = .error (.rejected rejection) := by
  rcases hrun : Tangled.splitter.split Tangled.program ⟨0⟩ Tangled.loop Tangled.deps
    Tangled.plan with ⟨outcome, splitter', q⟩
  have hrefused : (Tangled.splitter.split Tangled.program ⟨0⟩ Tangled.loop
      Tangled.deps Tangled.plan).1.isOk = false := by decide +kernel
  have hsizes : (fun q : Program => (q.funcs.size, q.blocks.size, q.instrs.size, q.structs.size))
      (Tangled.splitter.split Tangled.program ⟨0⟩ Tangled.loop
        Tangled.deps Tangled.plan).2.2 = (6, 16, 30, 2) := by decide +kernel
  have hlive : Liveness.ofLoop Tangled.program Tangled.loop = .ok ⟨[], [.param ⟨0⟩ 0], []⟩ := by
    decide +kernel
  rw [hrun] at hrefused hsizes
  simp only [Prod.mk.injEq] at hsizes
  obtain ⟨hfuncs, hblocks, hinstrs, hstructs⟩ := hsizes
  obtain ⟨-, hanswer⟩ :=
    split_breaks_off_for_numbers_only Tangled.inRange (fun _ => Tangled.typesInRange)
      Tangled.requestInRange hrun
  have hroom : ¬ q.Overfull := by
    simp [Program.Overfull, hfuncs, hblocks, hinstrs, hstructs, numberLimit]
  have hliveIn (live : Liveness) (h : Liveness.ofLoop Tangled.program Tangled.loop = .ok live) :
      live.liveIn.length < numberLimit := by
    obtain rfl := Except.ok.inj (hlive.symm.trans h)
    decide
  refine ⟨outcome, splitter', q, rfl, hinstrs, ?_⟩
  rcases hanswer (by decide) hroom hliveIn with ⟨result, rfl⟩ | hrejected
  · cases hrefused
  · exact hrejected

namespace Counting

/-- The program with a local variable of a structure type that is not there. -/
def undeclared : Program where
  __ := program
  blocks := program.blocks.setIfInBounds 0 ⟨"entry", ⟨0⟩, [⟨9⟩, ⟨0⟩]⟩
  instrs := program.instrs.push ⟨some ⟨0⟩, .alloca (.struct ⟨9⟩), .ptr, some "spot"⟩

theorem inRange_undeclared : undeclared.InRange where
  layout := by decide
  listed := by decide
  placed := by simp [undeclared, program, Program.block?]
  operands := by
    simp [undeclared, program, Op.operands, ValueInRange, Program.func?, Program.instr?, Value.i32]
  targets := by decide
  preds := by decide

theorem requestInRange_undeclared :
    Splitter.RequestInRange undeclared ⟨0⟩ loop setting.deps setting.plan where
  func := by decide
  header := by decide
  preheader := by decide
  exit := by decide
  blocks := by decide
  deps := by decide
  members := by decide

end Counting

namespace Exchange

/-- With more live-ins than there are numbers for fields the second structure is not added. -/
theorem apply_declare_of_le {loopId : Nat} {liveIn : List Value}
    {liveOut : List InstrRef} {outTypes argTypes : List Ty}
    (houts : p.valueTypes (liveOut.map .instr) = .ok outTypes)
    (hargs : p.valueTypes liveIn = .ok argTypes) (hsize : p.structs.size < numberLimit)
    (hlength : numberLimit ≤ argTypes.length) :
    (declare loopId liveIn liveOut).apply p =
      (.error (.fault (.numberTooLarge argTypes.length)), { p with
        structs := p.structs.push ⟨"outstruct_" ++ toString loopId ++ "_ty", outTypes⟩ }) := by
  have hfield : field argTypes.length = .error (.fault (.numberTooLarge argTypes.length)) :=
    if_neg (Nat.not_lt.2 hlength)
  simp only [declare, apply_bind, apply_get, apply_liftM, houts, apply_addStruct _ _ hsize, hargs,
    hfield]

end Exchange

namespace Crowd

def args (n : Nat) : List Value := (List.range n).map (.param ⟨0⟩ ·)

/-- A function with `n` parameters, which calls itself with all of them in a loop of one block. From
the entry control goes to `first`, and there are `more` blocks. -/
def stage (n : Nat) (first : BlockRef) (layout : List BlockRef) (more : List Block) : Program where
  funcs := #[⟨"crowd", List.replicate n .i32, .void, layout, false⟩]
  blocks := (⟨"entry", ⟨0⟩, [⟨0⟩]⟩ :: ⟨"header", ⟨0⟩, [⟨1⟩, ⟨2⟩]⟩ ::
    ⟨"exit", ⟨0⟩, [⟨3⟩]⟩ :: more).toArray
  instrs := #[
    ⟨some ⟨0⟩, .br first, .void, none⟩,
    ⟨some ⟨1⟩, .call (.func ⟨0⟩) (args n), .void, none⟩,
    ⟨some ⟨1⟩, .condBr (.int 1 .i1) ⟨1⟩ ⟨2⟩, .void, none⟩,
    ⟨some ⟨2⟩, .ret none, .void, none⟩]
  structs := #[]

def program (n : Nat) : Program := stage n ⟨1⟩ [⟨0⟩, ⟨1⟩, ⟨2⟩] []

def loop : Loop := ⟨⟨1⟩, ⟨0⟩, ⟨2⟩, [⟨1⟩]⟩

def plan : Plan := ⟨1, [⟨0, [⟨1⟩, ⟨2⟩]⟩]⟩

def config : Config := { threads := 1 }

variable (n : Nat)

theorem inRange : (program n).InRange where
  layout := by simp [program, stage, Program.block?]
  listed := by simp [program, stage, Program.instr?]
  placed := by simp [program, stage, Program.block?]
  operands := by simp [program, stage, args, Op.operands, ValueInRange, Program.func?]
  targets := by simp [program, stage, Op.successors, Program.block?]
  preds := by simp [program, stage, Op.incoming]

theorem requestInRange : Splitter.RequestInRange (program n) ⟨0⟩ loop ⟨[]⟩ plan where
  func := rfl
  header := rfl
  preheader := rfl
  exit := rfl
  blocks := by simp [loop, program, stage, Program.block?]
  deps := nofun
  members := by simp [plan, program, stage, Program.instr?]

theorem listedIn_loop : (program n).listedIn loop.blocks = [⟨1⟩, ⟨2⟩] := rfl

theorem covers : (program n).Covers loop := by
  refine ⟨fun b hb => ?_, ?_⟩
  · obtain rfl : b = ⟨1⟩ := List.mem_singleton.1 hb
    exact ⟨_, rfl⟩
  · rw [listedIn_loop]
    simp [program, stage, Program.instr?]

theorem not_readUnplaced (i : InstrRef) : ¬ (program n).ReadUnplaced i := by
  rintro ⟨reader, instr, hreader, -, hnone⟩
  have hall : ∀ instr ∈ (program n).instrs, instr.block ≠ none := by simp [program, stage]
  exact hall instr (Array.mem_of_getElem? hreader) hnone

theorem not_escapes (i : InstrRef) : ¬ (program n).Escapes loop i := by
  rintro ⟨reader, instr, b, hreader, hmem, -⟩
  have hall : ∀ instr ∈ (program n).instrs, .instr i ∉ instr.op.operands := by
    simp [program, stage, Op.operands, args]
  exact hall instr (Array.mem_of_getElem? hreader) hmem

theorem mem_liveIn_iff {live : Liveness} (h : Liveness.ofLoop (program n) loop = .ok live)
    {v : Value} : v ∈ live.liveIn ↔ v ∈ args n := by
  rw [(Liveness.describes_of_ofLoop h).mem_liveIn_iff, listedIn_loop]
  constructor
  · rintro ⟨hv, -, j, hj, instr, hinstr, hmem⟩
    simp only [List.mem_cons, List.not_mem_nil, or_false] at hj
    rcases hj with rfl | rfl
    · obtain rfl := Option.some.inj hinstr
      rcases List.mem_cons.1 hmem with rfl | hmem
      · cases hv
      · exact hmem
    · obtain rfl := Option.some.inj hinstr
      obtain rfl := List.mem_singleton.1 hmem
      cases hv
  · intro hv
    have hvariable : ∀ v ∈ args n, v.isVariable ∧ live.Foreign v := by
      simp [args, Value.isVariable, Liveness.Foreign]
    exact ⟨(hvariable v hv).1, (hvariable v hv).2, ⟨1⟩, List.mem_cons_self, _, rfl,
      List.mem_cons_of_mem _ hv⟩

/-- Every parameter comes in, and nothing goes out. -/
theorem exists_ofLoop : ∃ live, Liveness.ofLoop (program n) loop = .ok live ∧
    live.liveOut = [] ∧ live.liveIn.Perm (args n) := by
  obtain ⟨live, hlive, horder⟩ :=
    Liveness.exists_ofLoop (covers n) fun i _ => not_readUnplaced n i
  refine ⟨live, hlive, ?_, ?_⟩
  · rw [horder.liveOut_eq]
    simp [not_escapes]
  · have hnodup : (args n).Nodup := List.nodup_range.map fun _ _ h => (Value.param.inj h).2
    have hlive' := (Liveness.describes_of_ofLoop hlive).nodup_liveIn
    exact (List.perm_ext_iff_of_nodup hlive' hnodup).2 fun v => mem_liveIn_iff n hlive

theorem exists_dominance : ∃ dominance, Dominance.ofFunc (program n) ⟨0⟩ = .ok dominance := by
  have hsuccessors : ∀ b ∈ [(⟨0⟩ : BlockRef), ⟨1⟩, ⟨2⟩],
      ∃ targets, (program n).successors b = .ok targets := by
    simp only [List.forall_mem_cons]
    exact ⟨⟨_, rfl⟩, ⟨_, rfl⟩, ⟨_, rfl⟩, nofun⟩
  have hnodup : [(⟨0⟩ : BlockRef), ⟨1⟩, ⟨2⟩].Nodup := by decide
  exact (Dominance.exists_ofFunc_iff rfl hnodup).2 hsuccessors

def setting (live : Liveness) (dominance : Dominance) : Setting where
  func := ⟨0⟩
  loop := loop
  deps := ⟨[]⟩
  plan := plan
  config := config
  loopId := 0
  threads := 1
  live := live
  dominance := dominance
  climbLimit := 4

/-- The program with a block for the loop, which is entered at `first`. -/
def opened (n : Nat) (first : BlockRef) : Program :=
  stage n first [⟨0⟩, ⟨1⟩, ⟨3⟩, ⟨2⟩] [{ name := "loop-replace", func := ⟨0⟩, instrs := [] }]

def staffed (n : Nat) : Program where
  __ := opened n ⟨3⟩
  funcs := (opened n ⟨3⟩).funcs.push ⟨"0_subloop_0", [.ptr], .ptr, [], false⟩

variable (live : Liveness) (dominance : Dominance)

theorem apply_insertBlock :
    (insertBlock ⟨0⟩ 2 "loop-replace").apply (program n) = (.ok ⟨3⟩, opened n ⟨1⟩) := by
  have hfunc : (program n).func? ⟨0⟩ =
      some ⟨"crowd", List.replicate n .i32, .void, [⟨0⟩, ⟨1⟩, ⟨2⟩], false⟩ := rfl
  exact Edit.apply_insertBlock "loop-replace" hfunc (by simp)
    (by simp [program, stage, numberLimit])

theorem apply_redirect :
    (Dispatch.redirect (setting live dominance) ⟨3⟩ [⟨0⟩, ⟨1⟩, ⟨3⟩, ⟨2⟩]).apply (opened n ⟨1⟩) =
      (.ok 1, opened n ⟨3⟩) := by
  have hentry : (Dispatch.redirectBlock (setting live dominance) ⟨3⟩ ⟨0⟩).apply (opened n ⟨1⟩) =
      (.ok 1, opened n ⟨3⟩) := rfl
  have hexit : (Dispatch.redirectBlock (setting live dominance) ⟨3⟩ ⟨2⟩).apply (opened n ⟨3⟩) =
      (.ok 0, opened n ⟨3⟩) := rfl
  have houtside (b : BlockRef) :
      Dispatch.isOutside (setting live dominance) ⟨3⟩ b = (b ≠ ⟨3⟩ ∧ b ∉ loop : Bool) := rfl
  simp [Dispatch.redirect, houtside, loop, Loop.mem_iff, apply_bind, hentry, hexit, Except.map]

theorem apply_addWorkers :
    ([0].mapM (Dispatch.addWorker (setting live dominance))).apply (opened n ⟨3⟩) =
      (.ok [⟨1⟩], staffed n) := by
  have hdigits : toString 0 ++ "_subloop_" ++ toString 0 = "0_subloop_0" := by decide
  have hname : Dispatch.workerName (setting live dominance).loopId 0 = "0_subloop_0" := hdigits
  have hfree : (opened n ⟨3⟩).funcNamed? "0_subloop_0" = none := by
    simp [funcNamed?, opened, stage]
  have hadd : (Dispatch.addWorker (setting live dominance) 0).apply (opened n ⟨3⟩) =
      (.ok ⟨1⟩, staffed n) := by
    simp only [Dispatch.addWorker, apply_bind, apply_get, hname, hfree]
    exact apply_addFunc _ (by simp [opened, stage, numberLimit])
  simp only [List.mapM_cons, List.mapM_nil, apply_bind, hadd, apply_pure]

theorem exists_valueTypes {values : List Value} (h : values.Perm (args n)) :
    ∃ types, (staffed n).valueTypes values = .ok types ∧ types.length = n := by
  have hfunc : (staffed n).func ⟨0⟩ =
      .ok ⟨"crowd", List.replicate n .i32, .void, [⟨0⟩, ⟨1⟩, ⟨3⟩, ⟨2⟩], false⟩ := rfl
  have htype : ∀ v ∈ values, (staffed n).valueType v = .ok .i32 := by
    intro v hv
    obtain ⟨k, hk, rfl⟩ := List.mem_map.1 (h.mem_iff.1 hv)
    have hparam : (List.replicate n Ty.i32)[k]? = some .i32 :=
      List.getElem?_replicate_of_lt (List.mem_range.1 hk)
    simp only [valueType, hfunc, hparam, bind, Except.bind, pure, Except.pure]
  refine ⟨values.map fun _ => .i32, mapM_eq_ok_iff.2 ?_, ?_⟩
  · rw [List.forall₂_map_right_iff, List.forall₂_same]
    exact htype
  · rw [List.length_map, h.length_eq]
    simp [args]

/-- The program when there is no number for the field of the outputs. -/
def halted (n : Nat) : Program where
  __ := staffed n
  structs := #[⟨"outstruct_" ++ toString 0 ++ "_ty", []⟩]

theorem apply_declare (hout : live.liveOut = []) (hin : live.liveIn.Perm (args n))
    (hn : numberLimit ≤ n) :
    (Exchange.declare 0 live.liveIn live.liveOut).apply (staffed n) =
      (.error (.fault (.numberTooLarge n)), halted n) := by
  obtain ⟨types, htypes, rfl⟩ := exists_valueTypes n hin
  have houts : (staffed types.length).valueTypes (live.liveOut.map .instr) = .ok [] := by
    rw [hout]
    rfl
  exact Exchange.apply_declare_of_le houts htypes
    (by simp [staffed, opened, stage, numberLimit]) hn

/-- The block and the worker are there before the live-ins are counted. -/
theorem apply_install (hout : live.liveOut = []) (hin : live.liveIn.Perm (args n))
    (hn : numberLimit ≤ n) :
    (Dispatch.install (setting live dominance)).apply (program n) =
      (.error (.fault (.numberTooLarge n)), halted n) := by
  have hposition : Dispatch.exitPosition (program n) (setting live dominance) = .ok 2 := rfl
  have hinsert : (insertBlock (setting live dominance).func 2 "loop-replace").apply (program n) =
      (.ok ⟨3⟩, opened n ⟨1⟩) := apply_insertBlock n
  have hfunc : (opened n ⟨1⟩).func (setting live dominance).func =
      .ok ⟨"crowd", List.replicate n .i32, .void, [⟨0⟩, ⟨1⟩, ⟨3⟩, ⟨2⟩], false⟩ := rfl
  have hredirect := apply_redirect n live dominance
  have hexit : (opened n ⟨3⟩).block (setting live dominance).loop.exit =
      .ok ⟨"exit", ⟨0⟩, [⟨3⟩]⟩ := rfl
  have hretarget : (Dispatch.retarget (setting live dominance) ⟨3⟩ [⟨3⟩]).apply (opened n ⟨3⟩) =
      (.ok (), opened n ⟨3⟩) := rfl
  have hworkers : ((List.range (setting live dominance).threads).mapM
      (Dispatch.addWorker (setting live dominance))).apply (opened n ⟨3⟩) =
        (.ok [⟨1⟩], staffed n) :=
    apply_addWorkers n live dominance
  have hdeclare : (Exchange.declare (setting live dominance).loopId
      (setting live dominance).live.liveIn
        (setting live dominance).live.liveOut).apply (staffed n) =
        (.error (.fault (.numberTooLarge n)), halted n) :=
    apply_declare n live hout hin hn
  simp only [Dispatch.install, apply_bind, apply_get, apply_liftM, hposition, hinsert, hfunc,
    hredirect, hexit, hretarget, hworkers, hdeclare]

theorem split_program (hn : numberLimit ≤ n) :
    (Splitter.ofConfig config).split (program n) ⟨0⟩ loop ⟨[]⟩ plan =
      (.error (.fault (.numberTooLarge n)), ⟨config, 1⟩, halted n) := by
  obtain ⟨live, hlive, hout, hin⟩ := exists_ofLoop n
  obtain ⟨dominance, hdominance⟩ := exists_dominance n
  have hrequest : Splitter.checkRequest config (program n) ⟨0⟩ loop plan = .ok () := rfl
  have howned : Splitter.checkOwned (program n) plan live.liveOut = .ok () := by
    rw [hout]
    rfl
  have hsetting : Splitter.setting config 0 (program n) ⟨0⟩ loop ⟨[]⟩ plan =
      .ok (setting live dominance) :=
    bind_eq_ok_iff.2 ⟨live, hlive, bind_eq_ok_iff.2 ⟨(), howned, bind_eq_ok_iff.2
      ⟨dominance, hdominance, rfl⟩⟩⟩
  have hrun : (Splitter.splitNumbered config 0 ⟨0⟩ loop ⟨[]⟩ plan).apply (program n) =
      (.error (.fault (.numberTooLarge n)), halted n) := by
    simp only [Splitter.splitNumbered, Splitter.splitIn, apply_bind, apply_get, apply_liftM,
      hsetting, apply_install n live dominance hout hin hn]
  have hnumber : 0 + 1 < numberLimit := by decide
  simp only [Splitter.split, Splitter.ofConfig, hrequest, hnumber, if_true, hrun]

theorem not_overfull_halted : ¬ (halted n).Overfull := by
  simp [Program.Overfull, halted, staffed, opened, stage, numberLimit]

end Crowd

/-- A log that is kept asks for the type of a local variable that nothing else looks at, and more
live-ins than there are numbers can come from one call. In both cases all tables are small. -/
theorem Splitter.split_breaks_off_otherwise :
    (Counting.undeclared.InRange ∧
      RequestInRange Counting.undeclared ⟨0⟩ Counting.loop Counting.setting.deps
        Counting.setting.plan ∧
      ∃ splitter' q, Tangled.splitter.split Counting.undeclared ⟨0⟩ Counting.loop
          Counting.setting.deps Counting.setting.plan =
            (.error (.fault (.noStruct ⟨9⟩)), splitter', q) ∧ ¬ q.Overfull) ∧
    (Crowd.program numberLimit).InRange ∧
      RequestInRange (Crowd.program numberLimit) ⟨0⟩ Crowd.loop ⟨[]⟩ Crowd.plan ∧
      ∃ splitter' q, (ofConfig Crowd.config).split (Crowd.program numberLimit) ⟨0⟩ Crowd.loop ⟨[]⟩
          Crowd.plan = (.error (.fault (.numberTooLarge numberLimit)), splitter', q) ∧
        ¬ q.Overfull := by
  refine ⟨⟨Counting.inRange_undeclared, Counting.requestInRange_undeclared, ?_⟩,
    Crowd.inRange _, Crowd.requestInRange _, _, _, Crowd.split_program _ le_rfl,
    Crowd.not_overfull_halted _⟩
  rcases hrun : Tangled.splitter.split Counting.undeclared ⟨0⟩ Counting.loop Counting.setting.deps
    Counting.setting.plan with ⟨outcome, splitter', q⟩
  have hfault : (Tangled.splitter.split Counting.undeclared ⟨0⟩ Counting.loop Counting.setting.deps
      Counting.setting.plan).1.map (fun _ => ()) = .error (.fault (.noStruct ⟨9⟩)) := by
    decide +kernel
  have hsizes : (fun q : Program => (q.funcs.size, q.blocks.size, q.instrs.size, q.structs.size))
      (Tangled.splitter.split Counting.undeclared ⟨0⟩ Counting.loop Counting.setting.deps
        Counting.setting.plan).2.2 = (6, 14, 43, 2) := by decide +kernel
  rw [hrun] at hfault hsizes
  simp only [Prod.mk.injEq] at hsizes
  obtain ⟨hfuncs, hblocks, hinstrs, hstructs⟩ := hsizes
  refine ⟨splitter', q, ?_, ?_⟩
  · cases outcome with
    | ok result => cases hfault
    | error failure => rw [Except.error.inj hfault]
  · simp [Program.Overfull, hfuncs, hblocks, hinstrs, hstructs, numberLimit]

end Decouple
