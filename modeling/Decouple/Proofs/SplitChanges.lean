import Decouple.Proofs.Frame
import Decouple.Proofs.Splitting

/-!
# The changes that splitting makes

Every step of splitting a loop is gone through once, to see which changes it makes: the block in
the place of the loop comes first, and what follows is permitted in the frame around it. Blocks go
into new functions, instructions into new blocks, and the operations that are revised belong to new
instructions or to ones outside the loop. So a split that is not broken off evolves by the changes
that `Loop.Permits` lists, however far it gets (`Splitter.evolves_of_split`).

What it did not touch can be read off (`Splitter.split_stays_in_frame`).
-/

namespace Decouple

open Outcome Edit Performs

/-- The function is not in the table of `o`, and it may have a body. -/
def Program.IsNewBody (o p : Program) (f : FuncRef) : Prop :=
  o.funcs.size ≤ f.index ∧ ∃ func, p.func? f = some func ∧ ¬ func.external

theorem Program.IsNewBody.evolve {permits : Program → Change → Prop} {o p q : Program}
    {f : FuncRef} (h : o.IsNewBody p f) (hevolves : p.Evolves permits q) : o.IsNewBody q f := by
  obtain ⟨hnew, func, hfunc, hbody⟩ := h
  obtain ⟨blocks, hblocks⟩ := hevolves.func? hfunc
  exact ⟨hnew, _, hblocks, hbody⟩

/-- What holds of all entries of a map and of one more holds after inserting it. -/
theorem forall_getElem?_insert {α β : Type} [Ord α] [Std.TransOrd α] [Std.LawfulEqOrd α]
    {map : Std.TreeMap α β} {good : α → β → Prop} {a : α} {b : β}
    (h : ∀ k v, map[k]? = some v → good k v) (hnew : good a b) :
    ∀ k v, (map.insert a b)[k]? = some v → good k v := by
  intro k v hv
  rw [Std.TreeMap.getElem?_insert] at hv
  split at hv
  · next heq =>
      obtain rfl := Std.LawfulEqOrd.eq_of_compare heq
      obtain rfl := Option.some.inj hv
      exact hnew
  · exact h k v hv

namespace Setting

abbrev PermitsAfter (s : Setting) (o : Program) : Program → Change → Prop :=
  s.loop.PermitsAfter o s.func s.live.liveOut

abbrev Permits (s : Setting) (o : Program) : Program → Change → Prop :=
  s.loop.Permits o s.func s.live.liveOut

abbrev Frame (s : Setting) (o p : Program) : Prop := s.loop.Frame o s.func s.live.liveOut p

def Located (s : Setting) (o : Program) : Prop :=
  ∀ func, o.func? s.func = some func → ∀ b ∈ func.blocks, (o.block? b).isSome

end Setting

variable {s : Setting} {o p q : Program}

/-- Blocks of the layout that keep their place were in the layout before. -/
theorem Loop.Frame.outside {func : Func} {b : BlockRef} (h : s.Frame o p)
    (hfunc : p.func? s.func = some func) (hb : b ∈ func.blocks)
    (houtside : Dispatch.isOutside s ⟨o.blocks.size⟩ b) : s.loop.Outside o s.func b := by
  obtain ⟨hne, hloop⟩ := of_decide_eq_true houtside
  obtain ⟨func', before, after, hfunc', heq, -, hnow⟩ := h.layout
  obtain rfl := Option.some.inj (hnow.symm.trans hfunc)
  refine ⟨func', hfunc', ?_, hloop⟩
  rw [heq]
  simpa [hne] using hb

theorem Loop.Frame.lists_outside {b : BlockRef} {i : InstrRef} (h : s.Frame o p)
    (hlocated : s.Located o) (hb : s.loop.Outside o s.func b) (hi : p.Lists b i) :
    ∃ b, s.loop.Outside o s.func b ∧ o.Lists b i := by
  obtain ⟨func, hfunc, hmem, -⟩ := id hb
  exact ⟨b, hb, (h.lists_iff (hlocated func hfunc b hmem)).1 hi⟩

namespace Renaming

theorem performs_applyEach {σ : Renaming} {is : List InstrRef}
    (h : ∀ i ∈ is, ∀ q, p.Evolves (s.PermitsAfter o) q → i.index < o.instrs.size →
      s.loop.Retouches o s.func s.live.liveOut q i { operand := σ.rename }) :
    Performs (s.PermitsAfter o) (σ.applyEach is) (fun _ _ => True) p := by
  induction is generalizing p with
  | nil => exact of_pure trivial
  | cons i is ih =>
      obtain ⟨hi, his⟩ := List.forall_mem_cons.1 h
      refine get_bind (answer_bind fun instr hinstr => ?_)
      have hlookup := Program.instr_eq_ok_iff.1 hinstr
      have hpermits := Loop.PermitsAfter.setOp hlookup (hi p (.refl p))
      rw [Revision.apply_operand] at hpermits
      refine bind (setInstr hlookup hpermits) fun _ q hq _ => ?_
      exact bind (ih fun j hj r hr => his j hj r (hq.trans hr)) fun _ _ _ _ => of_pure trivial

theorem performs_apply {σ : Renaming} {is : List InstrRef}
    (h : ∀ i ∈ is, ∀ q, p.Evolves (s.PermitsAfter o) q → i.index < o.instrs.size →
      s.loop.Retouches o s.func s.live.liveOut q i { operand := σ.rename }) :
    Performs (s.PermitsAfter o) (σ.apply is) (fun _ _ => True) p := by
  unfold apply
  split
  · exact of_pure trivial
  · exact performs_applyEach h

end Renaming

theorem Program.name_ne_of_funcNamed? {name : String} (h : p.funcNamed? name = none) :
    ∀ g ∈ p.funcs, g.name ≠ name := by
  intro g hg
  rw [funcNamed?, Option.map_eq_none_iff, Array.findIdx?_eq_none_iff] at h
  simpa using h g hg

theorem Edit.performs_requireFunc {name : String} {params : List Ty} {ret : Ty} :
    Performs (s.PermitsAfter o) (requireFunc name params ret) (fun _ _ => True) p :=
  Performs.requireFunc fun hname => .addFunc (Program.name_ne_of_funcNamed? hname)

namespace Exchange

theorem performs_declare {loopId : Nat} {liveIn : List Value} {liveOut : List InstrRef} :
    Performs (s.PermitsAfter o) (declare loopId liveIn liveOut) (fun _ _ => True) p := by
  refine get_bind (answer_bind fun outTypes _ => ?_)
  refine bind (Performs.addStruct .addStruct) fun outs _ _ _ => ?_
  refine answer_bind fun argTypes _ => answer_bind fun outField _ => ?_
  exact bind (Performs.addStruct .addStruct) fun args _ _ _ => of_pure trivial

end Exchange

namespace Dispatch

variable {exchange : Exchange} {block : BlockRef}

theorem performs_redirectBlock {b : BlockRef}
    (houtside : ∀ i, p.Lists b i → ∃ b, s.loop.Outside o s.func b ∧ o.Lists b i) :
    Performs (s.PermitsAfter o) (redirectBlock s ⟨o.blocks.size⟩ b) (fun _ _ => True) p := by
  refine get_bind (answer_bind fun last? hlast => ?_)
  split
  · exact of_pure trivial
  · next last =>
      refine answer_bind fun instr hinstr => ?_
      have hlookup := Program.instr_eq_ok_iff.1 hinstr
      have hpermits : s.PermitsAfter o p (.setOp last _) := .setOp hlookup fun _ =>
        .of_successor (houtside last (Program.lists_of_terminator hlast))
      rw [Revision.apply_successor] at hpermits
      exact bind (Performs.setInstr hlookup hpermits) fun _ _ _ _ => of_pure trivial

theorem performs_redirect {blocks : List BlockRef} (hframe : s.Frame o p)
    (hlocated : s.Located o)
    (hblocks : ∀ b ∈ blocks, isOutside s ⟨o.blocks.size⟩ b → s.loop.Outside o s.func b) :
    Performs (s.PermitsAfter o) (redirect s ⟨o.blocks.size⟩ blocks) (fun _ _ => True) p := by
  induction blocks generalizing p with
  | nil => exact of_pure trivial
  | cons b blocks ih =>
      obtain ⟨hb, hblocks⟩ := List.forall_mem_cons.1 hblocks
      unfold redirect
      split
      · next houtside =>
          refine bind (performs_redirectBlock fun i => hframe.lists_outside hlocated (hb houtside))
            fun _ q hq _ => ?_
          exact bind (ih (hframe.evolve hq) hblocks) fun _ _ _ _ => of_pure trivial
      · rw [pure_bind]
        exact bind (ih hframe hblocks) fun _ _ _ _ => of_pure trivial

theorem performs_retarget {is : List InstrRef} (hexit : s.loop.Outside o s.func s.loop.exit)
    (his : ∀ i ∈ is, o.Lists s.loop.exit i) :
    Performs (s.PermitsAfter o) (retarget s ⟨o.blocks.size⟩ is) (fun _ _ => True) p := by
  refine Performs.forM fun i hi q _ => ?_
  refine get_bind (answer_bind fun instr hinstr => ?_)
  have hlookup := Program.instr_eq_ok_iff.1 hinstr
  have hpermits : s.PermitsAfter o q (.setOp i _) :=
    .setOp hlookup fun _ => .of_pred hexit (his i hi)
  rw [Revision.apply_pred] at hpermits
  exact Performs.setInstr hlookup hpermits

theorem performs_addWorker {thread : Nat} (hframe : s.Frame o p) :
    Performs (s.PermitsAfter o) (addWorker s thread) (fun f q => o.IsNewBody q f) p := by
  refine get_bind ?_
  split
  · exact of_throw _
  · next hname =>
      have hnames := Program.name_ne_of_funcNamed? hname
      refine (Performs.addFunc rfl (.addFunc hnames)).imp fun f q _ hf => ?_
      obtain ⟨rfl, hfunc⟩ := hf
      exact ⟨hframe.size_funcs_le, _, hfunc, Bool.false_ne_true⟩

theorem performs_storeArgs {argPtr : InstrRef} {k : Nat} {values : List Value}
    (hblock : o.blocks.size ≤ block.index) :
    Performs (s.PermitsAfter o) (storeArgs exchange block argPtr k values) (fun _ _ => True) p := by
  induction values generalizing p k with
  | nil => exact of_pure trivial
  | cons v values ih =>
      refine get_bind (answer_bind fun name _ => answer_bind fun n _ => ?_)
      refine bind (Performs.appendInstr fun _ => .addInstr hblock) fun addr _ _ _ => ?_
      exact bind (Performs.appendInstr fun _ => .addInstr hblock) fun _ _ _ _ => ih

theorem performs_callWorkers {dispatch : FuncRef} {shared : InstrRef} {thread : Nat}
    {workers : List FuncRef} (hblock : o.blocks.size ≤ block.index) :
    Performs (s.PermitsAfter o) (callWorkers block dispatch shared thread workers)
      (fun _ _ => True) p := by
  induction workers generalizing p thread with
  | nil => exact of_pure trivial
  | cons worker workers ih =>
      exact bind (Performs.appendInstr fun _ => .addInstr hblock) fun _ _ _ _ => ih

theorem performs_runWorkers {argPtr : InstrRef} {workers : List FuncRef}
    (hblock : o.blocks.size ≤ block.index) :
    Performs (s.PermitsAfter o) (runWorkers s block argPtr workers) (fun _ _ => True) p := by
  refine bind performs_requireFunc fun init _ _ _ => ?_
  refine bind performs_requireFunc fun dispatch _ _ _ => ?_
  refine bind performs_requireFunc fun join _ _ _ => ?_
  refine bind (Performs.appendInstr fun _ => .addInstr hblock) fun _ _ _ _ => ?_
  refine bind (Performs.appendInstr fun _ => .addInstr hblock) fun shared _ _ _ => ?_
  refine bind (performs_callWorkers hblock) fun _ _ _ _ => ?_
  exact bind (Performs.appendInstr fun _ => .addInstr hblock) fun _ _ _ _ => of_pure trivial

def ReadsLoads (s : Setting) (o p : Program) (σ : Renaming) : Prop :=
  ∀ v u : Value, σ[v]? = some u →
    ∃ out ∈ s.live.liveOut, ∃ load, v = .instr out ∧ u = .instr load ∧ Loop.IsNewLoad o p load

theorem ReadsLoads.empty : ReadsLoads s o p ∅ := by
  intro v u hu
  cases Std.TreeMap.getElem?_emptyc.symm.trans hu

theorem ReadsLoads.evolve {σ : Renaming} (h : ReadsLoads s o p σ)
    (hevolves : p.Evolves (s.PermitsAfter o) q) : ReadsLoads s o q σ := by
  intro v u hu
  obtain ⟨out, hout, load, hv, hload, hnew⟩ := h v u hu
  exact ⟨out, hout, load, hv, hload, hnew.evolve hevolves⟩

theorem ReadsLoads.retouches {σ : Renaming} {i : InstrRef} (h : ReadsLoads s o p σ)
    (houtside : ∃ b, s.loop.Outside o s.func b ∧ o.Lists b i) :
    s.loop.Retouches o s.func s.live.liveOut p i { operand := σ.rename } where
  outside := houtside
  successor := fun _ => .inl rfl
  pred := fun _ => .inl rfl
  operand := by
    intro v
    cases hu : σ[v]? with
    | none => exact .inl (by simp [Renaming.rename, hu])
    | some u =>
        obtain ⟨out, hout, load, hv, rfl, hnew⟩ := h v u hu
        exact .inr ⟨out, hout, load, hv, by simp [Renaming.rename, hu], hnew⟩

theorem performs_loadOuts {outPtr : InstrRef} {k : Nat} {outs : List InstrRef} {σ : Renaming}
    (hframe : s.Frame o p) (houts : ∀ i ∈ outs, i ∈ s.live.liveOut) (hσ : ReadsLoads s o p σ) :
    Performs (s.PermitsAfter o) (loadOuts exchange ⟨o.blocks.size⟩ outPtr k outs σ)
      (fun σ q => ReadsLoads s o q σ) p := by
  induction outs generalizing p k σ with
  | nil => exact of_pure hσ
  | cons i outs ih =>
      obtain ⟨hi, houts⟩ := List.forall_mem_cons.1 houts
      have hblock : o.blocks.size ≤ o.blocks.size := Nat.le_refl _
      refine get_bind (answer_bind fun name _ => answer_bind fun ty _ => ?_)
      refine answer_bind fun n _ => ?_
      refine bind (Performs.appendInstr fun _ => .addInstr hblock) fun addr p₁ hp₁ _ => ?_
      refine bind (Performs.appendInstr fun _ => .addInstr hblock) fun loaded p₂ hp₂ hloaded => ?_
      obtain ⟨rfl, hload⟩ := hloaded
      have hframe₁ := hframe.evolve hp₁
      refine ih (hframe₁.evolve hp₂) houts (forall_getElem?_insert (hσ.evolve (hp₁.trans hp₂)) ?_)
      exact ⟨i, hi, _, rfl, rfl, hframe₁.size_instrs_le, _, _, hload, rfl, rfl⟩

theorem performs_unpackOuts {argPtr : InstrRef} (hframe : s.Frame o p) (hlocated : s.Located o) :
    Performs (s.PermitsAfter o) (unpackOuts s exchange ⟨o.blocks.size⟩ argPtr)
      (fun _ _ => True) p := by
  have hblock : o.blocks.size ≤ o.blocks.size := Nat.le_refl _
  refine bind (Performs.appendInstr fun _ => .addInstr hblock) fun outPtr p₁ hp₁ _ => ?_
  refine bind (performs_loadOuts (hframe.evolve hp₁) (fun _ hi => hi) .empty)
    fun σ p₂ hp₂ hσ => ?_
  refine get_bind (answer_bind fun func hfunc => answer_bind fun is his => ?_)
  obtain rfl := instrsOf_eq_ok his
  have hframe₂ := hframe.evolve (hp₁.trans hp₂)
  refine bind (Renaming.performs_apply fun i hi q hq _ => ?_) fun _ _ _ _ => of_pure trivial
  obtain ⟨b, hb, hlists⟩ := Program.mem_listedIn_iff.1 hi
  obtain ⟨hmem, houtside⟩ := List.mem_filter.1 hb
  have hoff := hframe₂.outside (Program.func_eq_ok_iff.1 hfunc) hmem houtside
  exact (hσ.evolve hq).retouches (hframe₂.lists_outside hlocated hoff hlists)

/-- The code of the new block, once the structures are declared. -/
theorem performs_code {workers : List FuncRef} {redirected : Nat} (hframe : s.Frame o p)
    (hlocated : s.Located o) : Performs (s.PermitsAfter o) (do
    let argPtr ← Edit.appendInstr ⟨o.blocks.size⟩ (.alloca (.struct exchange.args)) .ptr "argstruct"
    storeArgs exchange ⟨o.blocks.size⟩ argPtr 0 s.live.liveIn
    runWorkers s ⟨o.blocks.size⟩ argPtr workers
    unless s.live.liveOut.isEmpty do
      unpackOuts s exchange ⟨o.blocks.size⟩ argPtr
    let _ ← Edit.appendInstr ⟨o.blocks.size⟩ (.br s.loop.exit) .void none
    return { block := ⟨o.blocks.size⟩, workers, exchange, redirected : Dispatch })
      (fun d _ => d.workers = workers) p := by
  have hblock : o.blocks.size ≤ o.blocks.size := Nat.le_refl _
  refine bind (Performs.appendInstr fun _ => .addInstr hblock) fun argPtr p₁ hp₁ _ => ?_
  refine bind (performs_storeArgs hblock) fun _ p₂ hp₂ _ => ?_
  refine bind (performs_runWorkers hblock) fun _ p₃ hp₃ _ => ?_
  have hframe₃ := hframe.evolve ((hp₁.trans hp₂).trans hp₃)
  have hend (q : Program) : Performs (s.PermitsAfter o) (do
      let _ ← Edit.appendInstr ⟨o.blocks.size⟩ (.br s.loop.exit) .void none
      return { block := ⟨o.blocks.size⟩, workers, exchange, redirected : Dispatch })
      (fun d _ => d.workers = workers) q :=
    bind (Performs.appendInstr fun _ => .addInstr hblock) fun _ _ _ _ => of_pure rfl
  dsimp only
  split
  · exact hend _
  · exact bind (performs_unpackOuts hframe₃ hlocated) fun _ _ _ _ => hend _

theorem performs_install (hlocated : s.Located o) :
    Performs (s.Permits o) (install s)
      (fun d q => s.Frame o q ∧ ∀ f ∈ d.workers, o.IsNewBody q f) o := by
  refine get_bind (answer_bind fun position hposition => ?_)
  obtain ⟨hexit, func, exitBlock, hfunc, hindex, hexitBlock, -⟩ := exitPosition_eq_ok hposition
  refine bind (Performs.insertBlock (.first hfunc hindex)) fun block p₁ _ hblock => ?_
  obtain ⟨rfl, hmakes⟩ := hblock
  have hframe₁ : s.Frame o p₁ := .of_addBlock hfunc hindex hmakes
  have houtside : s.loop.Outside o s.func s.loop.exit := by
    obtain ⟨func, before, after, hfunc, heq, -⟩ := hframe₁.layout
    exact ⟨func, hfunc, by simp [heq], hexit⟩
  -- from here on the frame is there
  refine hframe₁.performs (Performs.imp ?_ fun d q hq hworkers => ⟨hframe₁.evolve hq, hworkers⟩)
  refine get_bind (answer_bind fun func₁ hfunc₁ => ?_)
  refine bind (performs_redirect hframe₁ hlocated fun b hb =>
    hframe₁.outside (Program.func_eq_ok_iff.1 hfunc₁) hb) fun redirected p₂ hp₂ _ => ?_
  have hframe₂ := hframe₁.evolve hp₂
  refine get_bind (answer_bind fun exitBlock₂ hexitBlock₂ => ?_)
  have hkept := hframe₂.blocks s.loop.exit exitBlock hexitBlock
  obtain rfl := Option.some.inj (hkept.symm.trans (Program.block_eq_ok_iff.1 hexitBlock₂))
  refine bind (performs_retarget houtside fun i hi => ⟨exitBlock, hexitBlock, hi⟩)
    fun _ p₃ hp₃ _ => ?_
  have hframe₃ := hframe₂.evolve hp₃
  refine bind (Performs.mapM (fun f q r hf hr => hf.evolve hr) fun thread _ q hq =>
    performs_addWorker (hframe₃.evolve hq)) fun workers p₄ hp₄ hworkers => ?_
  refine bind Exchange.performs_declare fun exchange p₅ hp₅ _ => ?_
  refine (performs_code (hframe₃.evolve (hp₄.trans hp₅)) hlocated).imp fun d q hq heq => ?_
  rw [heq]
  exact fun f hf => (hworkers f hf).evolve (hp₅.trans hq)

end Dispatch

namespace Worker

variable {exchange : Exchange} {w : Worker} {f : FuncRef}

structure IsNew (o : Program) (w : Worker) : Prop where
  entry : o.blocks.size ≤ w.entry.index
  exit : o.blocks.size ≤ w.exit.index
  copies : ∀ b copy : BlockRef, w.blockMap[b]? = some copy → o.blocks.size ≤ copy.index

theorem performs_appendBlock {name : String} (hframe : s.Frame o p)
    (hf : o.funcs.size ≤ f.index) :
    Performs (s.PermitsAfter o) (appendBlock f name) (fun b _ => o.blocks.size ≤ b.index) p := by
  refine (Performs.appendBlock fun _ => .addBlock hf).imp fun b q _ hb => ?_
  rw [hb]
  exact hframe.size_blocks_le

theorem performs_addCopies {thread : Nat} {blocks : List BlockRef}
    {blockMap : Std.TreeMap BlockRef BlockRef} (hframe : s.Frame o p)
    (hf : o.funcs.size ≤ f.index)
    (hmap : ∀ b copy : BlockRef, blockMap[b]? = some copy → o.blocks.size ≤ copy.index) :
    Performs (s.PermitsAfter o) (addCopies f thread blocks blockMap)
      (fun blockMap _ => ∀ b copy : BlockRef, blockMap[b]? = some copy →
        o.blocks.size ≤ copy.index) p := by
  induction blocks generalizing p blockMap with
  | nil => exact of_pure hmap
  | cons b blocks ih =>
      refine get_bind (answer_bind fun block _ => ?_)
      refine bind (performs_appendBlock hframe hf) fun copy q hq hcopy => ?_
      exact ih (hframe.evolve hq) (forall_getElem?_insert hmap hcopy)

theorem performs_addSkeleton {thread : Nat} {blocks : List BlockRef} (hframe : s.Frame o p)
    (hf : o.funcs.size ≤ f.index) :
    Performs (s.PermitsAfter o) (addSkeleton s f thread blocks)
      (fun w _ => w.IsNew o ∧ w.func = f) p := by
  refine bind (performs_appendBlock hframe hf) fun entry p₁ hp₁ hentry => ?_
  have hframe₁ := hframe.evolve hp₁
  refine bind (performs_addCopies hframe₁ hf fun b copy hcopy => ?_) fun copied p₂ hp₂ hcopied => ?_
  · cases Std.TreeMap.getElem?_emptyc.symm.trans hcopy
  refine bind (performs_appendBlock (hframe₁.evolve hp₂) hf) fun exit p₃ _ hexit => ?_
  refine answer_bind fun header _ => ?_
  refine bind (Performs.appendInstr fun _ => .addInstr hentry) fun _ _ _ _ => ?_
  refine bind (Performs.appendInstr fun _ => .addInstr hexit) fun _ _ _ _ => of_pure ?_
  refine ⟨⟨hentry, hexit, ?_⟩, rfl⟩
  exact forall_getElem?_insert (forall_getElem?_insert hcopied hentry) hexit

theorem performs_copyInstrs {b copy : BlockRef} {is : List InstrRef} (hframe : s.Frame o p)
    (hcopy : o.blocks.size ≤ copy.index) :
    Performs (s.PermitsAfter o) (copyInstrs s w b copy is)
      (fun copies _ => ∀ pair ∈ copies, o.instrs.size ≤ pair.2.index) p := by
  induction is generalizing p with
  | nil => exact of_pure (by simp)
  | cons i is ih =>
      refine get_bind (answer_bind fun instr _ => answer_bind fun taken _ => ?_)
      split
      · refine answer_bind fun op _ => ?_
        refine bind (Performs.appendInstr fun _ => .addInstr hcopy) fun clone q hq hclone => ?_
        refine bind (ih (hframe.evolve hq)) fun copies _ _ hcopies => of_pure ?_
        refine List.forall_mem_cons.2 ⟨?_, hcopies⟩
        rw [hclone.1]
        exact hframe.size_instrs_le
      · exact ih hframe

theorem performs_copyBlocks {blocks : List BlockRef} (hframe : s.Frame o p) (hw : w.IsNew o) :
    Performs (s.PermitsAfter o) (copyBlocks s w blocks)
      (fun copies _ => ∀ pair ∈ copies, o.instrs.size ≤ pair.2.index) p := by
  induction blocks generalizing p with
  | nil => exact of_pure (by simp)
  | cons b blocks ih =>
      refine answer_bind fun copy hcopy => get_bind (answer_bind fun block _ => ?_)
      have hnew := hw.copies b copy (copyOf_eq_ok hcopy)
      refine bind (performs_copyInstrs hframe hnew) fun copied q hq hcopied => ?_
      refine bind (ih (hframe.evolve hq)) fun copies _ _ hcopies => of_pure ?_
      exact List.forall_mem_append.2 ⟨hcopied, hcopies⟩

theorem performs_loadArgs {entry : BlockRef} {argPtr : InstrRef} {k : Nat} {values : List Value}
    {σ : Renaming} (hentry : o.blocks.size ≤ entry.index) :
    Performs (s.PermitsAfter o) (loadArgs exchange entry argPtr k values σ)
      (fun _ _ => True) p := by
  induction values generalizing p k σ with
  | nil => exact of_pure trivial
  | cons v values ih =>
      refine get_bind (answer_bind fun name _ => answer_bind fun structTy _ => ?_)
      split
      · exact of_throw _
      · refine answer_bind fun n _ => ?_
        refine bind (Performs.insertBeforeEnd fun _ => .addInstr hentry) fun addr _ _ _ => ?_
        refine bind (Performs.insertBeforeEnd fun _ => .addInstr hentry) fun loaded _ _ _ => ?_
        refine get_bind (answer_bind fun declared _ => ?_)
        split
        · exact of_throw _
        · exact ih

theorem performs_unpackArgs {σ : Renaming} (hw : w.IsNew o) :
    Performs (s.PermitsAfter o) (unpackArgs s exchange w σ) (fun _ _ => True) p := by
  have hload (q : Program) : Performs (s.PermitsAfter o) (do
      let param ← (← get).paramValue w.func 0
      let argPtr ← Edit.insertBeforeEnd w.entry (.cast param) .ptr "args"
      let σ ← loadArgs exchange w.entry argPtr 0 s.live.liveIn σ
      return (argPtr, σ) : Edit (InstrRef × Renaming)) (fun _ _ => True) q := by
    refine get_bind (answer_bind fun param _ => ?_)
    refine bind (Performs.insertBeforeEnd fun _ => .addInstr hw.entry) fun argPtr _ _ _ => ?_
    exact bind (performs_loadArgs hw.entry) fun _ _ _ _ => of_pure trivial
  unfold unpackArgs
  dsimp only
  split
  · exact hload p
  · refine bind performs_requireFunc fun hook _ _ _ => ?_
    exact bind (Performs.insertBeforeEnd fun _ => .addInstr hw.entry) fun _ q _ _ => hload q

theorem performs_storeEach {σ : Renaming} {outPtr : InstrRef} {owned : List (InstrRef × Nat)}
    (hw : w.IsNew o) :
    Performs (s.PermitsAfter o) (storeEach exchange w σ outPtr owned) (fun _ _ => True) p := by
  induction owned generalizing p with
  | nil => exact of_pure trivial
  | cons out owned ih =>
      refine get_bind (answer_bind fun name _ => ?_)
      split
      · exact of_throw _
      · refine answer_bind fun n _ => ?_
        refine bind (Performs.insertBeforeEnd fun _ => .addInstr hw.exit) fun addr _ _ _ => ?_
        refine bind (Performs.insertBeforeEnd fun _ => .addInstr hw.exit) fun store _ _ _ => ?_
        exact bind ih fun _ _ _ _ => of_pure trivial

theorem performs_storeOuts {σ : Renaming} {argPtr : InstrRef} (hw : w.IsNew o) :
    Performs (s.PermitsAfter o) (storeOuts s exchange w σ argPtr) (fun _ _ => True) p := by
  unfold storeOuts
  split
  · exact of_pure trivial
  · exact bind (Performs.insertBeforeEnd fun _ => .addInstr hw.exit) fun _ _ _ _ =>
      performs_storeEach hw

theorem getElem?_workers_of_vacantFunc {d : Dispatch} {thread : Nat}
    (h : vacantFunc p d thread = .ok f) : d.workers[thread]? = some f := by
  unfold vacantFunc at h
  split at h
  · cases h
  · next f' hf =>
      obtain ⟨func, -, h⟩ := bind_eq_ok_iff.1 h
      dsimp only at h
      obtain ⟨-, h⟩ := require_bind_eq_ok h
      obtain ⟨-, h⟩ := require_bind_eq_ok h
      obtain rfl := Outcome.pure_eq_ok_iff.1 h
      exact hf

theorem performs_build {d : Dispatch} {thread : Nat} (hframe : s.Frame o p)
    (hworkers : ∀ f ∈ d.workers, o.IsNewBody p f) :
    Performs (s.PermitsAfter o) (build s d thread) (fun w q => o.IsNewBody q w.func) p := by
  refine get_bind (answer_bind fun f hf => get_bind (answer_bind fun blocks _ => ?_))
  have hnew := hworkers f (List.mem_of_getElem? (getElem?_workers_of_vacantFunc hf))
  refine bind (performs_addSkeleton hframe hnew.1) fun w p₁ hp₁ hskeleton => ?_
  obtain ⟨hw, rfl⟩ := hskeleton
  refine bind (performs_copyBlocks (hframe.evolve hp₁) hw) fun copies p₂ hp₂ hcopies => ?_
  refine bind (performs_unpackArgs hw) fun unpacked p₃ hp₃ _ => ?_
  obtain ⟨argPtr, σ⟩ := unpacked
  refine bind (Renaming.performs_apply fun i hi q _ hold => ?_) fun _ p₄ hp₄ _ => ?_
  · -- only copies are renamed
    obtain ⟨pair, hpair, rfl⟩ := List.mem_map.1 hi
    exact absurd hold (Nat.not_lt.2 (hcopies pair hpair))
  · refine bind (performs_storeOuts hw) fun _ p₅ hp₅ _ => ?_
    refine get_bind (answer_bind fun _ _ => of_pure ?_)
    exact hnew.evolve ((((hp₁.trans hp₂).trans hp₃).trans hp₄).trans hp₅)

end Worker

/-- The trees can only be built if the blocks of the layout are there. -/
theorem Dominance.isSome_block?_of_ofFunc {f : FuncRef} {func : Func} {dominance : Dominance}
    (h : ofFunc p f = .ok dominance) (hfunc : p.func? f = some func) :
    ∀ b ∈ func.blocks, (p.block? b).isSome := by
  intro b hb
  obtain ⟨flow, hflow, -⟩ := bind_eq_ok_iff.1 h
  obtain ⟨succs, -, hall⟩ := FlowGraph.ofFunc_eq_ok hflow hfunc
  obtain ⟨_, -, targets, htargets, -⟩ := exists_of_forall₂_of_mem hall.flip hb
  obtain ⟨block, hblock, -⟩ := Program.successors_eq_ok_iff.1 htargets
  exact Option.isSome_iff_exists.2 ⟨block, hblock⟩

namespace Splitter

variable {splitter splitter' : Splitter} {f : FuncRef} {loop : Loop} {deps : Dependences}
  {plan : Plan} {outcome : Except Failure Split}

theorem performs_splitIn (hlocated : s.Located o) :
    Performs (s.Permits o) (splitIn s)
      (fun result q => ∀ w ∈ result.workers, o.IsNewBody q w.func) o := by
  refine bind (Dispatch.performs_install hlocated) fun d p₁ _ hd => ?_
  obtain ⟨hframe, hworkers⟩ := hd
  have hstays (w : Worker) (q r : Program) (hw : o.IsNewBody q w.func)
      (hr : q.Evolves (s.PermitsAfter o) r) : o.IsNewBody r w.func := hw.evolve hr
  refine hframe.performs (bind (Performs.mapM hstays fun thread _ q hq => ?_)
    fun workers p₂ _ hnew => ?_)
  · exact Worker.performs_build (hframe.evolve hq) fun f hf => (hworkers f hf).evolve hq
  · dsimp only
    split
    · refine get_bind (answer_bind fun _ _ => ?_)
      exact get_bind (answer_bind fun _ _ => of_pure hnew)
    · exact get_bind (answer_bind fun _ _ => of_pure hnew)

theorem located_of_setting {config : Config} {loopId : Nat}
    (h : setting config loopId p f loop deps plan = .ok s) : s.Located p := by
  obtain ⟨rfl, -, -, -, -, -, hdominance, -⟩ := setting_eq_ok h
  exact fun func hfunc => Dominance.isSome_block?_of_ofFunc hdominance hfunc

/-- The workers are new functions with a body. -/
theorem isNewBody_of_split {result : Split}
    (h : splitter.split p f loop deps plan = (.ok result, splitter', q)) :
    ∀ w ∈ result.workers, p.IsNewBody q w.func := by
  obtain ⟨-, s, hsetting, hsplit⟩ := split_eq_ok h
  have hanswer : IsAnswer (.ok result) := fun fault hfault => nomatch hfault
  obtain ⟨-, hnew⟩ := performs_splitIn (located_of_setting hsetting) _ q hsplit hanswer
  exact hnew result rfl

/-- A split that is not broken off makes the permitted changes only, however far it gets. -/
theorem evolves_of_split (hanswer : IsAnswer outcome)
    (h : splitter.split p f loop deps plan = (outcome, splitter', q)) :
    q = p ∨ ∃ live, Liveness.ofLoop p loop = .ok live ∧
      p.Evolves (loop.Permits p f live.liveOut) q := by
  unfold split at h
  split at h
  · exact .inl (Prod.mk.inj (Prod.mk.inj h).2).2.symm
  · split at h
    · obtain ⟨houtcome, hrest⟩ := Prod.mk.inj h
      obtain ⟨-, hprogram⟩ := Prod.mk.inj hrest
      have hrun : ((liftM (setting splitter.config splitter.numbered p f loop deps plan) :
          Edit Setting) >>= splitIn).apply p = (outcome, q) := Prod.ext houtcome hprogram
      rw [apply_bind, apply_liftM] at hrun
      cases hsetting : setting splitter.config splitter.numbered p f loop deps plan with
      | error failure =>
          rw [hsetting] at hrun
          exact .inl (Prod.mk.inj hrun).2.symm
      | ok s =>
          rw [hsetting] at hrun
          have hlocated := located_of_setting hsetting
          obtain ⟨rfl, rfl, -, -, -, hlive, -⟩ := setting_eq_ok hsetting
          obtain ⟨hevolves, -⟩ := performs_splitIn hlocated outcome q hrun hanswer
          exact .inr ⟨s.live, hlive, hevolves⟩
    · exact .inl (Prod.mk.inj (Prod.mk.inj h).2).2.symm

/-- The blocks of the workers belong to them. -/
theorem houses_of_split {result : Split}
    (h : splitter.split p f loop deps plan = (.ok result, splitter', q)) :
    ∀ w ∈ result.workers, q.Houses w.func := by
  intro w hw
  obtain ⟨hnew, -⟩ := isNewBody_of_split h w hw
  have hnone : p.func? w.func = none := Array.getElem?_eq_none hnew
  have hanswer : IsAnswer (.ok result) := fun fault hfault => nomatch hfault
  rcases evolves_of_split hanswer h with rfl | ⟨live, -, hevolves⟩
  · intro func hfunc
    cases hnone.symm.trans hfunc
  · exact hevolves.houses hnone

/-- Whatever a split that is not broken off ends with, the program is as it was or in the frame
around the new block. -/
theorem split_stays_in_frame (h : splitter.split p f loop deps plan = (outcome, splitter', q))
    (hanswer : IsAnswer outcome) :
    q = p ∨ ∃ live, Liveness.ofLoop p loop = .ok live ∧ loop.Frame p f live.liveOut q := by
  rcases evolves_of_split hanswer h with hsame | ⟨live, hlive, hevolves⟩
  · exact .inl hsame
  · exact (Loop.frame_of_evolves hevolves).imp_right fun hframe => ⟨live, hlive, hframe⟩

/-- The second thread has nothing to do here. The split is refused when the loop is replaced and
the first worker written, and the program stays in the frame. -/
theorem split_stays_in_frame_counting :
    ∃ splitter' q live, (ofConfig Config.standard).split Counting.program ⟨0⟩ Counting.loop
        Counting.setting.deps ⟨2, [⟨0, [⟨1⟩, ⟨2⟩, ⟨3⟩, ⟨4⟩, ⟨5⟩, ⟨6⟩, ⟨7⟩]⟩]⟩ =
          (.error (.rejected (.emptyPartition 1)), splitter', q) ∧
      q ≠ Counting.program ∧ Liveness.ofLoop Counting.program Counting.loop = .ok live ∧
      Counting.loop.Frame Counting.program ⟨0⟩ live.liveOut q := by
  rcases hrun : (ofConfig Config.standard).split Counting.program ⟨0⟩ Counting.loop
      Counting.setting.deps ⟨2, [⟨0, [⟨1⟩, ⟨2⟩, ⟨3⟩, ⟨4⟩, ⟨5⟩, ⟨6⟩, ⟨7⟩]⟩]⟩ with
    ⟨outcome, splitter', q⟩
  have heval : (((ofConfig Config.standard).split Counting.program ⟨0⟩ Counting.loop
      Counting.setting.deps ⟨2, [⟨0, [⟨1⟩, ⟨2⟩, ⟨3⟩, ⟨4⟩, ⟨5⟩, ⟨6⟩, ⟨7⟩]⟩]⟩).1.map fun _ => ()) =
        .error (.rejected (.emptyPartition 1)) ∧
      ((ofConfig Config.standard).split Counting.program ⟨0⟩ Counting.loop
        Counting.setting.deps ⟨2, [⟨0, [⟨1⟩, ⟨2⟩, ⟨3⟩, ⟨4⟩, ⟨5⟩, ⟨6⟩, ⟨7⟩]⟩]⟩).2.2 ≠
          Counting.program := by
    decide +kernel
  rw [hrun] at heval
  obtain ⟨hstop, hchanged⟩ := heval
  cases outcome with
  | ok result => cases hstop
  | error failure =>
      obtain rfl := Except.error.inj hstop
      have hanswer : IsAnswer (.error (.rejected (.emptyPartition 1)) : Except Failure Split) :=
        fun fault hfault => by cases hfault
      rcases split_stays_in_frame hrun hanswer with hsame | ⟨live, hlive, hframe⟩
      · exact absurd hsame hchanged
      · exact ⟨splitter', q, live, rfl, hchanged, hlive, hframe⟩

end Splitter

end Decouple
