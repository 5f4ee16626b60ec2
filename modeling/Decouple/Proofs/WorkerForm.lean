import Decouple.Proofs.Collapse
import Decouple.Proofs.Labels
import Decouple.Proofs.Ownership

/-!
# All of a worker

`Worker.build` fixes the worker of a thread down to the last name (`Worker.Form`):

* its layout is the entry, one new block for each block of the loop that concerns the thread, in
  loop order, and the exit;
* the copy of a block lists, in the order of the block, one copy of each instruction that is a
  terminator or is run by the thread. A copy goes to, and comes from, what *stands for* the blocks
  of its original (`StandsFor`), and reads what is loaded for the live-ins and the copies of what
  was copied, all replaced at once (`Worker.reading`);
* the entry calls the hook, if there is one, and loads the live-ins, and the exit stores the
  live-outs of the thread.

The program need not be well-formed: references in the loop may lead nowhere before the worker is
written and to parts of the worker afterwards. Such a block has a copy like any other, and what is
said of blocks and instructions is said of those that were there.
-/

namespace Decouple

open Outcome

/-- The block `copy` stands for the block `b`: it is entered for `b` or, if there is nothing for
`b`, it stands for the parent of `b`. -/
inductive StandsFor (parent? : BlockRef → Option BlockRef)
    (blockMap : Std.TreeMap BlockRef BlockRef) : BlockRef → BlockRef → Prop
  | here {b copy : BlockRef} (hb : blockMap[b]? = some copy) : StandsFor parent? blockMap b copy
  | above {b up copy : BlockRef} (hb : blockMap[b]? = none) (hup : parent? b = some up)
      (h : StandsFor parent? blockMap up copy) : StandsFor parent? blockMap b copy

theorem standsFor_of_climb {parent? : BlockRef → Option BlockRef}
    {blockMap : Std.TreeMap BlockRef BlockRef} {limit : Nat} {b copy : BlockRef}
    (h : climb parent? (blockMap[·]?) limit b = .ok copy) :
    StandsFor parent? blockMap b copy := by
  fun_induction climb parent? (blockMap[·]?) limit b with
  | case1 limit b found hfound => exact .here (hfound.trans (congrArg some (Except.ok.inj h)))
  | case2 => cases h
  | case3 => cases h
  | case4 b hnone up hup limit ih => exact .above hnone hup (ih h)

namespace Worker

section Reading

variable {s : Setting} {w : Worker}

def concerning (p : Program) (s : Setting) (thread : Nat) : List BlockRef :=
  s.loop.blocks.filter (Concerned p s.loop s.deps s.plan thread ·)

def copyValue (w : Worker) : Value → Value
  | .instr i => .instr (w.copyMap[i]?.getD i)
  | v => v

/-- The load of a live-in: behind the pointer to the arguments, each live-in has an instruction
for its address and one that loads it. -/
def loadOf (argPtr : InstrRef) (j : Nat) : InstrRef := ⟨argPtr.index + 1 + 2 * j + 1⟩

/-- What a worker reads for a value of the loop, if it has its arguments from `argPtr`: what is
loaded for it, if it is a live-in, and otherwise its copy, if it has one. -/
def reading (s : Setting) (w : Worker) (argPtr : InstrRef) (v : Value) : Value :=
  match s.live.liveIn.idxOf? v with
  | some j => .instr (loadOf argPtr j)
  | none => w.copyValue v

def outFields (s : Setting) (w : Worker) (argPtr : InstrRef) : List (Value × Nat) :=
  (ownedOuts s w.thread).map fun out => (reading s w argPtr (.instr out.1), out.2)

/-- The operation `op'` is the operation `op` of the loop in a worker: what stands for a block
replaces it among the successors and where a φ comes from, and `read` replaces the operands. -/
def Adapts (s : Setting) (w : Worker) (read : Value → Value) (op op' : Op) : Prop :=
  ∃ target pred : BlockRef → BlockRef,
    (∀ b ∈ op.successors, StandsFor s.dominance.ipdom? w.blockMap b (target b)) ∧
    (∀ pair ∈ op.incoming, StandsFor s.dominance.idom? w.blockMap pair.2 (pred pair.2)) ∧
    op' = ((op.mapSuccessors target).mapIncoming pred).mapOperands read

theorem adapts_of_placed {op : Op} {read : Value → Value} (h : Placed s w.blockMap op) :
    Adapts s w read op ((copied s w.blockMap op).mapOperands read) := by
  refine ⟨_, _, fun b hb => ?_, fun pair hpair => ?_, rfl⟩
  · have htarget := h.targets b hb
    generalize Op.changed (copyOfTarget s w.blockMap) b = copy at htarget ⊢
    unfold copyOfTarget at htarget
    split at htarget
    · cases htarget
    · split at htarget
      · next hclimb => exact standsFor_of_climb (Except.ok.inj htarget ▸ hclimb)
      · cases htarget
  · have hpred := h.preds pair hpair
    generalize Op.changed (copyOfPred s w.blockMap) pair.2 = copy at hpred ⊢
    unfold copyOfPred at hpred
    split at hpred
    · next hclimb => exact standsFor_of_climb (Except.ok.inj hpred ▸ hclimb)
    · cases hpred

theorem rename_copyRenaming (v : Value) : (copyRenaming w.copies).rename v = w.copyValue v := by
  rw [Renaming.rename, getElem?_copyRenaming]
  cases v with
  | instr i =>
      simp only [copyValue, getElem?_copyMap, Value.instr.injEq]
      cases w.copies.reverse.find? fun pair => decide (pair.1 = i) with
      | none => rfl
      | some pair => rfl
  | _ =>
      rw [List.find?_eq_none.2 (by simp)]
      rfl

/-- The renaming that is applied to the copies says what the worker reads. -/
theorem rename_eq_reading (hnodup : s.live.liveIn.Nodup) (argPtr : InstrRef) :
    (loadRenaming (copyRenaming w.copies) (argPtr.index + 1) s.live.liveIn).rename =
      reading s w argPtr := by
  funext v
  rw [reading]
  cases hfind : s.live.liveIn.idxOf? v with
  | some j =>
      have hj : s.live.liveIn[j]? = some v := by
        obtain ⟨hlt, heq, -⟩ := List.findIdx?_eq_some_iff_getElem.1 hfind
        rw [List.getElem?_eq_getElem hlt, eq_of_beq heq]
      rw [Renaming.rename, loadRenaming_of_nodup hnodup hj]
      rfl
  | none =>
      have hnot : v ∉ s.live.liveIn := List.idxOf?_eq_none_iff.1 hfind
      rw [Renaming.rename, loadRenaming_of_not_mem hnot]
      exact rename_copyRenaming v

end Reading

section Contents

variable {q : Program}

/-- The instructions with the operations and types `code` and the names `labels`, placed in the
block `b`. -/
def instrsIn (b : BlockRef) (code : List (Op × Ty)) (labels : List (Option String)) :
    List Instr :=
  List.zipWith (fun opTy name => { block := some b, op := opTy.1, ty := opTy.2, name }) code labels

/-- The block is there with all that it holds: its references lead to the instructions `instrs`. -/
def Holds (q : Program) (b : BlockRef) (name : String) (func : FuncRef) (refs : List InstrRef)
    (instrs : List Instr) : Prop :=
  q.block? b = some { name, func, instrs := refs } ∧ refs.map q.instr? = instrs.map some

/-- Code of known names, in a block of a known title. -/
theorem Runs.holds {b : BlockRef} {start : Nat} {code : List (Op × Ty)} {last : InstrRef}
    {final : Op} (h : Runs q b start code last final) {name : String} {func : FuncRef}
    (htitle : q.titles[b.index]? = some (name, func)) {labels : List (Option String)}
    (hlength : labels.length = code.length)
    (hlabels : ∀ k < code.length, q.labels[start + k]? = labels[k]?)
    (hlast : q.labels[last.index]? = some none) :
    Holds q b name func (newRefs start code.length ++ [last])
      (instrsIn b (code ++ [(final, .void)]) (labels ++ [none])) := by
  obtain ⟨block, hblock, hlist⟩ := h.listed
  refine ⟨hlist ▸ Program.block?_of_title htitle hblock, ?_⟩
  rw [instrsIn, List.zipWith_append hlength.symm, List.map_append, List.map_append]
  congr 1
  · refine List.ext_getElem? fun k => ?_
    rw [List.getElem?_map, List.getElem?_map, List.getElem?_zipWith]
    rcases Nat.lt_or_ge k code.length with hk | hk
    · obtain ⟨label, hinstr⟩ := h.code k _ _ (List.getElem?_eq_getElem hk)
      have hlabel := (hlabels k hk).symm.trans (Program.label_of_instr? hinstr)
      simp [newRefs, hk, hlabel, hinstr]
    · simp [newRefs, hk]
  · obtain ⟨label, hinstr⟩ := h.final
    obtain rfl := Option.some.inj ((Program.label_of_instr? hinstr).symm.trans hlast)
    simp [hinstr]

theorem length_loadLabels (names : List String) :
    (loadLabels names).length = 2 * names.length := by
  simp [loadLabels, Nat.mul_comm]

theorem length_storeLabels (names : List String) :
    (storeLabels names).length = 2 * names.length := by
  simp [storeLabels, Nat.mul_comm]

theorem length_entryLabels {exchange : Exchange} {name? : Option String} {hook? : Option FuncRef}
    (hhook : IsHook q name? hook?) {names : List String} {types : List Ty}
    (hlength : names.length = types.length) (func : FuncRef) (start : Nat) :
    (entryLabels name? names).length = (entryCode exchange hook? func start types).length := by
  have hcalls : name?.toList.length = hook?.toList.length := by
    cases name? with
    | none =>
        rw [Option.map_eq_none_iff.1 hhook.symm]
        rfl
    | some name =>
        obtain ⟨hook, rfl, -⟩ := Option.map_eq_some_iff.1 hhook.symm
        rfl
  simp only [entryLabels, length_entryCode, hookCode, List.length_append, List.length_map,
    List.length_cons, length_loadLabels, hlength, hcalls]
  omega

theorem length_exitLabels {exchange : Exchange} {names : List String}
    {fields : List (Value × Nat)} (hlength : names.length = fields.length) (argPtr : InstrRef)
    (start : Nat) :
    (exitLabels names).length = (exitCode exchange argPtr start fields).length := by
  match names, fields, hlength with
  | [], [], _ => rfl
  | name :: names, field :: fields, hlength =>
      have hstores : (storeLabels (name :: names)).length =
          (storeCode exchange.outs ⟨start⟩ (start + 1) (field :: fields)).length := by
        rw [length_storeLabels, length_storeCode, hlength]
      exact congrArg (· + 1) hstores

end Contents

section Sources

variable {s : Setting} {w : Worker} {p p₁ q : Program} {f : FuncRef} {func : Func} {thread : Nat}
  {blocks : List BlockRef} {here : BlockRef → List (InstrRef × InstrRef)}

/-- The new blocks are those of the function, in its order. -/
theorem newBlocks_of_addSkeleton (hfunc : p.func? f = some func) (hvacant : func.blocks = [])
    (hexit : s.loop.exit ∉ blocks) (hpreheader : s.loop.preheader ∉ blocks)
    (h : (addSkeleton s f thread blocks).apply p = (.ok w, q)) :
    q.blocks.size = p.blocks.size + (blocks.length + 2) ∧ q.func? f = some
      { func with blocks := newBlocks p.blocks.size (blocks.length + 2) } := by
  obtain ⟨-, -, header, p₁, p₂, hlaid, -, hbr, hret⟩ := laid_of_addSkeleton hfunc hexit hpreheader h
  have hcount : 1 + blocks.length + 1 = blocks.length + 2 := by omega
  have hadded := hlaid.added
  rw [hcount] at hadded
  constructor
  · rw [hret.size_blocks_eq, hbr.size_blocks_eq, hadded.size_eq]
  · have hfunc' := hret.func?_kept (hbr.func?_kept hadded.func?_self)
    rwa [hvacant, List.nil_append] at hfunc'

/-- A block that was not there lists nothing that was. -/
theorem Skeleton.le_of_lists (h : Skeleton s f thread blocks p w q) (hnodup : blocks.Nodup)
    (hnew : q.blocks.size = p.blocks.size + (blocks.length + 2) ∧ q.func? f = some
      { func with blocks := newBlocks p.blocks.size (blocks.length + 2) })
    {b : BlockRef} {i : InstrRef} (hb : p.blocks.size ≤ b.index) (hi : q.Lists b i) :
    p.instrs.size ≤ i.index := by
  obtain ⟨hsize, hfunc⟩ := hnew
  obtain ⟨func', hfunc', -, harranged, -⟩ := h.layout
  obtain rfl := Option.some.inj (hfunc.symm.trans hfunc')
  obtain ⟨block, hblock, hmem⟩ := hi
  obtain ⟨hlt, -⟩ := Array.getElem?_eq_some_iff.1 hblock
  have hlayout : b ∈ newBlocks p.blocks.size (blocks.length + 2) :=
    mem_newBlocks_iff.2 ⟨hb, hsize ▸ hlt⟩
  rcases (harranged hnodup).cases hlayout with rfl | rfl | ⟨c, hc, hcopy⟩
  · obtain ⟨header, -, hentry⟩ := h.entry
    obtain rfl := (hentry.mem_of_lists ⟨block, hblock, hmem⟩).resolve_left (by simp)
    exact Nat.le_refl _
  · obtain rfl := (h.exit.mem_of_lists ⟨block, hblock, hmem⟩).resolve_left (by simp)
    exact Nat.le_succ _
  · obtain ⟨copy, copyBlock, hcopy', hcopyBlock, hempty⟩ := h.empty c hc
    obtain rfl := Option.some.inj (hcopy.symm.trans hcopy')
    obtain rfl := Option.some.inj (hblock.symm.trans hcopyBlock)
    rw [hempty] at hmem
    cases hmem

/-- The copy of the block `b` is filled in `q` by way of `here b`. The block was read as it is in
`p` or, if it is not there, nothing that it lists is. -/
def CopiedBy (s : Setting) (w : Worker) (p q : Program)
    (here : BlockRef → List (InstrRef × InstrRef)) (b : BlockRef) : Prop :=
  ∃ block copy, w.blockMap[b]? = some copy ∧
    (p.block? b = some block ∨ p.block? b = none ∧ ∀ i ∈ block.instrs, p.instrs.size ≤ i.index) ∧
    (∀ i ∈ block.instrs, i.index < q.instrs.size) ∧ Fills s w q block.instrs copy (here b) q

theorem copiedBy_of_copyBlocks {pairs : List (InstrRef × InstrRef)}
    (hskeleton : Skeleton s f thread blocks p w p₁) (hnodup : blocks.Nodup)
    (hnew : p₁.blocks.size = p.blocks.size + (blocks.length + 2) ∧ p₁.func? f = some
      { func with blocks := newBlocks p.blocks.size (blocks.length + 2) })
    (h : (copyBlocks s w blocks).apply p₁ = (.ok pairs, q)) :
    ∃ here, pairs = blocks.flatMap here ∧ ∀ b ∈ blocks, CopiedBy s w p q here b := by
  obtain ⟨func', -, hframed, harranged, hbound⟩ := hskeleton.layout
  obtain ⟨here, rfl, hfills⟩ := copyBlocks_fills hnodup hskeleton.empty
    (fun b hb c hc => (harranged hnodup).inj hb hc) h
  refine ⟨here, rfl, fun b hb => ?_⟩
  obtain ⟨block, copy, hcopy, hread, hthere, hfilled⟩ := hfills b hb
  refine ⟨block, copy, hcopy, ?_, hthere, hfilled⟩
  rcases hread with hblock | ⟨⟨c, hc, hcb⟩, hlists⟩
  · rcases Nat.lt_or_ge b.index p.blocks.size with hlt | hge
    · exact .inl (hskeleton.block?_old b hlt ▸ hblock)
    · exact .inr ⟨Array.getElem?_eq_none hge,
        fun i hi => hskeleton.le_of_lists hnodup hnew hge ⟨block, hblock, hi⟩⟩
  · -- a copy of a block, which is new
    obtain ⟨copy', hcopy', hlayout, -⟩ := hframed.exists_copy hc
    obtain rfl := Option.some.inj (hcb.symm.trans hcopy')
    refine .inr ⟨Array.getElem?_eq_none (hbound b hlayout), fun i hi => ?_⟩
    exact Nat.le_trans (hskeleton.size_eq ▸ Nat.le_add_right _ _) (hlists i hi)

/-- A block that was there is copied as it was. -/
theorem CopiedBy.fills {b : BlockRef} (h : CopiedBy s w p q here b) {block : Block}
    (hblock : p.block? b = some block) : ∃ copy, w.blockMap[b]? = some copy ∧
      (∀ i ∈ block.instrs, i.index < q.instrs.size) ∧
      Fills s w q block.instrs copy (here b) q := by
  obtain ⟨block', copy, hcopy, hread, hthere, hfilled⟩ := h
  have hread := hread.resolve_right fun hnone => by cases hnone.1.symm.trans hblock
  obtain rfl := Option.some.inj (hblock.symm.trans hread)
  exact ⟨copy, hcopy, hthere, hfilled⟩

/-- What was there and is copied from a block is listed in it. -/
theorem CopiedBy.sources {b : BlockRef} (h : CopiedBy s w p q here b) {i c : InstrRef}
    (hi : i.index < p.instrs.size) (hmem : (i, c) ∈ here b) :
    ∃ block, p.block? b = some block ∧ i ∈ block.instrs ∧ takes s q w.thread i ∧
      (here b).map Prod.fst = block.instrs.filter (takes s q w.thread) := by
  obtain ⟨block, copy, -, hread, -, hfilled⟩ := h
  have hsource : i ∈ block.instrs.filter (takes s q w.thread) :=
    hfilled.sources ▸ List.mem_map_of_mem hmem
  obtain ⟨hlisted, htakes⟩ := List.mem_filter.1 hsource
  rcases hread with hblock | ⟨-, hlists⟩
  · exact ⟨block, hblock, hlisted, htakes, hfilled.sources⟩
  · exact absurd hi (Nat.not_lt_of_le (hlists i hlisted))

/-- An instruction that was there has one copy, if no two places list it. -/
theorem copy_unique (hlisted : (p.listedIn blocks).Nodup)
    (hcopied : ∀ b ∈ blocks, CopiedBy s w p q here b) {i c c' : InstrRef}
    (hi : i.index < p.instrs.size) (hc : (i, c) ∈ blocks.flatMap here)
    (hc' : (i, c') ∈ blocks.flatMap here) : c' = c := by
  obtain ⟨b, hb, hmem⟩ := List.mem_flatMap.1 hc
  obtain ⟨b', hb', hmem'⟩ := List.mem_flatMap.1 hc'
  obtain ⟨block, hblock, hlists, -, hsources⟩ := (hcopied b hb).sources hi hmem
  obtain ⟨block', hblock', hlists', -, -⟩ := (hcopied b' hb').sources hi hmem'
  obtain ⟨honce, hapart⟩ := List.nodup_flatMap.1 hlisted
  obtain rfl : b = b' := by
    by_contra hne
    have hsymm : Std.Symm (Function.onFun List.Disjoint
        fun b => ((p.block? b).map Block.instrs).getD []) := ⟨fun _ _ h => List.Disjoint.symm h⟩
    have hdisjoint := hapart.forall hb hb' hne
    exact hdisjoint (by simpa [hblock] using hlists) (by simpa [hblock'] using hlists')
  have hnodup : ((here b).map Prod.fst).Nodup := by
    have hblockNodup : block.instrs.Nodup := by simpa [hblock] using honce b hb
    rw [hsources]
    exact hblockNodup.filter _
  exact congrArg Prod.snd (List.inj_on_of_nodup_map hnodup hmem' hmem rfl)

/-- What was there and is copied is listed in one of the blocks, and it goes into the worker. -/
theorem mem_sources_iff (hcopied : ∀ b ∈ blocks, CopiedBy s w p q here b) {i : InstrRef}
    (hi : i.index < p.instrs.size) : i ∈ (blocks.flatMap here).map Prod.fst ↔
      ∃ b ∈ blocks, p.Lists b i ∧ takes s q w.thread i := by
  constructor
  · intro hmem
    obtain ⟨⟨i, c⟩, hpair, rfl⟩ := List.mem_map.1 hmem
    obtain ⟨b, hb, hhere⟩ := List.mem_flatMap.1 hpair
    obtain ⟨block, hblock, hlists, htakes, -⟩ := (hcopied b hb).sources hi hhere
    exact ⟨b, hb, ⟨block, hblock, hlists⟩, htakes⟩
  · rintro ⟨b, hb, ⟨block, hblock, hlists⟩, htakes⟩
    obtain ⟨copy, -, -, hfilled⟩ := (hcopied b hb).fills hblock
    have hsource : i ∈ (here b).map Prod.fst :=
      hfilled.sources ▸ List.mem_filter.2 ⟨hlists, htakes⟩
    obtain ⟨pair, hpair, rfl⟩ := List.mem_map.1 hsource
    exact List.mem_map_of_mem (List.mem_flatMap.2 ⟨b, hb, hpair⟩)

theorem copyMap_of_unique {i c : InstrRef} (h : (i, c) ∈ w.copies)
    (hunique : ∀ c', (i, c') ∈ w.copies → c' = c) : w.copyMap[i]? = some c := by
  have hmem : i ∈ w.copyMap := mem_copyMap_iff.2 (List.mem_map_of_mem h)
  obtain ⟨c', hc'⟩ := Option.isSome_iff_exists.1 (Std.TreeMap.mem_iff_isSome_getElem?.1 hmem)
  rw [hc', hunique c' (mem_copies_of_copyMap hc')]

end Sources

section Form

variable {s : Setting} {d : Dispatch} {exchange : Exchange} {w : Worker} {p p₁ p₂ q : Program}
  {f : FuncRef} {thread : Nat} {blocks : List BlockRef} {pairs : List (InstrRef × InstrRef)}
  {σ : Renaming} {header : BlockRef} {stores : List InstrRef}
  {here : BlockRef → List (InstrRef × InstrRef)}

/-- All that a worker is, which was written for a thread in the program `p`. The worker has its
arguments from `argPtr`. -/
structure Form (s : Setting) (d : Dispatch) (thread : Nat) (p : Program) (argPtr : InstrRef)
    (w : Worker) (q : Program) : Prop where
  thread_eq : w.thread = thread
  func_eq : d.workers[thread]? = some w.func
  grows : Grows p q
  header_mem : s.loop.header ∈ concerning p s thread
  funcs : ∀ g func, g ≠ w.func → p.func? g = some func → q.func? g = some func
  layout : ∃ func copies, p.func? w.func = some func ∧ func.blocks = [] ∧
    q.func? w.func = some { func with blocks := w.entry :: (copies ++ [w.exit]) } ∧
    w.entry :: (copies ++ [w.exit]) =
      newBlocks p.blocks.size ((concerning p s thread).length + 2) ∧
    (concerning p s thread).map (w.blockMap[·]?) = copies.map some
  exit_eq : w.blockMap[s.loop.exit]? = some w.exit
  preheader_eq : s.loop.preheader ≠ s.loop.exit → w.blockMap[s.loop.preheader]? = some w.entry
  others : ∀ b, b ∉ concerning p s thread → b ≠ s.loop.exit → b ≠ s.loop.preheader →
    w.blockMap[b]? = none
  copies : ∀ b ∈ concerning p s thread, ∀ block, p.block? b = some block → ∃ copy clones,
    w.blockMap[b]? = some copy ∧
    q.block? copy =
      some { name := suffixed thread block.name, func := w.func, instrs := clones } ∧
    clones.Nodup ∧ (∀ clone ∈ clones, p.instrs.size ≤ clone.index) ∧
    List.Forall₂ (fun i clone => ∀ instr, p.instr? i = some instr → w.copyMap[i]? = some clone ∧
      ∃ op, Adapts s w (reading s w argPtr) instr.op op ∧ q.instr? clone = some
        { block := some copy, op, ty := instr.ty, name := instr.name.map (suffixed thread) })
      (block.instrs.filter (takes s q thread)) clones
  mem_copyMap_iff : ∀ i : InstrRef, i.index < p.instrs.size →
    (i ∈ w.copyMap ↔ ∃ b ∈ concerning p s thread, p.Lists b i ∧ takes s p thread i)
  entry : ∃ hook? types names start last header, IsHook q s.config.traceHook hook? ∧
    q.valueTypes s.live.liveIn = .ok types ∧ s.live.liveIn.mapM q.valueName = .ok names ∧
    argPtr = argPtrAt hook? start ∧ w.blockMap[s.loop.header]? = some header ∧
    Holds q w.entry "new-entry" w.func
      (newRefs start (entryCode d.exchange hook? w.func start types).length ++ [last])
      (instrsIn w.entry (entryCode d.exchange hook? w.func start types ++ [(.br header, .void)])
        (entryLabels s.config.traceHook names ++ [none]))
  exit : ∃ names start last,
    ((ownedOuts s thread).mapM fun out => q.valueName (.instr out.1)) = .ok names ∧
    w.outStores = storeRefs (start + 1) (outFields s w argPtr) ∧
    Holds q w.exit "new-exit" w.func
      (newRefs start (exitCode d.exchange argPtr start (outFields s w argPtr)).length ++ [last])
      (instrsIn w.exit (exitCode d.exchange argPtr start (outFields s w argPtr) ++
        [(.ret (some .null), .void)]) (exitLabels names ++ [none]))

/-- Replacing operands does not change which instructions go into a worker. -/
theorem Bordered.takes_eq {refs : List InstrRef} {σ₀ : Renaming} {last last' i : InstrRef}
    (h : Bordered s exchange w refs σ₀ σ header last last' stores p q)
    (hi : i.index < p.instrs.size) : takes s q thread i = takes s p thread i := by
  by_cases hmem : i ∈ refs
  · rw [takes, takes, h.copies i hmem]
    cases p.instr? i with
    | none => rfl
    | some instr => simp
  · exact takes_congr (h.instr?_kept i hi hmem)

namespace Stages

/-- What was there is copied as it was. -/
theorem instr?_old (h : Stages s p₂ exchange f thread blocks pairs σ header stores p p₁ p₂ w q)
    {i : InstrRef} (hi : i.index < p.instrs.size) : p₂.instr? i = p.instr? i := by
  have hi₁ : i.index < p₁.instrs.size := h.skeleton.size_eq ▸ Nat.lt_add_right _ hi
  rw [h.copied.instr?_old i hi₁, h.skeleton.instr?_old i hi]

/-- The copy of an instruction that was there. -/
theorem clone (h : Stages s p₂ exchange f thread blocks pairs σ header stores p p₁ p₂ w q)
    {copy : BlockRef} {pair : InstrRef × InstrRef} {label : Option String} {instr : Instr}
    (hpair : pair ∈ pairs) (hcopy : IsCopy s w p₂ copy p₂ pair)
    (hlabels : LabelsCopy thread q pair label) (hlabel : q.labels[pair.2.index]? = some label)
    (hinstr : p.instr? pair.1 = some instr) (hkept : q.instr? pair.1 = some instr) :
    Placed s w.blockMap instr.op ∧ q.instr? pair.2 = some {
      block := some copy
      op := (Worker.copied s w.blockMap instr.op).mapOperands σ.rename
      ty := instr.ty
      name := instr.name.map (suffixed thread) } := by
  obtain ⟨hlt, -⟩ := Array.getElem?_eq_some_iff.1 hinstr
  obtain ⟨source, name, hsource, hplaced, hname⟩ := h.copies hpair hcopy
  rw [h.instr?_old hlt, hinstr] at hsource
  obtain rfl := Option.some.inj hsource
  obtain ⟨original, horiginal, rfl⟩ := hlabels
  obtain rfl := Option.some.inj ((Program.label_of_instr? hkept).symm.trans horiginal)
  obtain rfl := Option.some.inj ((Program.label_of_instr? hname).symm.trans hlabel)
  exact ⟨hplaced, hname⟩

/-- The copy of a block that was there. -/
theorem copy_of_copiedBy
    (h : Stages s p₂ exchange f thread blocks pairs σ header stores p p₁ p₂ w q)
    (hgrows : Grows p q) {b : BlockRef} (hb : b ∈ blocks)
    (htitle : TitledCopy f thread w.blockMap q b) (hcopied : CopiedBy s w p p₂ here b)
    {block : Block} (hblock : p.block? b = some block) :
    (here b).map Prod.fst = block.instrs.filter (takes s q thread) ∧
      ∃ copy, w.blockMap[b]? = some copy ∧ q.block? copy = some
        { name := suffixed thread block.name, func := f, instrs := (here b).map Prod.snd } ∧
      ∀ pair ∈ here b, IsCopy s w p₂ copy p₂ pair := by
  obtain ⟨copy, hcopy, hthere, hfilled⟩ := hcopied.fills hblock
  refine ⟨?_, copy, hcopy, ?_, hfilled.copies⟩
  · rw [hfilled.sources, h.skeleton.thread_eq]
    exact List.filter_congr fun i hi => (h.bordered.takes_eq (hthere i hi)).symm
  · obtain ⟨copy', name, g, hcopy', hname, hcopyTitle⟩ := htitle
    obtain rfl := Option.some.inj (hcopy.symm.trans hcopy')
    have hkept := Program.title_of_block? (hgrows.block?_kept hblock)
    obtain ⟨rfl, -⟩ := Prod.mk.inj (Option.some.inj (hkept.symm.trans hname))
    obtain ⟨copyBlock, hcopyBlock, hlist⟩ := h.listed hb hcopy hfilled
    exact hlist ▸ Program.block?_of_title hcopyTitle hcopyBlock

end Stages

theorem eq_map_of_stored {owned : List (InstrRef × Nat)} {fields : List (Value × Nat)}
    (h : List.Forall₂ (Stored σ) owned fields) :
    fields = owned.map fun out => (σ.rename (.instr out.1), out.2) := by
  induction h with
  | nil => rfl
  | @cons out field owned fields hfield _ ih =>
      obtain ⟨hvalue, hposition⟩ := hfield
      rw [List.map_cons, ← ih, Renaming.rename, hvalue, ← hposition]
      rfl

/-- The entry and the exit with all that they hold. -/
theorem Bordered.holds {refs : List InstrRef} {σ₀ : Renaming} {last last' : InstrRef}
    (h : Bordered s exchange w refs σ₀ σ header last last' stores p q)
    {names outNames : List String}
    (hnames : s.live.liveIn.mapM q.valueName = .ok names)
    (houtNames : ((ownedOuts s w.thread).mapM fun out => q.valueName (.instr out.1)) =
      .ok outNames)
    (hadds : p.AddsLabels (entryLabels s.config.traceHook names ++ exitLabels outNames) q)
    (hentry : q.titles[w.entry.index]? = some ("new-entry", f))
    (hexit : q.titles[w.exit.index]? = some ("new-exit", f))
    (hlast : q.labels[last.index]? = some none) (hlast' : q.labels[last'.index]? = some none) :
    ∃ hook? types start, IsHook q s.config.traceHook hook? ∧
      q.valueTypes s.live.liveIn = .ok types ∧
      σ = loadRenaming σ₀ ((argPtrAt hook? p.instrs.size).index + 1) s.live.liveIn ∧
      ∃ fields, fields = (ownedOuts s w.thread).map (fun out =>
          (σ.rename (.instr out.1), out.2)) ∧ stores = storeRefs (start + 1) fields ∧
        Holds q w.entry "new-entry" f
          (newRefs p.instrs.size
            (entryCode exchange hook? w.func p.instrs.size types).length ++ [last])
          (instrsIn w.entry (entryCode exchange hook? w.func p.instrs.size types ++
            [(.br header, .void)]) (entryLabels s.config.traceHook names ++ [none])) ∧
        Holds q w.exit "new-exit" f
          (newRefs start
            (exitCode exchange (argPtrAt hook? p.instrs.size) start fields).length ++ [last'])
          (instrsIn w.exit (exitCode exchange (argPtrAt hook? p.instrs.size) start fields ++
            [(.ret (some .null), .void)]) (exitLabels outNames ++ [none])) := by
  obtain ⟨hook?, types, start, fields, hhook, htypes, hσ, hfields, hstores, hstart, hentryRuns,
    hexitRuns⟩ := h.ends
  have hlength := @length_entryLabels q exchange _ _ hhook names types
    (((mapM_eq_ok_iff.1 hnames).length_eq.symm).trans (Program.length_of_valueTypes htypes).symm)
    w.func p.instrs.size
  have hlength' := @length_exitLabels exchange outNames fields
    ((mapM_eq_ok_iff.1 houtNames).length_eq.symm.trans hfields.length_eq)
    (argPtrAt hook? p.instrs.size) start
  refine ⟨hook?, types, start, hhook, htypes, hσ, fields, eq_map_of_stored hfields, hstores,
    hentryRuns.holds hentry hlength (fun k hk => ?_) hlast,
    hexitRuns.holds hexit hlength' (fun k hk => ?_) hlast'⟩
  · rw [hadds.label_new, List.getElem?_append_left (hlength ▸ hk)]
  · rw [hstart, Nat.add_assoc, hadds.label_new, ← hlength,
      List.getElem?_append_right (Nat.le_add_right _ _), Nat.add_sub_cancel_left]

/-- The stages of writing a worker in any program, with the names that are given on the way. -/
structure Traced (s : Setting) (d : Dispatch) (f : FuncRef) (thread : Nat) (blocks : List BlockRef)
    (here : BlockRef → List (InstrRef × InstrRef)) (σ : Renaming) (header : BlockRef)
    (stores : List InstrRef) (p p₁ p₂ : Program) (w : Worker) (q : Program) : Prop where
  stages : Stages s p₂ d.exchange f thread blocks (blocks.flatMap here) σ header stores p p₁ p₂ w q
  grows : Grows p q
  layout : ∃ func, p.func? w.func = some func ∧ func.blocks = [] ∧ q.func? w.func =
    some { func with blocks := newBlocks p.blocks.size (blocks.length + 2) }
  copied : ∀ b ∈ blocks, CopiedBy s w p p₂ here b
  titles : ∀ b ∈ blocks, TitledCopy f thread w.blockMap q b
  labels : ∀ pair ∈ blocks.flatMap here, ∃ label, LabelsCopy thread q pair label ∧
    q.labels[pair.2.index]? = some label
  names : ∃ names outNames, s.live.liveIn.mapM q.valueName = .ok names ∧
    ((ownedOuts s w.thread).mapM fun out => q.valueName (.instr out.1)) = .ok outNames ∧
    p₂.AddsLabels (entryLabels s.config.traceHook names ++ exitLabels outNames) q ∧
    q.titles[w.entry.index]? = some ("new-entry", f) ∧
    q.titles[w.exit.index]? = some ("new-exit", f) ∧
    q.labels[p.instrs.size]? = some none ∧ q.labels[p.instrs.size + 1]? = some none

theorem traced_of_build (hnodup : s.loop.blocks.Nodup) (hpreheader : s.loop.preheader ∉ s.loop)
    (hexit : s.loop.exit ∉ s.loop) (h : (build s d thread).apply p = (.ok w, q)) :
    ∃ f here σ header stores p₁ p₂ w₀,
      Traced s d f thread (concerning p s thread) here σ header stores p p₁ p₂ w₀ q ∧
      (s.loop.header ∈ s.loop → s.loop.header ∈ concerning p s thread) ∧
      w = { w₀ with copies := (concerning p s thread).flatMap here, outStores := stores } := by
  obtain ⟨f, blocks, w₀, pairs, argPtr, σ, n, stores, p₁, p₂, p₃, p₄, hvacant, hblocks, hadd,
    hcopies, hunpack, happly, hstores, rfl⟩ := build_eq_ok h
  obtain ⟨func, hfunc, hempty⟩ := vacantFunc_eq_ok hvacant
  obtain ⟨rfl, hheader⟩ := concernedBlocks_eq_filter hblocks
  have hnodup' := hnodup.filter (Concerned p s.loop s.deps s.plan thread ·)
  have hexit' : s.loop.exit ∉ concerning p s thread :=
    fun hmem => hexit (List.mem_of_mem_filter hmem)
  have hpreheader' : s.loop.preheader ∉ concerning p s thread :=
    fun hmem => hpreheader (List.mem_of_mem_filter hmem)
  have hskeleton := skeleton_of_addSkeleton hfunc hempty hexit' hpreheader' hadd
  have hnew := newBlocks_of_addSkeleton hfunc hempty hexit' hpreheader' hadd
  obtain ⟨here, rfl, hcopied⟩ := copiedBy_of_copyBlocks hskeleton hnodup' hnew hcopies
  have htranscribes := copyBlocks_transcribes (lt_size_of_empty hskeleton.empty) hcopies
  obtain ⟨header, hstages⟩ := stages_of_transcribes hskeleton htranscribes hunpack happly hstores
  obtain ⟨hskeletonLabels, hentryTitle, hexitTitle, htitles⟩ :=
    addSkeleton_titles hnodup' hexit' hpreheader' hadd
  obtain ⟨labels, hcopyLabels, hlabels⟩ := copyBlocks_labels hcopies
  obtain ⟨names, outNames, hnames, houtNames, hborder⟩ := border_labels hunpack happly hstores
  have hafter := hcopyLabels.trans hborder
  have hall := hskeletonLabels.trans hafter
  refine ⟨f, here, σ, header, stores, p₁, p₂, w₀, ⟨hstages, hstages.grows hfunc hempty, ?_, hcopied,
    ?_, ?_, names, outNames, hnames, houtNames, hborder, hafter.title_kept hentryTitle,
    hafter.title_kept hexitTitle, hall.label_new 0, hall.label_new 1⟩, hheader, rfl⟩
  · rw [hskeleton.func_eq]
    exact ⟨func, hfunc, hempty,
      hstages.bordered.func?_kept f _ (htranscribes.func?_kept f _ hnew.2)⟩
  · intro b hb
    exact (htitles b hb).keep hafter
  · intro pair hpair
    obtain ⟨label, hlabel, hlookup⟩ := label_of_mem htranscribes.refs hcopyLabels hlabels hpair
    exact ⟨label, hskeleton.thread_eq ▸ hlabel.keep hborder, hborder.label_kept hlookup⟩

namespace Traced

variable {w₀ : Worker}

/-- The layout has the copies of the blocks in order. -/
theorem layout_eq (h : Traced s d f thread blocks here σ header stores p p₁ p₂ w q)
    (hnodup : blocks.Nodup) : ∃ func copies, p.func? w.func = some func ∧ func.blocks = [] ∧
      q.func? w.func = some { func with blocks := w.entry :: (copies ++ [w.exit]) } ∧
      w.entry :: (copies ++ [w.exit]) = newBlocks p.blocks.size (blocks.length + 2) ∧
      blocks.map (w.blockMap[·]?) = copies.map some := by
  obtain ⟨func, hfunc, hempty, hfunc'⟩ := h.layout
  obtain ⟨func'', hfunc'', -, harranged, -⟩ := h.stages.layout
  obtain rfl := Option.some.inj (hfunc'.symm.trans hfunc'')
  obtain ⟨copies, hcopies, hinOrder⟩ : ∃ copies, newBlocks p.blocks.size (blocks.length + 2) =
    w.entry :: (copies ++ [w.exit]) ∧ _ := (harranged hnodup).exists_copies
  exact ⟨func, copies, hfunc, hempty, hcopies ▸ hfunc', hcopies.symm, hinOrder⟩

/-- The instructions of a block that was there, with their copies. -/
theorem copies (h : Traced s d f thread blocks here σ header stores p p₁ p₂ w₀ q)
    (hw : w = { w₀ with copies := blocks.flatMap here, outStores := stores })
    (hlisted : (p.listedIn blocks).Nodup) {argPtr : InstrRef}
    (hread : σ.rename = reading s w argPtr) {b : BlockRef} (hb : b ∈ blocks) {block : Block}
    (hblock : p.block? b = some block) :
    ∃ copy clones, w.blockMap[b]? = some copy ∧
      q.block? copy =
        some { name := suffixed thread block.name, func := w.func, instrs := clones } ∧
      clones.Nodup ∧ (∀ clone ∈ clones, p.instrs.size ≤ clone.index) ∧
      List.Forall₂ (fun i clone => ∀ instr, p.instr? i = some instr →
        w.copyMap[i]? = some clone ∧ ∃ op, Adapts s w (reading s w argPtr) instr.op op ∧
          q.instr? clone = some
            { block := some copy, op, ty := instr.ty, name := instr.name.map (suffixed thread) })
        (block.instrs.filter (takes s q thread)) clones := by
  subst hw
  have hrefs := h.stages.copied.refs
  have hsub : (here b).Sublist (blocks.flatMap here) := by
    rw [List.flatMap_def]
    exact List.sublist_flatten_of_mem (List.mem_map_of_mem hb)
  obtain ⟨hsources, copy, hcopy, hcopyBlock, hcopies⟩ :=
    h.stages.copy_of_copiedBy h.grows hb (h.titles b hb) (h.copied b hb) hblock
  rw [← h.stages.skeleton.func_eq] at hcopyBlock
  refine ⟨copy, _, hcopy, hcopyBlock, (hsub.map _).nodup (hrefs ▸ nodup_newRefs _ _), ?_, ?_⟩
  · intro clone hclone
    exact h.stages.le_of_mem ((hsub.map _).subset hclone)
  · rw [← hsources, List.forall₂_map_left_iff, List.forall₂_map_right_iff, List.forall₂_same]
    intro pair hhere instr hinstr
    have hpair := hsub.subset hhere
    obtain ⟨hlt, -⟩ := Array.getElem?_eq_some_iff.1 hinstr
    obtain ⟨label, hlabels, hlabel⟩ := h.labels pair hpair
    obtain ⟨hplaced, hclone⟩ := h.stages.clone hpair (hcopies pair hhere) hlabels hlabel hinstr
      (h.grows.instr?_kept hinstr)
    rw [hread] at hclone
    refine ⟨?_, _, adapts_of_placed hplaced, hclone⟩
    exact copyMap_of_unique hpair fun c' hc' => copy_unique hlisted h.copied hlt hpair hc'

theorem mem_copyMap_iff (h : Traced s d f thread blocks here σ header stores p p₁ p₂ w₀ q)
    (hcopies : w.copies = blocks.flatMap here) {i : InstrRef} (hi : i.index < p.instrs.size) :
    i ∈ w.copyMap ↔ ∃ b ∈ blocks, p.Lists b i ∧ takes s p thread i := by
  rw [Worker.mem_copyMap_iff, hcopies, mem_sources_iff h.copied hi, h.stages.skeleton.thread_eq,
    takes_congr (h.stages.instr?_old hi)]

end Traced

/-- Writing a worker determines it. -/
theorem build_determines_form (hnodup : s.loop.blocks.Nodup) (hheader : s.loop.header ∈ s.loop)
    (hpreheader : s.loop.preheader ∉ s.loop) (hexit : s.loop.exit ∉ s.loop)
    (hlisted : (p.listedIn s.loop.blocks).Nodup) (hlive : s.live.liveIn.Nodup)
    (h : (build s d thread).apply p = (.ok w, q)) : ∃ argPtr, Form s d thread p argPtr w q := by
  have hworker := func_of_build h
  obtain ⟨f, here, σ, header, stores, p₁, p₂, w₀, htraced, hheaderMem, hw⟩ :=
    traced_of_build hnodup hpreheader hexit h
  obtain ⟨names, outNames, hnames, houtNames, hadds, hentryTitle, hexitTitle, hlast, hlast'⟩ :=
    htraced.names
  have hstages := htraced.stages
  obtain ⟨hook?, types, start, hhook, htypes, hσ, fields, hfields, hstores, hentry, hexitHolds⟩ :=
    hstages.bordered.holds hnames houtNames hadds hentryTitle hexitTitle hlast hlast'
  have hlisted' : (p.listedIn (concerning p s thread)).Nodup :=
    (List.Sublist.flatMap List.filter_sublist _).nodup hlisted
  have hread : σ.rename = reading s w (argPtrAt hook? p₂.instrs.size) := by
    rw [← rename_eq_reading hlive, hσ, hw]
  have hthread : w₀.thread = thread := hstages.skeleton.thread_eq
  have hfunc : w₀.func = f := hstages.skeleton.func_eq
  have hout : fields = outFields s w (argPtrAt hook? p₂.instrs.size) := by
    rw [hfields, hread, outFields, hw]
  subst hout hw hfunc hthread
  refine ⟨argPtrAt hook? p₂.instrs.size, ?_⟩
  exact {
    thread_eq := rfl
    func_eq := hworker
    grows := htraced.grows
    header_mem := hheaderMem hheader
    funcs := fun g func hne hg => hstages.bordered.func?_kept g func
      (hstages.copied.func?_kept g func (hstages.skeleton.func?_kept g func hne hg))
    layout := htraced.layout_eq (hnodup.filter _)
    exit_eq := hstages.skeleton.exit_eq
    preheader_eq := hstages.skeleton.preheader_eq
    others := hstages.skeleton.others
    copies := fun b hb block hblock => htraced.copies rfl hlisted' hread hb hblock
    mem_copyMap_iff := fun i hi => htraced.mem_copyMap_iff rfl hi
    entry := ⟨hook?, types, names, p₂.instrs.size, _, header, hhook, htypes, hnames, rfl,
      hstages.header_eq, hentry⟩
    exit := ⟨outNames, start, _, houtNames, hstores, hexitHolds⟩ }

end Form

end Worker

/-- The loop that counts, with a hook. The worker of the first thread has no copy of the block 2,
and goes to the copy of the block 3 in its place. -/
def Counting.surveyed (dominance : Dominance) : Setting where
  __ := setting
  config := { Config.standard with traceHook := some "trace" }
  dominance := dominance

theorem Worker.build_determines_form_counting :
    ∃ dominance d p w q argPtr, Dominance.ofFunc Counting.program ⟨0⟩ = .ok dominance ∧
      (Dispatch.install (Counting.surveyed dominance)).apply Counting.program = (.ok d, p) ∧
      (build (Counting.surveyed dominance) d 0).apply p = (.ok w, q) ∧
      Form (Counting.surveyed dominance) d 0 p argPtr w q := by
  have hok : (((liftM (Dominance.ofFunc Counting.program ⟨0⟩) : Edit Dominance) >>= fun dominance =>
      Dispatch.install (Counting.surveyed dominance) >>= fun d =>
        build (Counting.surveyed dominance) d 0).apply Counting.program).1.isOk := by decide +kernel
  obtain ⟨w, q, hall⟩ := Edit.exists_of_isOk hok
  obtain ⟨dominance, _, hlookup, hboth⟩ := Edit.apply_bind_eq_ok_iff.1 hall
  obtain ⟨hdominance, rfl⟩ := Edit.liftM_eq_ok_iff.1 hlookup
  obtain ⟨d, p, hinstall, hbuild⟩ := Edit.apply_bind_eq_ok_iff.1 hboth
  have hnodup : Counting.loop.blocks.Nodup := by decide
  have hheader : Counting.loop.header ∈ Counting.loop := by decide
  have hpreheader : Counting.loop.preheader ∉ Counting.loop := by decide
  have hexit : Counting.loop.exit ∉ Counting.loop := by decide
  have hlive : Counting.setting.live.liveIn.Nodup := by decide
  have hlisted : (p.listedIn Counting.loop.blocks).Nodup := by
    have hp : ((((liftM (Dominance.ofFunc Counting.program ⟨0⟩) : Edit Dominance) >>=
        fun dominance => Dispatch.install (Counting.surveyed dominance)).apply
          Counting.program).2.listedIn Counting.loop.blocks).Nodup := by decide +kernel
    simpa only [Edit.apply_bind, Edit.apply_liftM, hdominance, hinstall] using hp
  obtain ⟨argPtr, hform⟩ :=
    build_determines_form (s := Counting.surveyed dominance) hnodup hheader hpreheader hexit
      hlisted hlive hbuild
  exact ⟨dominance, d, p, w, q, argPtr, hdominance, hinstall, hbuild, hform⟩

end Decouple
