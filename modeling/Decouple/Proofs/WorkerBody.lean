import Decouple.Proofs.Copying
import Decouple.Proofs.WorkerBorder
import Mathlib.Data.List.ReduceOption

/-!
# What writing a worker leaves behind

`Worker.build` in three stages (`stages_of_build`): the blocks of the worker are added
(`Skeleton`), the copies are filled, and the entry and the exit are written. The program before
it shares the blocks of the loop with the program `o` before the split (`Shares`), and what was
there is as it was (`Grows`).

If the loop lists no block twice, then the function of the worker has one copy for each block
that concerns the thread (`Body`, `body_of_build`): the copies hold the copied instructions in
their order, with the blocks and the operands replaced, the entry loads the live-ins and goes to
the copy of the header, and the exit stores live-outs and returns.
-/

namespace Decouple

open Outcome

namespace Worker

section Skeleton

variable {s : Setting} {w : Worker} {p q : Program} {func : Func} {f : FuncRef} {thread : Nat}
  {blocks : List BlockRef}

theorem getElem?_insert_of_ne {blockMap : Std.TreeMap BlockRef BlockRef} {a b c : BlockRef}
    (h : b ≠ a) : (blockMap.insert a c)[b]? = blockMap[b]? := by
  rw [Std.TreeMap.getElem?_insert, if_neg fun heq => h (Std.LawfulEqOrd.eq_of_compare heq).symm]

theorem addCopies_cons_eq_ok {blockMap blockMap' : Std.TreeMap BlockRef BlockRef} {b : BlockRef}
    (h : (addCopies f thread (b :: blocks) blockMap).apply p = (.ok blockMap', q)) :
    ∃ block copy between, p.block? b = some block ∧
      (Edit.appendBlock f (block.name ++ "_" ++ toString thread)).apply p = (.ok copy, between) ∧
      (addCopies f thread blocks (blockMap.insert b copy)).apply between = (.ok blockMap', q) := by
  unfold addCopies at h
  rw [Edit.get_bind_eq_ok_iff] at h
  obtain ⟨block, p', hlookup, h⟩ := Edit.apply_bind_eq_ok_iff.1 h
  obtain ⟨hblock, rfl⟩ := Edit.liftM_eq_ok_iff.1 hlookup
  obtain ⟨copy, p₁, hcopy, h⟩ := Edit.apply_bind_eq_ok_iff.1 h
  exact ⟨block, copy, p₁, Program.block_eq_ok_iff.1 hblock, hcopy, h⟩

/-- Empty copies are added for the blocks in order, and the map is extended by them. -/
theorem addCopies_spec {blockMap blockMap' : Std.TreeMap BlockRef BlockRef}
    (hfunc : p.func? f = some func)
    (h : (addCopies f thread blocks blockMap).apply p = (.ok blockMap', q)) :
    AddsBlocks f func blocks.length p q ∧
      (∀ b, b ∉ blocks → blockMap'[b]? = blockMap[b]?) ∧
      (∀ b ∈ blocks, ∃ copy ∈ newBlocks p.blocks.size blocks.length,
        blockMap'[b]? = some copy) ∧
      (blocks.Nodup →
        blocks.map (blockMap'[·]?) = (newBlocks p.blocks.size blocks.length).map some) := by
  induction blocks generalizing p func blockMap with
  | nil =>
      obtain ⟨rfl, rfl⟩ := Edit.pure_eq_ok_iff.1 h
      exact ⟨.refl hfunc, fun _ _ => rfl, by simp, fun _ => rfl⟩
  | cons b blocks ih =>
      obtain ⟨block, copy, p₁, -, hcopy, h⟩ := addCopies_cons_eq_ok h
      obtain ⟨rfl, hfirst⟩ := AddsBlocks.of_appendBlock hfunc hcopy
      obtain ⟨hrest, hothers, hcopies, hinOrder⟩ := ih hfirst.func?_self h
      have hnew : newBlocks p.blocks.size (b :: blocks).length =
          ⟨p.blocks.size⟩ :: newBlocks p₁.blocks.size blocks.length := by
        rw [hfirst.size_eq, List.length_cons, newBlocks_succ]
      rw [hnew]
      refine ⟨?_, ?_, ?_, ?_⟩
      · have hboth := hfirst.trans hrest
        rwa [Nat.add_comm] at hboth
      · intro c hc
        rw [hothers c (List.not_mem_of_not_mem_cons hc),
          getElem?_insert_of_ne (List.ne_of_not_mem_cons hc)]
      · intro c hc
        by_cases hlater : c ∈ blocks
        · obtain ⟨copy, hcopy, hlookup⟩ := hcopies c hlater
          exact ⟨copy, List.mem_cons_of_mem _ hcopy, hlookup⟩
        · obtain rfl := (List.mem_cons.1 hc).resolve_right hlater
          refine ⟨_, List.mem_cons_self .., ?_⟩
          rw [hothers c hlater, Std.TreeMap.getElem?_insert_self]
      · intro hnodup
        obtain ⟨hnotmem, hnodup⟩ := List.nodup_cons.1 hnodup
        rw [List.map_cons, hinOrder hnodup, hothers b hnotmem, Std.TreeMap.getElem?_insert_self,
          List.map_cons]

/-- The layout begins with the entry and ends with the exit, and the copies of the blocks stand
between them. -/
structure Framed (blocks : List BlockRef) (w : Worker) (layout : List BlockRef) : Prop where
  layout_eq : ∃ copies, layout = w.entry :: (copies ++ [w.exit]) ∧
    ∀ b ∈ blocks, ∃ copy ∈ copies, w.blockMap[b]? = some copy
  nodup : layout.Nodup

namespace Framed

variable {layout : List BlockRef} {b : BlockRef}

theorem head?_eq (h : Framed blocks w layout) : layout.head? = some w.entry := by
  obtain ⟨copies, rfl, -⟩ := h.layout_eq
  rfl

theorem exit_mem (h : Framed blocks w layout) : w.exit ∈ layout := by
  obtain ⟨copies, rfl, -⟩ := h.layout_eq
  simp

theorem entry_ne_exit (h : Framed blocks w layout) : w.entry ≠ w.exit := by
  obtain ⟨copies, rfl, -⟩ := h.layout_eq
  intro heq
  exact (List.nodup_cons.1 h.nodup).1 (by simp [heq])

/-- The copy of a block is in the layout and is neither the entry nor the exit. -/
theorem exists_copy (h : Framed blocks w layout) (hb : b ∈ blocks) :
    ∃ copy, w.blockMap[b]? = some copy ∧ copy ∈ layout ∧ copy ≠ w.entry ∧ copy ≠ w.exit := by
  obtain ⟨copies, rfl, hcopies⟩ := h.layout_eq
  obtain ⟨copy, hcopy, hlookup⟩ := hcopies b hb
  obtain ⟨hentry, hrest⟩ := List.nodup_cons.1 h.nodup
  refine ⟨copy, hlookup, by simp [hcopy], ?_, ?_⟩
  · rintro rfl
    exact hentry (by simp [hcopy])
  · rintro rfl
    exact (List.nodup_append.1 hrest).2.2 _ hcopy _ (List.mem_singleton_self _) rfl

end Framed

/-- The layout has the copies of the blocks in order, between the entry and the exit. -/
structure Arranged (blocks : List BlockRef) (w : Worker) (layout : List BlockRef) : Prop
    extends Framed blocks w layout where
  in_order : blocks.map (w.blockMap[·]?) = layout.tail.dropLast.map some

namespace Arranged

variable {layout : List BlockRef} {b c : BlockRef}

theorem nodup_copies (h : Arranged blocks w layout) : (blocks.map (w.blockMap[·]?)).Nodup := by
  have hsub : layout.tail.dropLast.Sublist layout :=
    (List.dropLast_sublist _).trans (List.tail_sublist _)
  rw [h.in_order]
  exact (hsub.nodup h.nodup).map fun _ _ => Option.some.inj

theorem inj (h : Arranged blocks w layout) (hb : b ∈ blocks) (hc : c ∈ blocks)
    (heq : w.blockMap[b]? = w.blockMap[c]?) : b = c :=
  List.inj_on_of_nodup_map h.nodup_copies hb hc heq

theorem exists_copies (h : Arranged blocks w layout) :
    ∃ copies, layout = w.entry :: (copies ++ [w.exit]) ∧
      blocks.map (w.blockMap[·]?) = copies.map some := by
  have hinOrder := h.in_order
  obtain ⟨copies, rfl, -⟩ := h.layout_eq
  rw [List.tail_cons, List.dropLast_concat] at hinOrder
  exact ⟨copies, rfl, hinOrder⟩

theorem cases (h : Arranged blocks w layout) (hc : c ∈ layout) :
    c = w.entry ∨ c = w.exit ∨ ∃ b ∈ blocks, w.blockMap[b]? = some c := by
  obtain ⟨copies, rfl, hinOrder⟩ := h.exists_copies
  rcases List.mem_cons.1 hc with hc | hc
  · exact .inl hc
  · rcases List.mem_append.1 hc with hc | hc
    · have hmem : some c ∈ blocks.map (w.blockMap[·]?) := hinOrder ▸ List.mem_map_of_mem hc
      obtain ⟨b, hb, heq⟩ := List.mem_map.1 hmem
      exact .inr (.inr ⟨b, hb, heq⟩)
    · exact .inr (.inl (List.mem_singleton.1 hc))

end Arranged

/-- The blocks of a worker are there: the entry goes to the copy of the header, the copies
are empty, and the exit returns. -/
structure Skeleton (s : Setting) (f : FuncRef) (thread : Nat) (blocks : List BlockRef)
    (p : Program) (w : Worker) (q : Program) : Prop where
  thread_eq : w.thread = thread
  func_eq : w.func = f
  layout : ∃ func, q.func? f = some func ∧ Framed blocks w func.blocks ∧
    (blocks.Nodup → Arranged blocks w func.blocks) ∧
    ∀ b ∈ func.blocks, p.blocks.size ≤ b.index
  empty : ∀ b ∈ blocks, ∃ copy block, w.blockMap[b]? = some copy ∧
    q.block? copy = some block ∧ block.instrs = []
  exit_eq : w.blockMap[s.loop.exit]? = some w.exit
  preheader_eq : s.loop.preheader ≠ s.loop.exit → w.blockMap[s.loop.preheader]? = some w.entry
  others : ∀ b, b ∉ blocks → b ≠ s.loop.exit → b ≠ s.loop.preheader → w.blockMap[b]? = none
  entry : ∃ header, w.blockMap[s.loop.header]? = some header ∧
    Runs q w.entry p.instrs.size [] ⟨p.instrs.size⟩ (.br header)
  exit : Runs q w.exit p.instrs.size [] ⟨p.instrs.size + 1⟩ (.ret (some .null))
  size_eq : q.instrs.size = p.instrs.size + 2
  size_blocks_le : p.blocks.size ≤ q.blocks.size
  instr?_old : ∀ i, i.index < p.instrs.size → q.instr? i = p.instr? i
  block?_old : ∀ b, b.index < p.blocks.size → q.block? b = p.block? b
  func?_kept : ∀ g x, g ≠ f → p.func? g = some x → q.func? g = some x

/-- The block that stands for the preheader in a worker. The exit is entered after it into the
map of the blocks, so a preheader that is the exit as well has the exit to stand for it. -/
def arrival (w : Worker) (loop : Loop) : BlockRef :=
  if loop.preheader = loop.exit then w.exit else w.entry

theorem Skeleton.arrival_eq (h : Skeleton s f thread blocks p w q) :
    w.blockMap[s.loop.preheader]? = some (w.arrival s.loop) := by
  rw [arrival]
  split
  · next hsame => rw [hsame, h.exit_eq]
  · next hdistinct => exact h.preheader_eq hdistinct

/-- A block with a block to stand for it is not climbed from. -/
theorem copyOfPred_of_getElem? {blockMap : Std.TreeMap BlockRef BlockRef} {pred copy : BlockRef}
    (h : blockMap[pred]? = some copy) : copyOfPred s blockMap pred = .ok copy := by
  simp only [copyOfPred, climb, h]

/-- The preheader and the exit do not get in the way of the copied blocks. -/
theorem getElem?_insert_insert {copied : Std.TreeMap BlockRef BlockRef} {entry exit b : BlockRef}
    (hexit : s.loop.exit ∉ blocks) (hpreheader : s.loop.preheader ∉ blocks) (hb : b ∈ blocks) :
    ((copied.insert s.loop.preheader entry).insert s.loop.exit exit)[b]? = copied[b]? := by
  have hbexit : b ≠ s.loop.exit := fun heq => hexit (heq ▸ hb)
  have hbpreheader : b ≠ s.loop.preheader := fun heq => hpreheader (heq ▸ hb)
  rw [getElem?_insert_of_ne hbexit, getElem?_insert_of_ne hbpreheader]

/-- The blocks of a worker are there and all of them are empty. -/
structure Laid (s : Setting) (f : FuncRef) (func : Func) (blocks : List BlockRef) (w : Worker)
    (p q : Program) : Prop where
  added : AddsBlocks f func (1 + blocks.length + 1) p q
  framed : Framed blocks w (newBlocks p.blocks.size (1 + blocks.length + 1))
  arranged : blocks.Nodup → Arranged blocks w (newBlocks p.blocks.size (1 + blocks.length + 1))
  exit_eq : w.blockMap[s.loop.exit]? = some w.exit
  preheader_eq : s.loop.preheader ≠ s.loop.exit → w.blockMap[s.loop.preheader]? = some w.entry
  others : ∀ b, b ∉ blocks → b ≠ s.loop.exit → b ≠ s.loop.preheader → w.blockMap[b]? = none

theorem laid_of_addCopies {entry exit : BlockRef} {copied : Std.TreeMap BlockRef BlockRef}
    {p₁ p₂ : Program} (hfunc : p.func? f = some func) (hexit : s.loop.exit ∉ blocks)
    (hpreheader : s.loop.preheader ∉ blocks)
    (hentry : (Edit.appendBlock f "new-entry").apply p = (.ok entry, p₁))
    (hcopied : (addCopies f thread blocks ∅).apply p₁ = (.ok copied, p₂))
    (hexitBlock : (Edit.appendBlock f "new-exit").apply p₂ = (.ok exit, q)) :
    Laid s f func blocks ⟨thread, f, entry, exit,
      (copied.insert s.loop.preheader entry).insert s.loop.exit exit, [], []⟩ p q := by
  obtain ⟨rfl, h₁⟩ := AddsBlocks.of_appendBlock hfunc hentry
  obtain ⟨h₂, hothers, hcopies, hinOrder⟩ := addCopies_spec h₁.func?_self hcopied
  obtain ⟨hexitref, h₃⟩ := AddsBlocks.of_appendBlock (h₁.trans h₂).func?_self hexitBlock
  have hlayout : newBlocks p.blocks.size (1 + blocks.length + 1) =
      ⟨p.blocks.size⟩ :: (newBlocks p₁.blocks.size blocks.length ++ [exit]) := by
    rw [newBlocks_add, newBlocks_add, hexitref, (h₁.trans h₂).size_eq, h₁.size_eq]
    rfl
  have hframed : Framed blocks ⟨thread, f, ⟨p.blocks.size⟩, exit,
      (copied.insert s.loop.preheader ⟨p.blocks.size⟩).insert s.loop.exit exit, [], []⟩
      (newBlocks p.blocks.size (1 + blocks.length + 1)) := by
    refine ⟨⟨_, hlayout, ?_⟩, nodup_newBlocks _ _⟩
    intro b hb
    rw [getElem?_insert_insert hexit hpreheader hb]
    exact hcopies b hb
  refine ⟨(h₁.trans h₂).trans h₃, hframed, fun hnodup => ⟨hframed, ?_⟩,
    Std.TreeMap.getElem?_insert_self, ?_, ?_⟩
  · rw [hlayout, List.tail_cons, List.dropLast_concat, ← hinOrder hnodup]
    exact List.map_congr_left fun b hb => getElem?_insert_insert hexit hpreheader hb
  · intro hne
    rw [getElem?_insert_of_ne hne, Std.TreeMap.getElem?_insert_self]
  · intro b hb hbexit hbpre
    rw [getElem?_insert_of_ne hbexit, getElem?_insert_of_ne hbpre, hothers b hb]
    exact Std.TreeMap.getElem?_emptyc

/-- The entry and the exit get their last instructions. -/
theorem Laid.skeleton {header : BlockRef} {p₁ p₂ : Program}
    (h : Laid s f func blocks w p p₁) (hthread : w.thread = thread) (hf : w.func = f)
    (hvacant : func.blocks = []) (hheader : w.blockMap[s.loop.header]? = some header)
    (hbr : Writes w.entry [] [(.br header, .void)] p₁ p₂)
    (hret : Writes w.exit [] [(.ret (some .null), .void)] p₂ q) :
    Skeleton s f thread blocks p w q := by
  have hsize₁ : p₁.instrs.size = p.instrs.size := by rw [h.added.instrs_eq]
  have hsize₂ : p₂.instrs.size = p.instrs.size + 1 := by rw [hbr.size_eq, hsize₁]; rfl
  have hne := h.framed.entry_ne_exit
  have hbound : ∀ b ∈ newBlocks p.blocks.size (1 + blocks.length + 1),
      p.blocks.size ≤ b.index := fun b hb => (mem_newBlocks_iff.1 hb).1
  have hentryRuns : Runs p₂ w.entry p.instrs.size [] ⟨p₁.instrs.size⟩ (.br header) := by
    obtain ⟨name, hname⟩ := h.added.block?_new _ (List.mem_of_head? h.framed.head?_eq)
    exact .of_empty hname rfl hbr
  have hexitRuns : Runs q w.exit p.instrs.size [] ⟨p₂.instrs.size⟩ (.ret (some .null)) := by
    obtain ⟨name, hname⟩ := h.added.block?_new _ h.framed.exit_mem
    exact .of_empty ((hbr.block?_of_ne hne.symm).trans hname) rfl hret
  rw [hsize₁] at hentryRuns
  rw [hsize₂] at hexitRuns
  refine ⟨hthread, hf, ?_, ?_, h.exit_eq, h.preheader_eq, h.others, ?_, hexitRuns, ?_, ?_, ?_, ?_,
    ?_⟩
  · refine ⟨_, hret.func?_kept (hbr.func?_kept h.added.func?_self), ?_⟩
    rw [hvacant]
    exact ⟨h.framed, h.arranged, hbound⟩
  · intro b hb
    obtain ⟨copy, hcopy, hmem, hcentry, hcexit⟩ := h.framed.exists_copy hb
    obtain ⟨name, hname⟩ := h.added.block?_new copy hmem
    have hkept : q.block? copy = p₁.block? copy :=
      (hret.block?_of_ne hcexit).trans (hbr.block?_of_ne hcentry)
    exact ⟨copy, _, hcopy, hkept.trans hname, rfl⟩
  · exact ⟨header, hheader, hentryRuns.beside hret hne⟩
  · rw [hret.size_eq, hsize₂]
    rfl
  · rw [hret.size_blocks_eq, hbr.size_blocks_eq, h.added.size_eq]
    exact Nat.le_add_right _ _
  · intro i hi
    rw [hret.instr?_old (by omega), hbr.instr?_old (by omega), Program.instr?, h.added.instrs_eq]
    rfl
  · intro b hb
    have hapart : ∀ c ∈ newBlocks p.blocks.size (1 + blocks.length + 1), b ≠ c := by
      rintro c hc rfl
      exact Nat.not_lt_of_le (hbound b hc) hb
    rw [hret.block?_of_ne (hapart _ h.framed.exit_mem),
      hbr.block?_of_ne (hapart _ (List.mem_of_head? h.framed.head?_eq)), h.added.block?_old b hb]
  · intro g x hg hx
    refine hret.func?_kept (hbr.func?_kept ?_)
    rw [h.added.func?_of_ne g hg, hx]

/-- The steps of adding the blocks of a worker. -/
theorem addSkeleton_eq_ok (h : (addSkeleton s f thread blocks).apply p = (.ok w, q)) :
    ∃ copied header br ret p₁ p₂ p₃ p₄,
      (Edit.appendBlock f "new-entry").apply p = (.ok w.entry, p₁) ∧
      (addCopies f thread blocks ∅).apply p₁ = (.ok copied, p₂) ∧
      (Edit.appendBlock f "new-exit").apply p₂ = (.ok w.exit, p₃) ∧
      w.blockMap[s.loop.header]? = some header ∧
      (Edit.appendInstr w.entry (.br header) .void none).apply p₃ = (.ok br, p₄) ∧
      (Edit.appendInstr w.exit (.ret (some .null)) .void none).apply p₄ = (.ok ret, q) ∧
      w = ⟨thread, f, w.entry, w.exit,
        (copied.insert s.loop.preheader w.entry).insert s.loop.exit w.exit, [], []⟩ := by
  unfold addSkeleton at h
  obtain ⟨entry, p₁, hentry, h⟩ := Edit.apply_bind_eq_ok_iff.1 h
  obtain ⟨copied, p₂, hcopied, h⟩ := Edit.apply_bind_eq_ok_iff.1 h
  obtain ⟨exit, p₃, hexit, h⟩ := Edit.apply_bind_eq_ok_iff.1 h
  obtain ⟨header, p', hlookup, h⟩ := Edit.apply_bind_eq_ok_iff.1 h
  obtain ⟨hheader, rfl⟩ := Edit.liftM_eq_ok_iff.1 hlookup
  obtain ⟨br, p₄, hbr, h⟩ := Edit.apply_bind_eq_ok_iff.1 h
  obtain ⟨ret, p₅, hret, h⟩ := Edit.apply_bind_eq_ok_iff.1 h
  obtain ⟨rfl, rfl⟩ := Edit.pure_eq_ok_iff.1 h
  exact ⟨copied, header, br, ret, p₁, p₂, p₃, p₄, hentry, hcopied, hexit, copyOf_eq_ok hheader, hbr,
    hret, rfl⟩

/-- All blocks are added first, and then the entry and the exit are closed. -/
theorem laid_of_addSkeleton (hfunc : p.func? f = some func) (hexit : s.loop.exit ∉ blocks)
    (hpreheader : s.loop.preheader ∉ blocks)
    (h : (addSkeleton s f thread blocks).apply p = (.ok w, q)) :
    w.thread = thread ∧ w.func = f ∧ ∃ header p₁ p₂, Laid s f func blocks w p p₁ ∧
      w.blockMap[s.loop.header]? = some header ∧
      Writes w.entry [] [(.br header, .void)] p₁ p₂ ∧
      Writes w.exit [] [(.ret (some .null), .void)] p₂ q := by
  obtain ⟨copied, header, br, ret, p₁, p₂, p₃, p₄, hentry, hcopied, hexitBlock, hheader, hbr, hret,
    hw⟩ := addSkeleton_eq_ok h
  have hlaid := laid_of_addCopies hfunc hexit hpreheader hentry hcopied hexitBlock
  rw [← hw] at hlaid
  obtain ⟨-, hbr⟩ := Writes.of_appendInstr hbr
  obtain ⟨-, hret⟩ := Writes.of_appendInstr hret
  exact ⟨by rw [hw], by rw [hw], header, p₃, p₄, hlaid, hheader, hbr, hret⟩

theorem skeleton_of_addSkeleton (hfunc : p.func? f = some func) (hvacant : func.blocks = [])
    (hexit : s.loop.exit ∉ blocks) (hpreheader : s.loop.preheader ∉ blocks)
    (h : (addSkeleton s f thread blocks).apply p = (.ok w, q)) :
    Skeleton s f thread blocks p w q := by
  obtain ⟨hthread, hf, header, p₁, p₂, hlaid, hheader, hbr, hret⟩ :=
    laid_of_addSkeleton hfunc hexit hpreheader h
  exact hlaid.skeleton hthread hf hvacant hheader hbr hret

end Skeleton

section Concerns

variable {s : Setting} {p : Program} {d : Dispatch} {thread : Nat}

theorem vacantFunc_eq_ok {f : FuncRef} (h : vacantFunc p d thread = .ok f) :
    ∃ func, p.func? f = some func ∧ func.blocks = [] := by
  unfold vacantFunc at h
  split at h
  · cases h
  · next f' hf =>
      obtain ⟨func, hfunc, h⟩ := bind_eq_ok_iff.1 h
      dsimp only at h
      obtain ⟨hempty, h⟩ := require_bind_eq_ok h
      obtain ⟨-, h⟩ := require_bind_eq_ok h
      obtain rfl := pure_eq_ok_iff.1 h
      exact ⟨func, Program.func_eq_ok_iff.1 hfunc, List.isEmpty_iff.1 hempty⟩

/-- The block of the loop holds an instruction of the thread or one that such an
instruction depends on. -/
def Concerned (p : Program) (loop : Loop) (deps : Dependences) (plan : Plan) (thread : Nat)
    (b : BlockRef) : Prop :=
  b ∈ loop ∧ ∃ i instr, p.instr? i = some instr ∧ instr.block = some b ∧
    (i ∈ plan.membersOf thread ∨
      ∃ j ∈ plan.membersOf thread, ∃ dep ∈ deps.dependenciesOf j, dep.dependency = i)

theorem mem_concerns_iff {i : InstrRef} : i ∈ concerns s thread ↔
    i ∈ s.plan.membersOf thread ∨
      ∃ j ∈ s.plan.membersOf thread, ∃ dep ∈ s.deps.dependenciesOf j, dep.dependency = i := by
  simp only [concerns, List.mem_flatMap, List.mem_cons, List.mem_map]
  constructor
  · rintro ⟨j, hj, rfl | hdep⟩
    · exact .inl hj
    · exact .inr ⟨j, hj, hdep⟩
  · rintro (hi | ⟨j, hj, hdep⟩)
    · exact ⟨i, hi, .inl rfl⟩
    · exact ⟨j, hj, .inr hdep⟩

theorem concerned_iff_exists {loop : Loop} {deps : Dependences} {plan : Plan} {b : BlockRef} :
    Concerned p loop deps plan thread b ↔ b ∈ loop ∧ ∃ i ∈ plan.membersOf thread,
      (∃ instr ∈ p.instr? i, instr.block = some b) ∨
        ∃ dep ∈ deps.dependenciesOf i, ∃ instr ∈ p.instr? dep.dependency,
          instr.block = some b := by
  refine and_congr_right fun _ => ⟨?_, ?_⟩
  · rintro ⟨i, instr, hinstr, hplace, hi | ⟨j, hj, dep, hdep, rfl⟩⟩
    · exact ⟨i, hi, .inl ⟨instr, hinstr, hplace⟩⟩
    · exact ⟨j, hj, .inr ⟨dep, hdep, instr, hinstr, hplace⟩⟩
  · rintro ⟨i, hi, ⟨instr, hinstr, hplace⟩ | ⟨dep, hdep, instr, hinstr, hplace⟩⟩
    · exact ⟨i, instr, hinstr, hplace, .inl hi⟩
    · exact ⟨dep.dependency, instr, hinstr, hplace, .inr ⟨i, hi, dep, hdep, rfl⟩⟩

instance {loop : Loop} {deps : Dependences} {plan : Plan} {b : BlockRef} :
    Decidable (Concerned p loop deps plan thread b) :=
  decidable_of_iff _ concerned_iff_exists.symm

theorem mem_of_placesOf_eq_ok {is : List InstrRef} {places : List BlockRef}
    (h : placesOf p is = .ok places) {b : BlockRef} :
    b ∈ places ↔ ∃ i ∈ is, ∃ instr, p.instr? i = some instr ∧ instr.block = some b := by
  unfold placesOf at h
  obtain ⟨options, hoptions, heq⟩ := bind_eq_ok_iff.1 h
  obtain rfl := pure_eq_ok_iff.1 heq
  have hall := mapM_eq_ok_iff.1 hoptions
  rw [List.reduceOption_mem_iff]
  clear h hoptions heq
  induction hall with
  | nil => simp
  | @cons i place is options hi _ ih =>
      obtain ⟨instr, hinstr, heq⟩ := bind_eq_ok_iff.1 hi
      obtain rfl := pure_eq_ok_iff.1 heq
      rw [Program.instr_eq_ok_iff] at hinstr
      have hcomm : some b = instr.block ↔ instr.block = some b := eq_comm
      simp [ih, hinstr, hcomm]

theorem concernedBlocks_eq_filter {blocks : List BlockRef}
    (h : concernedBlocks p s thread = .ok blocks) :
    blocks = s.loop.blocks.filter (Concerned p s.loop s.deps s.plan thread ·) ∧
      (s.loop.header ∈ s.loop → s.loop.header ∈ blocks) := by
  unfold concernedBlocks at h
  dsimp only at h
  obtain ⟨-, h⟩ := require_bind_eq_ok h
  obtain ⟨places, hplaces, h⟩ := bind_eq_ok_iff.1 h
  obtain ⟨-, h⟩ := guard_bind_eq_ok h
  obtain ⟨hheader, h⟩ := require_lookup_eq_ok h
  obtain rfl := pure_eq_ok_iff.1 h
  refine ⟨List.filter_congr fun b hb => decide_eq_decide.2 ?_, fun hmem => ?_⟩
  · rw [mem_of_placesOf_eq_ok hplaces, Concerned, and_iff_right (Loop.mem_iff.2 hb)]
    refine exists_congr fun i => ?_
    rw [mem_concerns_iff]
    constructor
    · rintro ⟨hi, instr, hinstr, hplace⟩
      exact ⟨instr, hinstr, hplace, hi⟩
    · rintro ⟨instr, hinstr, hplace, hi⟩
      exact ⟨hi, instr, hinstr, hplace⟩
  · exact List.mem_filter.2 ⟨hmem, decide_eq_true hheader⟩

theorem concernedBlocks_eq_ok {blocks : List BlockRef}
    (h : concernedBlocks p s thread = .ok blocks) :
    blocks.Sublist s.loop.blocks ∧
      (∀ b, b ∈ blocks ↔ Concerned p s.loop s.deps s.plan thread b) ∧
      (s.loop.header ∈ s.loop → s.loop.header ∈ blocks) := by
  obtain ⟨rfl, hheader⟩ := concernedBlocks_eq_filter h
  refine ⟨List.filter_sublist, fun b => ?_, hheader⟩
  rw [List.mem_filter, decide_eq_true_iff]
  exact ⟨And.right, fun hb => ⟨Loop.mem_iff.1 hb.1, hb⟩⟩

end Concerns

/-- The blocks of the loop, their instructions and what is placed in them are the same in
both programs. -/
structure Shares (o p : Program) (loop : Loop) : Prop where
  size_le : o.instrs.size ≤ p.instrs.size
  block? : ∀ b ∈ loop, ∃ block, o.block? b = some block ∧ p.block? b = some block
  instr? : ∀ b ∈ loop, ∀ i, o.Lists b i → i.index < p.instrs.size ∧ p.instr? i = o.instr? i
  placed : ∀ b ∈ loop, ∀ i, (∃ instr, p.instr? i = some instr ∧ instr.block = some b) ↔
    ∃ instr, o.instr? i = some instr ∧ instr.block = some b

theorem Shares.grow {o p q : Program} {loop : Loop} (h : Shares o p loop) (hgrows : Grows p q) :
    Shares o q loop where
  size_le := Nat.le_trans h.size_le hgrows.size_le
  block? := by
    intro b hb
    obtain ⟨block, hold, hnew⟩ := h.block? b hb
    exact ⟨block, hold, hgrows.block?_kept hnew⟩
  instr? := by
    intro b hb i hi
    obtain ⟨hlt, hsame⟩ := h.instr? b hb i hi
    exact ⟨Nat.lt_of_lt_of_le hlt hgrows.size_le, by rw [hgrows.instr?_old i hlt, hsame]⟩
  placed := by
    intro b hb i
    rw [← h.placed b hb i]
    by_cases hlt : i.index < p.instrs.size
    · rw [hgrows.instr?_old i hlt]
    · -- a new instruction is placed in a new block
      constructor
      · rintro ⟨instr, hinstr, hplace⟩
        obtain ⟨c, hc, hle⟩ := hgrows.placed i instr (Nat.le_of_not_lt hlt) hinstr
        obtain rfl := Option.some.inj (hplace.symm.trans hc)
        obtain ⟨block, -, hblock⟩ := h.block? b hb
        exact absurd (Array.getElem?_eq_some_iff.1 hblock).1 (Nat.not_lt_of_le hle)
      · rintro ⟨instr, hinstr, -⟩
        exact absurd (Array.getElem?_eq_some_iff.1 hinstr).1 hlt

/-- The same blocks of the loop concern a thread in both programs. -/
theorem Shares.concerned_iff {o p : Program} {loop : Loop} (h : Shares o p loop)
    {deps : Dependences} {plan : Plan} {thread : Nat} {b : BlockRef} :
    Concerned p loop deps plan thread b ↔ Concerned o loop deps plan thread b := by
  refine and_congr_right fun hb => exists_congr fun i => ?_
  simp only [← and_assoc, exists_and_right]
  rw [h.placed b hb i]

/-- The function of the worker is written in the program `q`: it has copies of the `blocks`
of the loop in `o`. The instructions of each block that are copied stand in `here` with
their copies, and `σ` is what the copies read in the place of the values of the loop. -/
structure Body (s : Setting) (o : Program) (blocks : List BlockRef)
    (here : BlockRef → List (InstrRef × InstrRef)) (σ : Renaming) (w : Worker) (q : Program) :
    Prop where
  mem_blocks_iff : ∀ b, b ∈ blocks ↔ Concerned o s.loop s.deps s.plan w.thread b
  header_mem : s.loop.header ∈ blocks
  layout : ∃ func, q.func? w.func = some func ∧ Arranged blocks w func.blocks
  exit_eq : w.blockMap[s.loop.exit]? = some w.exit
  preheader_eq : s.loop.preheader ≠ s.loop.exit → w.blockMap[s.loop.preheader]? = some w.entry
  others : ∀ b, b ∉ blocks → b ≠ s.loop.exit → b ≠ s.loop.preheader → w.blockMap[b]? = none
  sources : ∀ b ∈ blocks, ∀ block, o.block? b = some block →
    (here b).map Prod.fst = block.instrs.filter (takes s o w.thread)
  listed : ∀ b ∈ blocks, ∀ copy, w.blockMap[b]? = some copy →
    ∃ block, q.block? copy = some block ∧ block.instrs = (here b).map Prod.snd
  copies : ∀ b ∈ blocks, ∀ copy, w.blockMap[b]? = some copy → ∀ pair ∈ here b,
    ∃ instr name, o.instr? pair.1 = some instr ∧ Placed s w.blockMap instr.op ∧
      q.instr? pair.2 = some {
        block := some copy
        op := (copied s w.blockMap instr.op).mapOperands σ.rename
        ty := instr.ty
        name }
  ends : ∃ header start code last start' code' last', w.blockMap[s.loop.header]? = some header ∧
    Runs q w.entry start code last (.br header) ∧
    Runs q w.exit start' code' last' (.ret (some .null)) ∧
    SelfContained start (fun _ => False) start code ∧
    SelfContained start' (fun d => d ∈ newRefs start code.length ∨
      ∃ out ∈ ownedOuts s w.thread, σ[Value.instr out.1]? = some (.instr d)) start' code' ∧
    ∀ v ∈ s.live.liveIn, ∃ e ∈ newRefs start code.length, σ[v]? = some (.instr e)
  renamed : ∀ v u, v ∉ s.live.liveIn → σ[v]? = some u →
    ∃ b ∈ blocks, ∃ pair ∈ here b, v = .instr pair.1 ∧ u = .instr pair.2
  fresh : ∀ func, q.func? w.func = some func → ∀ b ∈ func.blocks, ∀ i, q.Lists b i →
    o.instrs.size ≤ i.index
  copies_eq : w.copies = blocks.flatMap here
  copies_nodup : (w.copies.map Prod.snd).Nodup

/-- In a table that is filled one entry after the other, the last entry for a key is found. -/
theorem getElem?_foldl_insert {α β γ : Type} [DecidableEq α] [Ord α] [Std.TransOrd α]
    [Std.LawfulEqOrd α] (key : γ → α) (value : γ → β) (entries : List γ)
    (table : Std.TreeMap α β) (a : α) :
    (entries.foldl (fun table entry => table.insert (key entry) (value entry)) table)[a]? =
      ((entries.reverse.find? fun entry => key entry = a).map value).or table[a]? := by
  induction entries generalizing table with
  | nil => rfl
  | cons entry entries ih =>
      rw [List.foldl_cons, ih, List.reverse_cons, List.find?_append, Std.TreeMap.getElem?_insert]
      by_cases hkey : key entry = a
      · simp [hkey]
      · have hcompare : compare (key entry) a ≠ .eq := fun h =>
          hkey (Std.LawfulEqOrd.eq_of_compare h)
        simp [hkey, hcompare]

theorem mem_of_find?_reverse {α γ : Type} [DecidableEq α] {key : γ → α} {entries : List γ}
    {entry : γ} {a : α} (h : (entries.reverse.find? fun entry => key entry = a) = some entry) :
    entry ∈ entries ∧ key entry = a := by
  have hkey := List.find?_some h
  exact ⟨List.mem_reverse.1 (List.mem_of_find?_eq_some h), of_decide_eq_true hkey⟩

theorem getElem?_copyRenaming (copies : List (InstrRef × InstrRef)) (v : Value) :
    (copyRenaming copies)[v]? =
      (copies.reverse.find? fun pair => .instr pair.1 = v).map fun pair => .instr pair.2 := by
  refine (getElem?_foldl_insert (fun pair : InstrRef × InstrRef => Value.instr pair.1)
    (fun pair => Value.instr pair.2) copies ∅ v).trans ?_
  simp

/-- What the renaming to copies renames is an instruction with its copy. -/
theorem exists_of_copyRenaming {pairs : List (InstrRef × InstrRef)} {v u : Value}
    (h : (copyRenaming pairs)[v]? = some u) :
    ∃ pair ∈ pairs, v = .instr pair.1 ∧ u = .instr pair.2 := by
  rw [getElem?_copyRenaming] at h
  obtain ⟨pair, hfind, rfl⟩ := Option.map_eq_some_iff.1 h
  obtain ⟨hpair, hv⟩ := mem_of_find?_reverse hfind
  exact ⟨pair, hpair, hv.symm, rfl⟩

section Build

variable {s : Setting} {o p q r : Program} {d : Dispatch} {thread : Nat} {w : Worker}

theorem Skeleton.grows {f : FuncRef} {blocks : List BlockRef} {func : Func}
    (h : Skeleton s f thread blocks p w q) (hfunc : p.func? f = some func)
    (hvacant : func.blocks = []) : Grows p q where
  size_le := by
    rw [h.size_eq]
    exact Nat.le_add_right _ _
  size_blocks_le := h.size_blocks_le
  instr?_old := h.instr?_old
  block?_old := h.block?_old
  func?_kept := by
    intro g x hg hne
    refine h.func?_kept g x ?_ hg
    rintro rfl
    obtain rfl := Option.some.inj (hfunc.symm.trans hg)
    exact hne hvacant
  placed := by
    intro i instr hi hinstr
    obtain ⟨func', -, hframed, -, hbound⟩ := h.layout
    have hlt : i.index < p.instrs.size + 2 := h.size_eq ▸ (Array.getElem?_eq_some_iff.1 hinstr).1
    obtain ⟨header, -, hentry⟩ := h.entry
    rcases Nat.lt_or_ge i.index (p.instrs.size + 1) with hfirst | hsecond
    · obtain rfl : i = ⟨p.instrs.size⟩ := InstrRef.ext (by simp only; omega)
      obtain ⟨name, hname⟩ := hentry.final
      obtain rfl := Option.some.inj (hname.symm.trans hinstr)
      exact ⟨w.entry, rfl, hbound _ (List.mem_of_head? hframed.head?_eq)⟩
    · obtain rfl : i = ⟨p.instrs.size + 1⟩ := InstrRef.ext (by simp only; omega)
      obtain ⟨name, hname⟩ := h.exit.final
      obtain rfl := Option.some.inj (hname.symm.trans hinstr)
      exact ⟨w.exit, rfl, hbound _ hframed.exit_mem⟩

theorem Transcribes.grows {blocks : List BlockRef} {pairs : List (InstrRef × InstrRef)}
    (h : Transcribes s w o blocks pairs q r) (hgrows : Grows p q)
    (hbound : ∀ b ∈ blocks, ∀ copy, w.blockMap[b]? = some copy → p.blocks.size ≤ copy.index) :
    Grows p r where
  size_le := by
    rw [h.size_eq]
    exact Nat.le_add_right_of_le hgrows.size_le
  size_blocks_le := by
    rw [h.size_blocks_eq]
    exact hgrows.size_blocks_le
  instr?_old := by
    intro i hi
    rw [h.instr?_old i (Nat.lt_of_lt_of_le hi hgrows.size_le), hgrows.instr?_old i hi]
  block?_old := by
    intro c hc
    rw [h.block?_kept c ?_, hgrows.block?_old c hc]
    intro b hb heq
    exact Nat.not_lt_of_le (hbound b hb c heq) hc
  func?_kept := by
    intro f func hf hne
    exact h.func?_kept f func (hgrows.func?_kept f func hf hne)
  placed := by
    intro i instr hi hinstr
    by_cases hlt : i.index < q.instrs.size
    · rw [h.instr?_old i hlt] at hinstr
      exact hgrows.placed i instr hi hinstr
    · have hmem : i ∈ pairs.map Prod.snd := by
        rw [h.refs, mem_newRefs_iff, ← h.size_eq]
        exact ⟨Nat.le_of_not_lt hlt, (Array.getElem?_eq_some_iff.1 hinstr).1⟩
      obtain ⟨pair, hpair, rfl⟩ := List.mem_map.1 hmem
      obtain ⟨b, hb, copy, hcopy, source, name, -, -, hname⟩ := h.copies pair hpair
      obtain rfl := Option.some.inj (hname.symm.trans hinstr)
      exact ⟨copy, rfl, hbound b hb copy hcopy⟩

/-- The stages of writing a worker: its blocks are added up to `p₁`, the copies are filled up
to `p₂`, and the rest is written up to `q`. -/
structure Stages (s : Setting) (o : Program) (exchange : Exchange) (f : FuncRef) (thread : Nat)
    (blocks : List BlockRef) (pairs : List (InstrRef × InstrRef)) (σ : Renaming)
    (header : BlockRef) (stores : List InstrRef) (p p₁ p₂ : Program) (w : Worker) (q : Program) :
    Prop where
  skeleton : Skeleton s f thread blocks p w p₁
  copied : Transcribes s w o blocks pairs p₁ p₂
  header_eq : w.blockMap[s.loop.header]? = some header
  bordered : Bordered s exchange w (pairs.map Prod.snd) (copyRenaming pairs) σ header
    ⟨p.instrs.size⟩ ⟨p.instrs.size + 1⟩ stores p₂ q

/-- The copies of the blocks are new, so the blocks are read as they were. -/
theorem Skeleton.copyable {f : FuncRef} {blocks : List BlockRef} {func : Func}
    (h : Skeleton s f thread blocks p w q) (hshares : Shares o p s.loop)
    (hloop : ∀ b ∈ blocks, b ∈ s.loop) (hfunc : p.func? f = some func)
    (hvacant : func.blocks = []) : Copyable w o blocks q where
  block? := by
    intro b hb
    obtain ⟨block, hold, hnew⟩ := hshares.block? b (hloop b hb)
    rw [(h.grows hfunc hvacant).block?_kept hnew, hold]
  instr? := by
    intro b hb i hi
    obtain ⟨hlt, heq⟩ := hshares.instr? b (hloop b hb) i hi
    rw [h.instr?_old i hlt, h.size_eq]
    exact ⟨Nat.lt_add_right _ hlt, heq⟩
  copy := by
    intro b hb copy hcopy
    obtain ⟨copy', block, hcopy', hblock, -⟩ := h.empty b hb
    obtain rfl := Option.some.inj (hcopy.symm.trans hcopy')
    refine ⟨?_, (Array.getElem?_eq_some_iff.1 hblock).1⟩
    intro hmem
    obtain ⟨func', -, hframed, -, hbound⟩ := h.layout
    obtain ⟨copy', hcopy', hlayout, -⟩ := hframed.exists_copy hb
    obtain rfl := Option.some.inj (hcopy.symm.trans hcopy')
    obtain ⟨block', -, hblock'⟩ := hshares.block? copy (hloop copy hmem)
    exact Nat.not_lt_of_le (hbound copy hlayout) (Array.getElem?_eq_some_iff.1 hblock').1

/-- What follows the copying keeps to the entry, the exit and the copies. -/
theorem stages_of_transcribes {exchange : Exchange} {f : FuncRef} {blocks : List BlockRef}
    {pairs : List (InstrRef × InstrRef)} {σ : Renaming} {argPtr : InstrRef} {n : Nat}
    {stores : List InstrRef} {p₁ p₂ p₃ p₄ : Program}
    (hskeleton : Skeleton s f thread blocks p w p₁)
    (hcopied : Transcribes s w o blocks pairs p₁ p₂)
    (hunpack : (unpackArgs s exchange w (copyRenaming pairs)).apply p₂ = (.ok (argPtr, σ), p₃))
    (happly : (σ.apply (pairs.map Prod.snd)).apply p₃ = (.ok n, p₄))
    (hstores : (storeOuts s exchange w σ argPtr).apply p₄ = (.ok stores, q)) :
    ∃ header, Stages s o exchange f thread blocks pairs σ header stores p p₁ p₂ w q := by
  obtain ⟨func', hfunc', hframed, harranged, -⟩ := hskeleton.layout
  -- the entry and the exit are none of the copies
  have hends : ∀ c, c = w.entry ∨ c = w.exit → p₂.block? c = p₁.block? c := by
    intro c hc
    refine hcopied.block?_kept c ?_
    intro b hb heq
    obtain ⟨copy, hcopy, -, hentry, hexit⟩ := hframed.exists_copy hb
    obtain rfl := Option.some.inj (hcopy.symm.trans heq)
    exact hc.elim hentry hexit
  obtain ⟨header, hheader, hentry⟩ := hskeleton.entry
  have hentry₂ := hentry.mono (hends _ (.inl rfl))
    fun i hi => hcopied.instr?_old i (hentry.lt_of_lists hi)
  have hexit₂ := hskeleton.exit.mono (hends _ (.inr rfl))
    fun i hi => hcopied.instr?_old i (hskeleton.exit.lt_of_lists hi)
  have hrefs : ∀ i ∈ pairs.map Prod.snd,
      p.instrs.size + 2 ≤ i.index ∧ i.index < p₂.instrs.size := by
    intro i hi
    rw [hcopied.refs, mem_newRefs_iff, ← hcopied.size_eq, hskeleton.size_eq] at hi
    exact hi
  have hlast : ∀ k < 2, (⟨p.instrs.size + k⟩ : InstrRef) ∉ pairs.map Prod.snd := by
    intro k hk hmem
    have hle : p.instrs.size + 2 ≤ p.instrs.size + k := (hrefs _ hmem).1
    omega
  exact ⟨header, hskeleton, hcopied, hheader,
    bordered_of_storeOuts (hcopied.refs ▸ nodup_newRefs _ _) (fun i hi => (hrefs i hi).2)
      (hlast 0 (by omega)) (hlast 1 (by omega)) hframed.entry_ne_exit hentry₂ hexit₂ hunpack
      happly hstores⟩

/-- The steps of writing a worker. -/
theorem build_eq_ok (h : (build s d thread).apply p = (.ok w, q)) :
    ∃ f blocks w₀ pairs argPtr σ n stores p₁ p₂ p₃ p₄, vacantFunc p d thread = .ok f ∧
      concernedBlocks p s thread = .ok blocks ∧
      (addSkeleton s f thread blocks).apply p = (.ok w₀, p₁) ∧
      (copyBlocks s w₀ blocks).apply p₁ = (.ok pairs, p₂) ∧
      (unpackArgs s d.exchange w₀ (copyRenaming pairs)).apply p₂ = (.ok (argPtr, σ), p₃) ∧
      (σ.apply (pairs.map Prod.snd)).apply p₃ = (.ok n, p₄) ∧
      (storeOuts s d.exchange w₀ σ argPtr).apply p₄ = (.ok stores, q) ∧
      w = { w₀ with copies := pairs, outStores := stores } := by
  unfold build at h
  rw [Edit.get_bind_eq_ok_iff] at h
  obtain ⟨f, p', hlookup, h⟩ := Edit.apply_bind_eq_ok_iff.1 h
  obtain ⟨hvacant, rfl⟩ := Edit.liftM_eq_ok_iff.1 hlookup
  rw [Edit.get_bind_eq_ok_iff] at h
  obtain ⟨blocks, p', hlookup, h⟩ := Edit.apply_bind_eq_ok_iff.1 h
  obtain ⟨hblocks, rfl⟩ := Edit.liftM_eq_ok_iff.1 hlookup
  obtain ⟨w₀, p₁, hadd, h⟩ := Edit.apply_bind_eq_ok_iff.1 h
  obtain ⟨pairs, p₂, hcopies, h⟩ := Edit.apply_bind_eq_ok_iff.1 h
  obtain ⟨⟨argPtr, σ⟩, p₃, hunpack, h⟩ := Edit.apply_bind_eq_ok_iff.1 h
  obtain ⟨n, p₄, happly, h⟩ := Edit.apply_bind_eq_ok_iff.1 h
  obtain ⟨stores, p₅, hstores, h⟩ := Edit.apply_bind_eq_ok_iff.1 h
  -- the log changes nothing
  rw [Edit.get_bind_eq_ok_iff] at h
  obtain ⟨_, p', hlog, h⟩ := Edit.apply_bind_eq_ok_iff.1 h
  obtain ⟨-, rfl⟩ := Edit.liftM_eq_ok_iff.1 hlog
  obtain ⟨rfl, rfl⟩ := Edit.pure_eq_ok_iff.1 h
  exact ⟨f, blocks, w₀, pairs, argPtr, σ, n, stores, p₁, p₂, p₃, p₄, hvacant, hblocks, hadd,
    hcopies, hunpack, happly, hstores, rfl⟩

/-- When the blocks of a worker have been added, the loop blocks can be copied to them. -/
theorem copyable_of_addSkeleton {f : FuncRef} {blocks : List BlockRef} {p₁ : Program}
    (hshares : Shares o p s.loop) (hpreheader : s.loop.preheader ∉ s.loop)
    (hexit : s.loop.exit ∉ s.loop) (hvacant : vacantFunc p d thread = .ok f)
    (hblocks : concernedBlocks p s thread = .ok blocks)
    (hadd : (addSkeleton s f thread blocks).apply p = (.ok w, p₁)) :
    Skeleton s f thread blocks p w p₁ ∧ Copyable w o blocks p₁ := by
  obtain ⟨func, hfunc, hempty⟩ := vacantFunc_eq_ok hvacant
  have hloop : ∀ b ∈ blocks, b ∈ s.loop :=
    fun b hb => (concernedBlocks_eq_ok hblocks).1.subset hb
  have hskeleton := skeleton_of_addSkeleton hfunc hempty
    (fun hmem => hexit (hloop _ hmem)) (fun hmem => hpreheader (hloop _ hmem)) hadd
  exact ⟨hskeleton, hskeleton.copyable hshares hloop hfunc hempty⟩

/-- Writing a worker goes through the stages in a program that shares the loop with the program
`o`, and what they come to is put on record. -/
theorem stages_of_build (hshares : Shares o p s.loop) (hpreheader : s.loop.preheader ∉ s.loop)
    (hexit : s.loop.exit ∉ s.loop) (h : (build s d thread).apply p = (.ok w, q)) :
    ∃ f func blocks pairs σ header stores p₁ p₂ w₀, p.func? f = some func ∧ func.blocks = [] ∧
      concernedBlocks p s thread = .ok blocks ∧
      Stages s o d.exchange f thread blocks pairs σ header stores p p₁ p₂ w₀ q ∧
      (blocks.Nodup → ∃ here, pairs = blocks.flatMap here ∧ ∀ b ∈ blocks, ∃ block copy,
        o.block? b = some block ∧ w₀.blockMap[b]? = some copy ∧
          Fills s w₀ o block.instrs copy (here b) p₂) ∧
      w = { w₀ with copies := pairs, outStores := stores } := by
  obtain ⟨f, blocks, w₀, pairs, argPtr, σ, n, stores, p₁, p₂, p₃, p₄, hvacant, hblocks, hadd,
    hcopies, hunpack, happly, hstores, rfl⟩ := build_eq_ok h
  obtain ⟨func, hfunc, hempty⟩ := vacantFunc_eq_ok hvacant
  obtain ⟨hskeleton, hcopyable⟩ :=
    copyable_of_addSkeleton hshares hpreheader hexit hvacant hblocks hadd
  obtain ⟨header, hstages⟩ := stages_of_transcribes hskeleton (hcopyable.transcribes hcopies)
    hunpack happly hstores
  refine ⟨f, func, blocks, pairs, σ, header, stores, p₁, p₂, w₀, hfunc, hempty, hblocks, hstages,
    fun hnodup => ?_, rfl⟩
  obtain ⟨func', -, -, harranged, -⟩ := hskeleton.layout
  exact hcopyable.fills hnodup hskeleton.empty
    (fun b hb c hc => (harranged hnodup).inj hb hc) hcopies

namespace Stages

variable {exchange : Exchange} {f : FuncRef} {blocks : List BlockRef}
  {pairs : List (InstrRef × InstrRef)} {σ : Renaming} {header : BlockRef}
  {stores : List InstrRef} {p₁ p₂ : Program}

theorem layout (h : Stages s o exchange f thread blocks pairs σ header stores p p₁ p₂ w q) :
    ∃ func, q.func? w.func = some func ∧ Framed blocks w func.blocks ∧
      (blocks.Nodup → Arranged blocks w func.blocks) ∧
      ∀ b ∈ func.blocks, p.blocks.size ≤ b.index := by
  obtain ⟨func, hfunc, hframed⟩ := h.skeleton.layout
  refine ⟨func, ?_, hframed⟩
  rw [h.skeleton.func_eq]
  exact h.bordered.func?_kept f func (h.copied.func?_kept f func hfunc)

theorem le_of_mem (h : Stages s o exchange f thread blocks pairs σ header stores p p₁ p₂ w q)
    {i : InstrRef} (hi : i ∈ pairs.map Prod.snd) : p.instrs.size ≤ i.index := by
  rw [h.copied.refs, mem_newRefs_iff, h.skeleton.size_eq] at hi
  omega

theorem grows (h : Stages s o exchange f thread blocks pairs σ header stores p p₁ p₂ w q)
    {func : Func} (hfunc : p.func? f = some func) (hvacant : func.blocks = []) : Grows p q := by
  obtain ⟨func', -, hframed, -, hbound⟩ := h.layout
  have hcopies : ∀ b ∈ blocks, ∀ copy, w.blockMap[b]? = some copy →
      p.blocks.size ≤ copy.index := by
    intro b hb copy hcopy
    obtain ⟨copy', hcopy', hlayout, -⟩ := hframed.exists_copy hb
    obtain rfl := Option.some.inj (hcopy.symm.trans hcopy')
    exact hbound copy hlayout
  exact h.bordered.grows p (h.copied.grows (h.skeleton.grows hfunc hvacant) hcopies)
    (hbound _ (List.mem_of_head? hframed.head?_eq)) (hbound _ hframed.exit_mem)
    fun i hi => h.le_of_mem hi

/-- The copies read what `σ` has for the values of the loop. -/
theorem copies (h : Stages s o exchange f thread blocks pairs σ header stores p p₁ p₂ w q)
    {copy : BlockRef} {pair : InstrRef × InstrRef} (hpair : pair ∈ pairs)
    (hcopy : IsCopy s w o copy p₂ pair) :
    ∃ instr name, o.instr? pair.1 = some instr ∧ Placed s w.blockMap instr.op ∧
      q.instr? pair.2 = some {
        block := some copy
        op := (Worker.copied s w.blockMap instr.op).mapOperands σ.rename
        ty := instr.ty
        name } := by
  obtain ⟨instr, name, hsource, hplaced, hname⟩ := hcopy
  refine ⟨instr, name, hsource, hplaced, ?_⟩
  rw [h.bordered.copies _ (List.mem_map_of_mem hpair), hname]
  rfl

theorem lt_of_mem (h : Stages s o exchange f thread blocks pairs σ header stores p p₁ p₂ w q)
    {i : InstrRef} (hi : i ∈ pairs.map Prod.snd) : i.index < q.instrs.size := by
  obtain ⟨pair, hpair, rfl⟩ := List.mem_map.1 hi
  obtain ⟨b, -, copy, -, hcopy⟩ := h.copied.copies pair hpair
  obtain ⟨instr, name, -, -, hname⟩ := h.copies hpair hcopy
  exact (Array.getElem?_eq_some_iff.1 hname).1

/-- The entry loads all live-ins, and the exit reads the argument and what is stored. -/
theorem ends (h : Stages s o exchange f thread blocks pairs σ header stores p p₁ p₂ w q) :
    ∃ start code start' code', p₂.instrs.size ≤ start ∧ p₂.instrs.size ≤ start' ∧
      Runs q w.entry start code ⟨p.instrs.size⟩ (.br header) ∧
      Runs q w.exit start' code' ⟨p.instrs.size + 1⟩ (.ret (some .null)) ∧
      SelfContained start (fun _ => False) start code ∧
      SelfContained start' (fun d => d ∈ newRefs start code.length ∨
        ∃ out ∈ ownedOuts s w.thread, σ[Value.instr out.1]? = some (.instr d)) start' code' ∧
      ∀ v ∈ s.live.liveIn, ∃ e ∈ newRefs start code.length, σ[v]? = some (.instr e) := by
  obtain ⟨hook?, types, start, fields, -, htypes, hσ, hfields, -, hstart, hentry, hexit⟩ :=
    h.bordered.ends
  refine ⟨_, _, _, _, Nat.le_refl _, hstart ▸ Nat.le_add_right _ _, hentry, hexit, .entryCode,
    .exitCode ?_ ?_, ?_⟩
  · left
    rw [mem_newRefs_iff, length_entryCode, argPtrAt]
    exact ⟨Nat.le_add_right _ _, by simp only; omega⟩
  · intro field hfield e he
    obtain ⟨out, hout, hvalue, -⟩ := exists_of_forall₂_of_mem hfields hfield
    exact .inr ⟨out, hout, he ▸ hvalue⟩
  · intro v hv
    obtain ⟨k, hk, hlookup⟩ := loadRenaming_of_mem hv
    refine ⟨_, ?_, hσ ▸ hlookup⟩
    have hklt : k < types.length := by
      rw [Program.length_of_valueTypes htypes]
      exact (List.getElem?_eq_some_iff.1 hk).1
    rw [mem_newRefs_iff, length_entryCode, argPtrAt]
    simp only
    omega

theorem renamed (h : Stages s o exchange f thread blocks pairs σ header stores p p₁ p₂ w q)
    {v u : Value} (hv : v ∉ s.live.liveIn) (hu : σ[v]? = some u) :
    ∃ pair ∈ pairs, v = .instr pair.1 ∧ u = .instr pair.2 := by
  obtain ⟨_, _, _, _, -, -, hσ, -⟩ := h.bordered.ends
  rw [hσ, loadRenaming_of_not_mem hv] at hu
  exact exists_of_copyRenaming hu

/-- The copy of a block, filled by then, is listed as it was filled. -/
theorem listed (h : Stages s o exchange f thread blocks pairs σ header stores p p₁ p₂ w q)
    {is : List InstrRef} {here : List (InstrRef × InstrRef)} {b copy : BlockRef} (hb : b ∈ blocks)
    (hcopy : w.blockMap[b]? = some copy) (hfills : Fills s w o is copy here p₂) :
    ∃ block, q.block? copy = some block ∧ block.instrs = here.map Prod.snd := by
  obtain ⟨func, -, hframed, -⟩ := h.layout
  obtain ⟨copy', hcopy', -, hentry, hexit⟩ := hframed.exists_copy hb
  obtain rfl := Option.some.inj (hcopy.symm.trans hcopy')
  obtain ⟨block, hblock, hlist⟩ := hfills.listed
  exact ⟨block, (h.bordered.block?_kept copy hentry hexit).trans hblock, hlist⟩

/-- All that the entry and the exit list is new. -/
theorem le_of_lists (h : Stages s o exchange f thread blocks pairs σ header stores p p₁ p₂ w q)
    {b : BlockRef} (hb : b = w.entry ∨ b = w.exit) {i : InstrRef} (hi : q.Lists b i) :
    p.instrs.size ≤ i.index := by
  have hsize₁ := h.skeleton.size_eq
  have hsize₂ := h.copied.size_eq
  obtain ⟨start, code, start', code', hstart, hstart', hentry, hexit, -⟩ := h.ends
  rcases hb with rfl | rfl
  · rcases hentry.mem_of_lists hi with hmem | rfl
    · have hle := (mem_newRefs_iff.1 hmem).1
      omega
    · exact Nat.le_refl _
  · rcases hexit.mem_of_lists hi with hmem | rfl
    · have hle := (mem_newRefs_iff.1 hmem).1
      omega
    · exact Nat.le_succ _

/-- The stages leave the body of the worker behind, if no block of the loop comes twice. -/
theorem body (h : Stages s o exchange f thread blocks pairs σ header stores p p₁ p₂ w q)
    (hnodup : blocks.Nodup) (hfilled : ∃ here, pairs = blocks.flatMap here ∧ ∀ b ∈ blocks,
      ∃ block copy, o.block? b = some block ∧ w.blockMap[b]? = some copy ∧
        Fills s w o block.instrs copy (here b) p₂) (hsize : o.instrs.size ≤ p.instrs.size)
    (hmem : ∀ b, b ∈ blocks ↔ Concerned o s.loop s.deps s.plan w.thread b)
    (hheader : s.loop.header ∈ blocks) :
    ∃ here, Body s o blocks here σ { w with copies := pairs, outStores := stores } q := by
  obtain ⟨here, rfl, hfills⟩ := hfilled
  obtain ⟨func, hfunc, hframed, harranged, -⟩ := h.layout
  obtain ⟨start, code, start', code', -, -, hends⟩ := h.ends
  have hcopies : ∀ b ∈ blocks, ∀ copy, w.blockMap[b]? = some copy →
      ∃ block, o.block? b = some block ∧ Fills s w o block.instrs copy (here b) p₂ := by
    intro b hb copy hcopy
    obtain ⟨block, copy', hblock, hcopy', hfilled⟩ := hfills b hb
    obtain rfl := Option.some.inj (hcopy.symm.trans hcopy')
    exact ⟨block, hblock, hfilled⟩
  have hlisted : ∀ b ∈ blocks, ∀ copy, w.blockMap[b]? = some copy →
      ∃ block, q.block? copy = some block ∧ block.instrs = (here b).map Prod.snd := by
    intro b hb copy hcopy
    obtain ⟨_, -, hfilled⟩ := hcopies b hb copy hcopy
    exact h.listed hb hcopy hfilled
  refine ⟨here, hmem, hheader, ⟨func, hfunc, ⟨hframed.layout_eq, hframed.nodup⟩,
    (harranged hnodup).in_order⟩, h.skeleton.exit_eq, h.skeleton.preheader_eq, h.skeleton.others,
    ?_, hlisted, ?_, ⟨header, start, code, _, start', code', _, h.header_eq, hends⟩, ?_, ?_, rfl,
    h.copied.refs ▸ nodup_newRefs _ _⟩
  · intro b hb block hblock
    obtain ⟨copy, hcopy, -⟩ := hframed.exists_copy hb
    obtain ⟨block', hblock', hfilled⟩ := hcopies b hb copy hcopy
    obtain rfl := Option.some.inj (hblock.symm.trans hblock')
    exact hfilled.sources
  · intro b hb copy hcopy pair hpair
    obtain ⟨_, -, hfilled⟩ := hcopies b hb copy hcopy
    exact h.copies (List.mem_flatMap.2 ⟨b, hb, hpair⟩) (hfilled.copies pair hpair)
  · intro v u hv hu
    obtain ⟨pair, hpair, heq⟩ := h.renamed hv hu
    obtain ⟨b, hb, hpair⟩ := List.mem_flatMap.1 hpair
    exact ⟨b, hb, pair, hpair, heq⟩
  · intro func' hfunc' b hb i hi
    obtain rfl := Option.some.inj (hfunc.symm.trans hfunc')
    refine Nat.le_trans hsize ?_
    rcases (harranged hnodup).cases hb with hentry | hexit | ⟨b', hb', hcopy⟩
    · exact h.le_of_lists (.inl hentry) hi
    · exact h.le_of_lists (.inr hexit) hi
    · obtain ⟨block, hblock, hlist⟩ := hlisted b' hb' b hcopy
      obtain ⟨block', hblock', hmem⟩ := hi
      obtain rfl := Option.some.inj (hblock.symm.trans hblock')
      obtain ⟨pair, hpair, rfl⟩ := List.mem_map.1 (hlist ▸ hmem)
      exact h.le_of_mem (List.mem_map_of_mem (List.mem_flatMap.2 ⟨b', hb', hpair⟩))

end Stages

/-- What was there before a worker is written stays, and its copies are new. -/
theorem copies_of_build (hshares : Shares o p s.loop) (hpreheader : s.loop.preheader ∉ s.loop)
    (hexit : s.loop.exit ∉ s.loop) (h : (build s d thread).apply p = (.ok w, q)) :
    Grows p q ∧ ∀ i ∈ w.copies.map Prod.snd, p.instrs.size ≤ i.index ∧ i.index < q.instrs.size := by
  obtain ⟨f, func, blocks, pairs, σ, header, stores, p₁, p₂, w₀, hfunc, hempty, -, hstages, -,
    rfl⟩ := stages_of_build hshares hpreheader hexit h
  exact ⟨hstages.grows hfunc hempty, fun i hi => ⟨hstages.le_of_mem hi, hstages.lt_of_mem hi⟩⟩

theorem body_of_build (hshares : Shares o p s.loop) (hnodup : s.loop.blocks.Nodup)
    (hheader : s.loop.header ∈ s.loop) (hpreheader : s.loop.preheader ∉ s.loop)
    (hexit : s.loop.exit ∉ s.loop) (h : (build s d thread).apply p = (.ok w, q)) :
    Grows p q ∧ w.thread = thread ∧ ∃ blocks here σ, Body s o blocks here σ w q := by
  obtain ⟨f, func, blocks, pairs, σ, header, stores, p₁, p₂, w₀, hfunc, hempty, hblocks, hstages,
    hfilled, rfl⟩ := stages_of_build hshares hpreheader hexit h
  obtain ⟨hsub, hmem, hheadermem⟩ := concernedBlocks_eq_ok hblocks
  have hthread := hstages.skeleton.thread_eq
  have hconcerned : ∀ b, b ∈ blocks ↔ Concerned o s.loop s.deps s.plan w₀.thread b := by
    intro b
    rw [hmem, hthread, hshares.concerned_iff]
  obtain ⟨here, hbody⟩ := hstages.body (hsub.nodup hnodup) (hfilled (hsub.nodup hnodup))
    hshares.size_le hconcerned
    (hheadermem hheader)
  exact ⟨hstages.grows hfunc hempty, hthread, blocks, here, σ, hbody⟩

theorem Body.grow {blocks : List BlockRef} {here : BlockRef → List (InstrRef × InstrRef)}
    {σ : Renaming} (h : Body s o blocks here σ w q) (hgrows : Grows q r) :
    Body s o blocks here σ w r := by
  obtain ⟨func, hfunc, harranged⟩ := h.layout
  have hne : func.blocks ≠ [] := List.ne_nil_of_mem harranged.exit_mem
  have hfunc' := hgrows.func?_kept _ _ hfunc hne
  refine ⟨h.mem_blocks_iff, h.header_mem, ⟨func, hfunc', harranged⟩, h.exit_eq, h.preheader_eq,
    h.others, h.sources, ?_, ?_, ?_, h.renamed, ?_, h.copies_eq,
    h.copies_nodup⟩
  · intro b hb copy hcopy
    obtain ⟨block, hblock, hlist⟩ := h.listed b hb copy hcopy
    exact ⟨block, hgrows.block?_kept hblock, hlist⟩
  · intro b hb copy hcopy pair hpair
    obtain ⟨instr, name, hsource, hplaced, hname⟩ := h.copies b hb copy hcopy pair hpair
    exact ⟨instr, name, hsource, hplaced, hgrows.instr?_kept hname⟩
  · obtain ⟨header, start, code, last, start', code', last', hheader, hentry, hexit, hrest⟩ :=
      h.ends
    exact ⟨header, start, code, last, start', code', last', hheader, hentry.grow hgrows,
      hexit.grow hgrows, hrest⟩
  · intro func'' hfunc'' b hb i hi
    obtain rfl := Option.some.inj (hfunc'.symm.trans hfunc'')
    refine h.fresh func hfunc b hb i ?_
    obtain ⟨block, hblock⟩ : ∃ block, q.block? b = some block := by
      obtain ⟨header, start, code, last, start', code', last', -, hentry, hexit, -⟩ := h.ends
      rcases harranged.cases hb with rfl | rfl | ⟨b', hb', hcopy⟩
      · exact ⟨_, hentry.listed.choose_spec.1⟩
      · exact ⟨_, hexit.listed.choose_spec.1⟩
      · exact ⟨_, (h.listed b' hb' b hcopy).choose_spec.1⟩
    obtain ⟨block', hblock', hmem⟩ := hi
    obtain rfl := Option.some.inj ((hgrows.block?_kept hblock).symm.trans hblock')
    exact ⟨block, hblock, hmem⟩

end Build

end Worker

end Decouple
