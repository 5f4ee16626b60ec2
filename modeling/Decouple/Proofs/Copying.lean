import Decouple.Proofs.Edits
import Decouple.Proofs.SlotLaws
import Decouple.Split.Worker

/-!
# Copying blocks of a loop

A copy of an instruction is the instruction with other blocks: `copied` changes successor
and incoming slots by what `copyOfTarget` and `copyOfPred` find, and a copy is made only
where they find something for every slot (`Placed`). Copying several blocks writes to their
copies and changes nothing else (`Transcribes`). If no block comes twice, then the copies of
the instructions of each block fill its copy in the same order (`Fills`).
-/

namespace Decouple

open Outcome

namespace Op

section Changes

variable {ε : Type} {f : BlockRef → Except ε BlockRef} {op op' : Op}

/-- What the change makes of a block, the block itself where it refuses. -/
def changed (f : BlockRef → Except ε BlockRef) (b : BlockRef) : BlockRef :=
  (f b).toOption.getD b

theorem changed_eq {b c : BlockRef} (h : f b = .ok c) : changed f b = c := by
  rw [changed, h]
  rfl

/-- A change goes through for all blocks of a list, or there is a first one that it refuses. -/
theorem all_changed_or_refused (f : BlockRef → Except ε BlockRef) (targets : List BlockRef) :
    (∀ t ∈ targets, f t = .ok (changed f t)) ∨
      ∃ before target after refusal, targets = before ++ target :: after ∧
        (∀ t ∈ before, f t = .ok (changed f t)) ∧ f target = .error refusal := by
  induction targets with
  | nil => exact .inl (by simp)
  | cons first rest ih =>
      cases hfirst : f first with
      | error refusal => exact .inr ⟨[], first, rest, refusal, rfl, by simp, hfirst⟩
      | ok c =>
          have hchanged : f first = .ok (changed f first) := by rw [changed_eq hfirst, hfirst]
          rcases ih with hrest | ⟨before, target, after, refusal, rfl, hbefore, htarget⟩
          · exact .inl (List.forall_mem_cons.2 ⟨hchanged, hrest⟩)
          · exact .inr ⟨first :: before, target, after, refusal, rfl,
              List.forall_mem_cons.2 ⟨hchanged, hbefore⟩, htarget⟩

/-- A change of all successor slots that refuses none. -/
theorem changeSuccessors_eq_none (h : op.changeSuccessors f = (op', none)) :
    op' = op.mapSuccessors (changed f) ∧ ∀ t ∈ op.successors, f t = .ok (changed f t) := by
  rcases all_changed_or_refused f op.successors with
    hall | ⟨before, target, after, refusal, hsplit, hbefore, htarget⟩
  · rw [changeSuccessors_of_ok hall] at h
    exact ⟨(Prod.mk.inj h).1.symm, hall⟩
  · obtain ⟨op₁, hstops, -⟩ := changeSuccessors_of_error hsplit hbefore htarget
    cases hstops.symm.trans h

/-- A change of all successor slots is refused for one of them. -/
theorem changeSuccessors_eq_some {refusal : ε} (h : op.changeSuccessors f = (op', some refusal)) :
    ∃ target ∈ op.successors, f target = .error refusal := by
  rcases all_changed_or_refused f op.successors with
    hall | ⟨before, target, after, refusal', hsplit, hbefore, htarget⟩
  · cases (changeSuccessors_of_ok hall).symm.trans h
  · obtain ⟨op₁, hstops, -⟩ := changeSuccessors_of_error hsplit hbefore htarget
    obtain ⟨-, heq⟩ := Prod.mk.inj (hstops.symm.trans h)
    refine ⟨target, hsplit ▸ List.mem_append_right _ (List.mem_cons_self ..), ?_⟩
    rw [htarget, Option.some.inj heq]

/-- A change of all incoming slots that refuses none. -/
theorem traverseIncoming_eq_ok (h : op.traverseIncoming f = .ok op') :
    op' = op.mapIncoming (changed f) ∧
      ∀ pair ∈ op.incoming, f pair.2 = .ok (changed f pair.2) := by
  cases op with
  | phi pairs =>
      obtain ⟨pairs', hpairs, heq⟩ := bind_eq_ok_iff.1 h
      obtain rfl := pure_eq_ok_iff.1 heq
      have hall := mapM_eq_ok_iff.1 hpairs
      clear h hpairs heq
      induction hall with
      | nil => exact ⟨rfl, by simp [incoming]⟩
      | @cons pair pair' pairs pairs' hpair _ ih =>
          obtain ⟨c, hc, heq⟩ := bind_eq_ok_iff.1 hpair
          obtain rfl := pure_eq_ok_iff.1 heq
          obtain ⟨hrest, hok⟩ := ih
          obtain rfl := phi.inj hrest
          obtain rfl := changed_eq hc
          refine ⟨rfl, ?_⟩
          intro pair' hmem
          rcases List.mem_cons.1 hmem with rfl | hmem
          · exact hc
          · exact hok pair' hmem
  | _ =>
      obtain rfl := pure_eq_ok_iff.1 h
      exact ⟨rfl, by simp [incoming]⟩

end Changes

end Op

namespace Worker

def copied (s : Setting) (blockMap : Std.TreeMap BlockRef BlockRef) (op : Op) : Op :=
  (op.mapSuccessors (Op.changed (copyOfTarget s blockMap))).mapIncoming
    (Op.changed (copyOfPred s blockMap))

/-- All blocks that the operation names have a block to stand for them in the worker. -/
structure Placed (s : Setting) (blockMap : Std.TreeMap BlockRef BlockRef) (op : Op) : Prop where
  targets : ∀ t ∈ op.successors,
    copyOfTarget s blockMap t = .ok (Op.changed (copyOfTarget s blockMap) t)
  preds : ∀ pair ∈ op.incoming,
    copyOfPred s blockMap pair.2 = .ok (Op.changed (copyOfPred s blockMap) pair.2)

theorem copyOp_eq_ok {s : Setting} {blockMap : Std.TreeMap BlockRef BlockRef} {op op' : Op}
    (h : copyOp s blockMap op = .ok op') : op' = copied s blockMap op ∧ Placed s blockMap op := by
  unfold copyOp at h
  split at h
  · cases h
  · next between hchange =>
      obtain ⟨rfl, htargets⟩ := Op.changeSuccessors_eq_none hchange
      obtain ⟨rfl, hpreds⟩ := Op.traverseIncoming_eq_ok h
      rw [Op.incoming_mapSuccessors] at hpreds
      exact ⟨rfl, htargets, hpreds⟩

def takes (s : Setting) (p : Program) (thread : Nat) (i : InstrRef) : Bool :=
  (p.instr? i).any fun instr => instr.op.isTerminator || s.plan.threadOf? i = some thread

theorem isCopied_eq_ok {s : Setting} {o p : Program} {thread : Nat} {b : BlockRef} {i : InstrRef}
    {instr : Instr} {taken : Bool} (hi : o.instr? i = some instr)
    (h : isCopied p s thread b i instr = .ok taken) : taken = takes s o thread i := by
  unfold isCopied at h
  rw [takes, hi]
  split at h
  · next hterm =>
      obtain rfl := pure_eq_ok_iff.1 h
      simp [hterm]
  · next hterm =>
      split at h
      · next owner howner =>
          obtain rfl := pure_eq_ok_iff.1 h
          simp [hterm, howner]
      · obtain ⟨_, -, h⟩ := bind_eq_ok_iff.1 h
        obtain ⟨_, -, h⟩ := bind_eq_ok_iff.1 h
        cases h

section Copying

-- `o` is the program that the copied instructions are read in
variable {s : Setting} {w : Worker} {o p q r : Program} {b copy : BlockRef} {is : List InstrRef}
  {pairs : List (InstrRef × InstrRef)}

def CopyOf (s : Setting) (w : Worker) (o : Program) (i : InstrRef) (code : Op × Ty) : Prop :=
  ∃ instr, o.instr? i = some instr ∧ Placed s w.blockMap instr.op ∧
    code = (copied s w.blockMap instr.op, instr.ty)

theorem copyInstrs_cons_eq_ok {i : InstrRef}
    (h : (copyInstrs s w b copy (i :: is)).apply p = (.ok pairs, q)) :
    ∃ instr, p.instr? i = some instr ∧
      (isCopied p s w.thread b i instr = .ok false ∧
          (copyInstrs s w b copy is).apply p = (.ok pairs, q) ∨
        isCopied p s w.thread b i instr = .ok true ∧ ∃ op clone later between,
          copyOp s w.blockMap instr.op = .ok op ∧
          (Edit.appendInstr copy op instr.ty (instr.name.map fun name =>
            name ++ "_" ++ toString w.thread)).apply p = (.ok clone, between) ∧
          (copyInstrs s w b copy is).apply between = (.ok later, q) ∧
          pairs = (i, clone) :: later) := by
  unfold copyInstrs at h
  rw [Edit.get_bind_eq_ok_iff] at h
  obtain ⟨instr, p', hlookup, h⟩ := Edit.apply_bind_eq_ok_iff.1 h
  obtain ⟨hinstr, rfl⟩ := Edit.liftM_eq_ok_iff.1 hlookup
  obtain ⟨taken, p', hlookup, h⟩ := Edit.apply_bind_eq_ok_iff.1 h
  obtain ⟨htaken, rfl⟩ := Edit.liftM_eq_ok_iff.1 hlookup
  refine ⟨instr, Program.instr_eq_ok_iff.1 hinstr, ?_⟩
  cases taken with
  | false => exact .inl ⟨htaken, h⟩
  | true =>
      simp only [if_true] at h
      obtain ⟨op, p', hlookup, h⟩ := Edit.apply_bind_eq_ok_iff.1 h
      obtain ⟨hop, rfl⟩ := Edit.liftM_eq_ok_iff.1 hlookup
      obtain ⟨clone, p₁, hclone, h⟩ := Edit.apply_bind_eq_ok_iff.1 h
      obtain ⟨later, p₂, hlater, h⟩ := Edit.apply_bind_eq_ok_iff.1 h
      obtain ⟨rfl, rfl⟩ := Edit.pure_eq_ok_iff.1 h
      exact .inr ⟨htaken, op, clone, later, p₁, hop, hclone, hlater, rfl⟩

/-- What is listed is there when it is copied and stays as it is, so the copies are copies of what
is found in the end. -/
theorem copyInstrs_spec (hend : EndsWith p copy [])
    (h : (copyInstrs s w b copy is).apply p = (.ok pairs, q)) :
    (∀ i ∈ is, i.index < q.instrs.size) ∧
      pairs.map Prod.fst = is.filter (takes s q w.thread) ∧
      pairs.map Prod.snd = newRefs p.instrs.size pairs.length ∧
      ∃ ops, List.Forall₂ (fun pair => CopyOf s w q pair.1) pairs ops ∧ Writes copy [] ops p q := by
  induction is generalizing p pairs with
  | nil =>
      obtain ⟨rfl, rfl⟩ := Edit.pure_eq_ok_iff.1 h
      exact ⟨by simp, rfl, rfl, [], .nil, .refl hend⟩
  | cons i is ih =>
      obtain ⟨instr, hinstr, hcases⟩ := copyInstrs_cons_eq_ok h
      obtain ⟨hlt, -⟩ := Array.getElem?_eq_some_iff.1 hinstr
      rcases hcases with ⟨htaken, h⟩ | ⟨htaken, op, clone, later, p₁, hop, hclone, hlater, rfl⟩
      · obtain ⟨hthere, hsources, hcopies, ops, hops, hwrites⟩ := ih hend h
        rw [← hwrites.instr?_old hlt] at hinstr
        have htakes := isCopied_eq_ok hinstr htaken
        refine ⟨?_, ?_, hcopies, ops, hops, hwrites⟩
        · exact List.forall_mem_cons.2 ⟨(Array.getElem?_eq_some_iff.1 hinstr).1, hthere⟩
        · rw [List.filter_cons_of_neg (by simp [← htakes]), hsources]
      · obtain ⟨rfl, hplaced⟩ := copyOp_eq_ok hop
        obtain ⟨rfl, hwrites⟩ := Writes.of_appendInstr hclone
        obtain ⟨hthere, hsources, hcopies, ops, hops, hwrites'⟩ := ih hwrites.endsWith hlater
        have hall := hwrites.trans hwrites'
        rw [← hall.instr?_old hlt] at hinstr
        have htakes := isCopied_eq_ok hinstr htaken
        refine ⟨?_, ?_, ?_, _ :: ops, .cons ⟨instr, hinstr, hplaced, rfl⟩ hops, hall⟩
        · exact List.forall_mem_cons.2 ⟨(Array.getElem?_eq_some_iff.1 hinstr).1, hthere⟩
        · rw [List.filter_cons_of_pos htakes.symm, List.map_cons, hsources]
        · have hsize : p₁.instrs.size = p.instrs.size + 1 := hwrites.size_eq
          rw [List.map_cons, hcopies, hsize, List.length_cons, newRefs_succ]

def IsCopy (s : Setting) (w : Worker) (o : Program) (copy : BlockRef) (q : Program)
    (pair : InstrRef × InstrRef) : Prop :=
  ∃ instr name, o.instr? pair.1 = some instr ∧ Placed s w.blockMap instr.op ∧
    q.instr? pair.2 = some
      { block := some copy, op := copied s w.blockMap instr.op, ty := instr.ty, name }

theorem IsCopy.mono {pair : InstrRef × InstrRef} (h : IsCopy s w q copy q pair)
    (hinstr : ∀ i, i.index < q.instrs.size → r.instr? i = q.instr? i) :
    IsCopy s w r copy r pair := by
  obtain ⟨instr, name, hsource, hplaced, hcopy⟩ := h
  obtain ⟨hlt, -⟩ := Array.getElem?_eq_some_iff.1 hsource
  obtain ⟨hlt', -⟩ := Array.getElem?_eq_some_iff.1 hcopy
  exact ⟨instr, name, by rw [hinstr _ hlt, hsource], hplaced, by rw [hinstr _ hlt', hcopy]⟩

theorem IsCopy.congr {pair : InstrRef × InstrRef} (h : IsCopy s w r copy q pair)
    (hsame : r.instr? pair.1 = o.instr? pair.1) : IsCopy s w o copy q pair := by
  obtain ⟨instr, name, hsource, hrest⟩ := h
  exact ⟨instr, name, by rw [← hsame, hsource], hrest⟩

/-- The copies have consecutive references. -/
theorem snd_eq_of_newRefs {start k : Nat} {pair : InstrRef × InstrRef}
    (hrefs : pairs.map Prod.snd = newRefs start pairs.length) (hk : pairs[k]? = some pair) :
    pair.2 = ⟨start + k⟩ := by
  obtain ⟨hlt, -⟩ := List.getElem?_eq_some_iff.1 hk
  have hpairk : (pairs.map Prod.snd)[k]? = some pair.2 := by simp [hk]
  rw [hrefs] at hpairk
  simpa [newRefs, hlt, eq_comm] using hpairk

theorem copyInstrs_writes (hend : EndsWith p copy [])
    (h : (copyInstrs s w b copy is).apply p = (.ok pairs, q)) :
    (∀ i ∈ is, i.index < q.instrs.size) ∧
      pairs.map Prod.fst = is.filter (takes s q w.thread) ∧
      pairs.map Prod.snd = newRefs p.instrs.size pairs.length ∧
      (∀ pair ∈ pairs, IsCopy s w q copy q pair) ∧
      ∃ ops, ops.length = pairs.length ∧ Writes copy [] ops p q := by
  obtain ⟨hthere, hsources, hrefs, ops, hops, hwrites⟩ := copyInstrs_spec hend h
  have hlength := hops.length_eq
  refine ⟨hthere, hsources, hrefs, ?_, ops, hlength.symm, hwrites⟩
  intro pair hpair
  obtain ⟨k, hk⟩ := List.mem_iff_getElem?.1 hpair
  obtain ⟨hlt, hkeq⟩ := List.getElem?_eq_some_iff.1 hk
  have hat := hops.get hlt (hlength ▸ hlt)
  simp only [List.get_eq_getElem, hkeq] at hat
  obtain ⟨instr, hinstr, hplaced, hcode⟩ := hat
  have hopsk : ops[k]? = some (copied s w.blockMap instr.op, instr.ty) := by
    rw [List.getElem?_eq_getElem (hlength ▸ hlt), hcode]
  obtain ⟨name, hname⟩ := hwrites.instr?_new hopsk
  exact ⟨instr, name, hinstr, hplaced, snd_eq_of_newRefs hrefs hk ▸ hname⟩

theorem copyOf_eq_ok {blockMap : Std.TreeMap BlockRef BlockRef}
    (h : copyOf blockMap b = .ok copy) : blockMap[b]? = some copy := by
  unfold copyOf at h
  split at h
  · next found hfound => rw [hfound, Except.ok.inj h]
  · cases h

section Blocks

variable {blocks : List BlockRef}

theorem copyBlocks_cons_eq_ok
    (h : (copyBlocks s w (b :: blocks)).apply p = (.ok pairs, q)) :
    ∃ copy block first later between, w.blockMap[b]? = some copy ∧ p.block? b = some block ∧
      (copyInstrs s w b copy block.instrs).apply p = (.ok first, between) ∧
      (copyBlocks s w blocks).apply between = (.ok later, q) ∧ pairs = first ++ later := by
  unfold copyBlocks at h
  obtain ⟨copy, p', hlookup, h⟩ := Edit.apply_bind_eq_ok_iff.1 h
  obtain ⟨hcopy, rfl⟩ := Edit.liftM_eq_ok_iff.1 hlookup
  rw [Edit.get_bind_eq_ok_iff] at h
  obtain ⟨block, p', hlookup, h⟩ := Edit.apply_bind_eq_ok_iff.1 h
  obtain ⟨hblock, rfl⟩ := Edit.liftM_eq_ok_iff.1 hlookup
  obtain ⟨first, p₁, hfirst, h⟩ := Edit.apply_bind_eq_ok_iff.1 h
  obtain ⟨later, p₂, hlater, h⟩ := Edit.apply_bind_eq_ok_iff.1 h
  obtain ⟨rfl, rfl⟩ := Edit.pure_eq_ok_iff.1 h
  exact ⟨copy, block, first, later, p₁, copyOf_eq_ok hcopy, Program.block_eq_ok_iff.1 hblock,
    hfirst, hlater, rfl⟩

/-- The blocks can be copied in the program `p`: they and what they list are there as in `o`,
and their copies are other blocks. -/
structure Copyable (w : Worker) (o : Program) (blocks : List BlockRef) (p : Program) : Prop where
  block? : ∀ b ∈ blocks, p.block? b = o.block? b
  instr? : ∀ b ∈ blocks, ∀ i, o.Lists b i → i.index < p.instrs.size ∧ p.instr? i = o.instr? i
  copy : ∀ b ∈ blocks, ∀ copy, w.blockMap[b]? = some copy → copy ∉ blocks ∧
    copy.index < p.blocks.size

/-- Filling the copy of the first block leaves the others to be copied. -/
theorem Copyable.of_writes {ops : List (Op × Ty)} (h : Copyable w o (b :: blocks) p)
    (hcopy : w.blockMap[b]? = some copy) (hwrites : Writes copy [] ops p q) :
    Copyable w o blocks q where
  block? := by
    intro c hc
    have hne : c ≠ copy := by
      rintro rfl
      exact (h.copy b (List.mem_cons_self ..) c hcopy).1 (List.mem_cons_of_mem _ hc)
    rw [hwrites.block?_of_ne hne, h.block? c (List.mem_cons_of_mem _ hc)]
  instr? := by
    intro c hc i hi
    obtain ⟨hlt, hsame⟩ := h.instr? c (List.mem_cons_of_mem _ hc) i hi
    rw [hwrites.instr?_old hlt, hwrites.size_eq]
    exact ⟨Nat.lt_add_right _ hlt, hsame⟩
  copy := by
    intro c hc copy' hcopy'
    obtain ⟨hnot, hlt⟩ := h.copy c (List.mem_cons_of_mem _ hc) copy' hcopy'
    rw [hwrites.size_blocks_eq]
    exact ⟨fun hmem => hnot (List.mem_cons_of_mem _ hmem), hlt⟩

/-- Copies of instructions of the blocks are written to the copies of the blocks, and nothing
else is changed. -/
structure Transcribes (s : Setting) (w : Worker) (o : Program) (blocks : List BlockRef)
    (pairs : List (InstrRef × InstrRef)) (p q : Program) : Prop where
  refs : pairs.map Prod.snd = newRefs p.instrs.size pairs.length
  copies : ∀ pair ∈ pairs, ∃ b ∈ blocks, ∃ copy, w.blockMap[b]? = some copy ∧
    IsCopy s w o copy q pair
  instr?_old : ∀ i, i.index < p.instrs.size → q.instr? i = p.instr? i
  size_eq : q.instrs.size = p.instrs.size + pairs.length
  block?_kept : ∀ c, (∀ b ∈ blocks, w.blockMap[b]? ≠ some c) → q.block? c = p.block? c
  size_blocks_eq : q.blocks.size = p.blocks.size
  func?_kept : ∀ f func, p.func? f = some func → q.func? f = some func

theorem copyBlocks_transcribes
    (hthere : ∀ b ∈ blocks, ∀ copy, w.blockMap[b]? = some copy → copy.index < p.blocks.size)
    (h : (copyBlocks s w blocks).apply p = (.ok pairs, q)) :
    Transcribes s w q blocks pairs p q := by
  induction blocks generalizing p pairs with
  | nil =>
      obtain ⟨rfl, rfl⟩ := Edit.pure_eq_ok_iff.1 h
      exact ⟨rfl, by simp, fun _ _ => rfl, rfl, fun _ _ => rfl, rfl, fun _ _ hf => hf⟩
  | cons b blocks ih =>
      obtain ⟨copy, block, first, later, p₁, hcopy, hblock, hfirst, hlater, rfl⟩ :=
        copyBlocks_cons_eq_ok h
      have hhead : b ∈ b :: blocks := List.mem_cons_self ..
      have hcopyBlock := Array.getElem?_eq_getElem (hthere b hhead copy hcopy)
      obtain ⟨-, -, hrefs, hcopies, ops, hlength, hwrites⟩ := copyInstrs_writes
        ⟨_, _, hcopyBlock, (List.append_nil _).symm⟩ hfirst
      have hrest := ih (fun c hc copy hcopy => hwrites.size_blocks_eq ▸
        hthere c (List.mem_cons_of_mem _ hc) copy hcopy) hlater
      refine ⟨?_, ?_, ?_, ?_, ?_, ?_, ?_⟩
      · rw [List.map_append, hrefs, hrest.refs, hwrites.size_eq, hlength, List.length_append,
          newRefs_add]
      · intro pair hpair
        rcases List.mem_append.1 hpair with hpair | hpair
        · exact ⟨b, hhead, copy, hcopy, (hcopies pair hpair).mono hrest.instr?_old⟩
        · obtain ⟨c, hc, hrestCopy⟩ := hrest.copies pair hpair
          exact ⟨c, List.mem_cons_of_mem _ hc, hrestCopy⟩
      · intro i hi
        rw [hrest.instr?_old i (hwrites.size_eq ▸ Nat.lt_add_right _ hi), hwrites.instr?_old hi]
      · rw [hrest.size_eq, hwrites.size_eq, hlength, List.length_append, Nat.add_assoc]
      · intro c hc
        have hne : c ≠ copy := fun heq => hc b hhead (heq ▸ hcopy)
        rw [hrest.block?_kept c fun d hd => hc d (List.mem_cons_of_mem _ hd),
          hwrites.block?_of_ne hne]
      · rw [hrest.size_blocks_eq, hwrites.size_blocks_eq]
      · intro f func hf
        exact hrest.func?_kept f func (hwrites.func?_kept hf)

/-- What is copied is listed in one of the blocks. -/
theorem Copyable.lists_of_mem (hcopyable : Copyable w o blocks p)
    (h : (copyBlocks s w blocks).apply p = (.ok pairs, q)) {pair : InstrRef × InstrRef}
    (hpair : pair ∈ pairs) : ∃ b ∈ blocks, o.Lists b pair.1 := by
  induction blocks generalizing p pairs with
  | nil =>
      obtain ⟨rfl, -⟩ := Edit.pure_eq_ok_iff.1 h
      cases hpair
  | cons b blocks ih =>
      obtain ⟨copy, block, first, later, p₁, hcopy, hblock, hfirst, hlater, rfl⟩ :=
        copyBlocks_cons_eq_ok h
      have hhead : b ∈ b :: blocks := List.mem_cons_self ..
      have hcopyBlock := Array.getElem?_eq_getElem (hcopyable.copy b hhead copy hcopy).2
      obtain ⟨-, hsources, -, -, ops, -, hwrites⟩ := copyInstrs_writes
        ⟨_, _, hcopyBlock, (List.append_nil _).symm⟩ hfirst
      rcases List.mem_append.1 hpair with hpair | hpair
      · have hmem : pair.1 ∈ block.instrs :=
          List.mem_of_mem_filter (hsources ▸ List.mem_map_of_mem hpair)
        exact ⟨b, hhead, block, hcopyable.block? b hhead ▸ hblock, hmem⟩
      · obtain ⟨c, hc, hlists⟩ := ih (hcopyable.of_writes hcopy hwrites) hlater hpair
        exact ⟨c, List.mem_cons_of_mem _ hc, hlists⟩

/-- What is copied is read in `o`, if it is there as in `o` before. -/
theorem Copyable.transcribes (hcopyable : Copyable w o blocks p)
    (h : (copyBlocks s w blocks).apply p = (.ok pairs, q)) :
    Transcribes s w o blocks pairs p q := by
  have hself := copyBlocks_transcribes (fun b hb copy hcopy => (hcopyable.copy b hb copy hcopy).2) h
  refine { hself with copies := fun pair hpair => ?_ }
  obtain ⟨b, hb, copy, hcopy, hisCopy⟩ := hself.copies pair hpair
  obtain ⟨c, hc, hlists⟩ := hcopyable.lists_of_mem h hpair
  obtain ⟨hlt, hsame⟩ := hcopyable.instr? c hc pair.1 hlists
  exact ⟨b, hb, copy, hcopy, hisCopy.congr ((hself.instr?_old _ hlt).trans hsame)⟩

/-- The block `copy` is filled with the copies of those of the instructions `is` that go
into the worker. -/
structure Fills (s : Setting) (w : Worker) (o : Program) (is : List InstrRef) (copy : BlockRef)
    (pairs : List (InstrRef × InstrRef)) (q : Program) : Prop where
  sources : pairs.map Prod.fst = is.filter (takes s o w.thread)
  listed : ∃ block, q.block? copy = some block ∧ block.instrs = pairs.map Prod.snd
  copies : ∀ pair ∈ pairs, IsCopy s w o copy q pair

theorem takes_congr {thread : Nat} {i : InstrRef} (h : p.instr? i = o.instr? i) :
    takes s p thread i = takes s o thread i := by
  rw [takes, takes, h]

theorem Fills.mono (h : Fills s w q is copy pairs q) (hthere : ∀ i ∈ is, i.index < q.instrs.size)
    (hinstr : ∀ i, i.index < q.instrs.size → r.instr? i = q.instr? i)
    (hblock : r.block? copy = q.block? copy) : Fills s w r is copy pairs r where
  sources := by
    rw [h.sources]
    exact List.filter_congr fun i hi => (takes_congr (hinstr i (hthere i hi))).symm
  listed := by rw [hblock]; exact h.listed
  copies := fun pair hpair => (h.copies pair hpair).mono hinstr

theorem Fills.congr (h : Fills s w r is copy pairs q) (hsame : ∀ i ∈ is, r.instr? i = o.instr? i) :
    Fills s w o is copy pairs q where
  sources := by
    rw [h.sources]
    exact List.filter_congr fun i hi => takes_congr (hsame i hi)
  listed := h.listed
  copies := by
    intro pair hpair
    have hmem : pair.1 ∈ is := List.mem_of_mem_filter (h.sources ▸ List.mem_map_of_mem hpair)
    exact (h.copies pair hpair).congr (hsame pair.1 hmem)

/-- An empty copy is filled by copying into it. -/
theorem copyInstrs_fills {block : Block} (hblock : p.block? copy = some block)
    (hempty : block.instrs = [])
    (h : (copyInstrs s w b copy is).apply p = (.ok pairs, q)) :
    (∀ i ∈ is, i.index < q.instrs.size) ∧ Fills s w q is copy pairs q ∧
      (∃ ops, Writes copy [] ops p q) ∧
      pairs.map Prod.snd = newRefs p.instrs.size pairs.length := by
  have hnone : block.instrs = [] ++ [] := hempty
  obtain ⟨hthere, hsources, hrefs, hcopies, ops, hlength, hwrites⟩ := copyInstrs_writes
    ⟨block, [], hblock, hnone⟩ h
  refine ⟨hthere, ⟨hsources, ⟨_, hwrites.block?_self hblock hnone, ?_⟩, hcopies⟩, ⟨ops, hwrites⟩,
    hrefs⟩
  rw [hrefs, hlength]
  simp

/-- A copy that is still empty is there. -/
theorem lt_size_of_empty
    (hempty : ∀ b ∈ blocks, ∃ copy block, w.blockMap[b]? = some copy ∧
      p.block? copy = some block ∧ block.instrs = []) :
    ∀ b ∈ blocks, ∀ copy, w.blockMap[b]? = some copy → copy.index < p.blocks.size := by
  intro b hb copy hcopy
  obtain ⟨copy', block, hcopy', hblock, -⟩ := hempty b hb
  obtain rfl := Option.some.inj (hcopy.symm.trans hcopy')
  exact (Array.getElem?_eq_some_iff.1 hblock).1

/-- Each copy is filled from one block, if no block comes twice. The copies of the instructions
of each block are found in `here`. A block is read as it was, unless it is itself one of the copies:
then all that it lists is new. -/
theorem copyBlocks_fills (hnodup : blocks.Nodup)
    (hempty : ∀ b ∈ blocks, ∃ copy block, w.blockMap[b]? = some copy ∧
      p.block? copy = some block ∧ block.instrs = [])
    (hinj : ∀ b ∈ blocks, ∀ c ∈ blocks, w.blockMap[b]? = w.blockMap[c]? → b = c)
    (h : (copyBlocks s w blocks).apply p = (.ok pairs, q)) :
    ∃ here, pairs = blocks.flatMap here ∧ ∀ b ∈ blocks, ∃ block copy,
      w.blockMap[b]? = some copy ∧
      (p.block? b = some block ∨ (∃ c ∈ blocks, w.blockMap[c]? = some b) ∧
        ∀ i ∈ block.instrs, p.instrs.size ≤ i.index) ∧
      (∀ i ∈ block.instrs, i.index < q.instrs.size) ∧
      Fills s w q block.instrs copy (here b) q := by
  induction blocks generalizing p pairs with
  | nil =>
      obtain ⟨rfl, rfl⟩ := Edit.pure_eq_ok_iff.1 h
      exact ⟨fun _ => [], rfl, by simp⟩
  | cons b blocks ih =>
      obtain ⟨copy, block, first, later, p₁, hcopy, hblock, hfirst, hlater, rfl⟩ :=
        copyBlocks_cons_eq_ok h
      have hhead : b ∈ b :: blocks := List.mem_cons_self ..
      obtain ⟨copy', copyBlock, hcopy', hcopyBlock, hcopyEmpty⟩ := hempty b hhead
      obtain rfl := Option.some.inj (hcopy.symm.trans hcopy')
      obtain ⟨hthere, hfills, ⟨ops, hwrites⟩, hrefs⟩ :=
        copyInstrs_fills hcopyBlock hcopyEmpty hfirst
      obtain ⟨hnotmem, hnodup⟩ := List.nodup_cons.1 hnodup
      have hother : ∀ c ∈ blocks, w.blockMap[c]? ≠ some copy := by
        intro c hc heq
        exact hnotmem (hinj b hhead c (List.mem_cons_of_mem _ hc) (hcopy.trans heq.symm) ▸ hc)
      have hempty₁ : ∀ c ∈ blocks, ∃ copy block, w.blockMap[c]? = some copy ∧
          p₁.block? copy = some block ∧ block.instrs = [] := by
        intro c hc
        obtain ⟨copy', block', hcopy', hblock', hempty'⟩ := hempty c (List.mem_cons_of_mem _ hc)
        refine ⟨copy', block', hcopy', ?_, hempty'⟩
        rw [hwrites.block?_of_ne fun heq => hother c hc (heq ▸ hcopy'), hblock']
      obtain ⟨later', rfl, hrest⟩ := ih hnodup hempty₁
        (fun c hc d hd => hinj c (List.mem_cons_of_mem _ hc) d (List.mem_cons_of_mem _ hd)) hlater
      have hkept := copyBlocks_transcribes (lt_size_of_empty hempty₁) hlater
      have hlater' : ∀ c ∈ blocks, Function.update later' b first c = later' c := by
        intro c hc
        refine Function.update_of_ne ?_ _ _
        rintro rfl
        exact hnotmem hc
      refine ⟨Function.update later' b first, ?_, ?_⟩
      · rw [List.flatMap_cons, Function.update_self, List.flatMap_congr hlater']
      · intro c hc
        rcases List.mem_cons.1 hc with rfl | hc
        · refine ⟨block, copy, hcopy, .inl hblock, fun i hi => ?_, ?_⟩
          · exact hkept.size_eq ▸ Nat.lt_add_right _ (hthere i hi)
          · rw [Function.update_self]
            exact hfills.mono hthere hkept.instr?_old (hkept.block?_kept copy hother)
        · obtain ⟨block', copy', hcopy', horigin, hthere', hfills'⟩ := hrest c hc
          rw [hlater' c hc]
          refine ⟨block', copy', hcopy', ?_, hthere', hfills'⟩
          rcases horigin with hsame | ⟨⟨d, hd, hdc⟩, hnew⟩
          · by_cases hcc : c = copy
            · -- the copy that was just filled is copied in its turn
              subst hcc
              obtain ⟨filled, hfilled, hlist⟩ := hfills.listed
              obtain rfl := Option.some.inj (hfilled.symm.trans hsame)
              refine .inr ⟨⟨b, hhead, hcopy⟩, fun i hi => ?_⟩
              rw [hlist, hrefs] at hi
              exact (mem_newRefs_iff.1 hi).1
            · exact .inl ((hwrites.block?_of_ne hcc).symm.trans hsame)
          · refine .inr ⟨⟨d, List.mem_cons_of_mem _ hd, hdc⟩, fun i hi => ?_⟩
            exact Nat.le_trans (hwrites.size_eq ▸ Nat.le_add_right _ _) (hnew i hi)

/-- The copies are filled with copies of what is read in `o`, if it is there as in `o` before. -/
theorem Copyable.fills (hcopyable : Copyable w o blocks p) (hnodup : blocks.Nodup)
    (hempty : ∀ b ∈ blocks, ∃ copy block, w.blockMap[b]? = some copy ∧
      p.block? copy = some block ∧ block.instrs = [])
    (hinj : ∀ b ∈ blocks, ∀ c ∈ blocks, w.blockMap[b]? = w.blockMap[c]? → b = c)
    (h : (copyBlocks s w blocks).apply p = (.ok pairs, q)) :
    ∃ here, pairs = blocks.flatMap here ∧ ∀ b ∈ blocks, ∃ block copy, o.block? b = some block ∧
      w.blockMap[b]? = some copy ∧ Fills s w o block.instrs copy (here b) q := by
  obtain ⟨here, rfl, hfills⟩ := copyBlocks_fills hnodup hempty hinj h
  have hkept := hcopyable.transcribes h
  refine ⟨here, rfl, fun b hb => ?_⟩
  obtain ⟨block, copy, hcopy, hblock | ⟨⟨c, hc, hcb⟩, -⟩, -, hfilled⟩ := hfills b hb
  · rw [hcopyable.block? b hb] at hblock
    refine ⟨block, copy, hblock, hcopy, hfilled.congr fun i hi => ?_⟩
    obtain ⟨hlt, hsame⟩ := hcopyable.instr? b hb i ⟨block, hblock, hi⟩
    exact (hkept.instr?_old i hlt).trans hsame
  · exact absurd hb (hcopyable.copy c hc b hcb).1

end Blocks

end Copying

end Worker

end Decouple
