import Decouple.Proofs.PlanTables
import Decouple.Proofs.WorkerFlow

/-!
# Which worker has which instruction

A plan that was put together from accepted SCCs gives every instruction to a thread that it
has (`Plan.Made`). A split of a loop divides the instructions of the loop among the workers
accordingly (`Split.Divides`): an instruction goes to the worker of its thread, a terminator goes
to every worker that has a copy of its block, and no other instruction is copied. The tables of
a worker lead from an instruction to its copy and back, and a copy belongs to one worker.

Only the way from a copy to its instruction and back again asks for more than a function that
passes the check: a block that lists an instruction twice has two copies of it, of which the
table has one.
-/

namespace Decouple

open Outcome

namespace Plan

variable {plan plan' : Plan} {thread : Nat} {members : List InstrRef} {i : InstrRef}

/-- The plan was put together from SCCs, each of which was accepted. -/
inductive Made : Plan → Prop where
  | empty (threads : Nat) : Made (Plan.empty threads)
  | addScc {plan plan' : Plan} {thread : Nat} {members : List InstrRef} (made : Made plan)
      (added : plan.addScc thread members = .ok plan') : Made plan'

theorem Made.orderly (h : plan.Made) : plan.Orderly := by
  induction h with
  | empty threads => exact orderly_empty threads
  | addScc made added ih => exact ih.addScc added

theorem exists_scc_of_threadOf? (h : plan.threadOf? i = some thread) :
    ∃ scc ∈ plan.sccs, i ∈ scc.members ∧ scc.thread = thread := by
  obtain ⟨scc, hfind, hthread⟩ := Option.map_eq_some_iff.1 h
  have hi := List.find?_some hfind
  exact ⟨scc, List.mem_of_find?_eq_some hfind, of_decide_eq_true hi, hthread⟩

theorem Made.threadOf?_lt (h : plan.Made) (hi : plan.threadOf? i = some thread) :
    thread < plan.threads := by
  obtain ⟨scc, hscc, -, rfl⟩ := exists_scc_of_threadOf? hi
  exact h.orderly.threads scc hscc

theorem mem_membersOf_of_threadOf? (h : plan.threadOf? i = some thread) :
    i ∈ plan.membersOf thread := by
  obtain ⟨scc, hscc, hi, hthread⟩ := exists_scc_of_threadOf? h
  exact List.mem_flatMap.2 ⟨scc, List.mem_filter.2 ⟨hscc, decide_eq_true hthread⟩, hi⟩

end Plan

namespace Worker

variable {w : Worker} {i c : InstrRef}

/-- With distinct keys, an entry is the last one for its key. -/
theorem find?_reverse_of_nodup {α γ : Type} [DecidableEq α] {key : γ → α} {entries : List γ}
    (hnodup : (entries.map key).Nodup) {entry : γ} (hentry : entry ∈ entries) :
    (entries.reverse.find? fun other => key other = key entry) = some entry := by
  have hsome : (entries.reverse.find? fun other => key other = key entry).isSome := by
    rw [List.find?_isSome]
    exact ⟨entry, List.mem_reverse.2 hentry, decide_eq_true rfl⟩
  obtain ⟨found, hfound⟩ := Option.isSome_iff_exists.1 hsome
  obtain ⟨hmem, hkey⟩ := mem_of_find?_reverse hfound
  rw [hfound, List.inj_on_of_nodup_map hnodup hmem hentry hkey]

theorem getElem?_copyMap (w : Worker) (i : InstrRef) :
    w.copyMap[i]? = (w.copies.reverse.find? fun pair => pair.1 = i).map Prod.snd := by
  refine (getElem?_foldl_insert Prod.fst Prod.snd w.copies ∅ i).trans ?_
  simp

theorem getElem?_sourceMap (w : Worker) (c : InstrRef) :
    w.sourceMap[c]? = (w.copies.reverse.find? fun pair => pair.2 = c).map Prod.fst := by
  refine (getElem?_foldl_insert Prod.snd Prod.fst w.copies ∅ c).trans ?_
  simp

theorem mem_copyMap_iff : i ∈ w.copyMap ↔ i ∈ w.copies.map Prod.fst := by
  rw [Std.TreeMap.mem_iff_isSome_getElem?, getElem?_copyMap]
  simp

theorem mem_sourceMap_iff : c ∈ w.sourceMap ↔ c ∈ w.copies.map Prod.snd := by
  rw [Std.TreeMap.mem_iff_isSome_getElem?, getElem?_sourceMap]
  simp

theorem mem_copies_of_copyMap (h : w.copyMap[i]? = some c) : (i, c) ∈ w.copies := by
  rw [getElem?_copyMap] at h
  obtain ⟨pair, hfind, rfl⟩ := Option.map_eq_some_iff.1 h
  obtain ⟨hpair, rfl⟩ := mem_of_find?_reverse hfind
  exact hpair

theorem mem_copies_of_sourceMap (h : w.sourceMap[c]? = some i) : (i, c) ∈ w.copies := by
  rw [getElem?_sourceMap] at h
  obtain ⟨pair, hfind, rfl⟩ := Option.map_eq_some_iff.1 h
  obtain ⟨hpair, rfl⟩ := mem_of_find?_reverse hfind
  exact hpair

theorem copyMap_of_mem_copies (hnodup : (w.copies.map Prod.fst).Nodup) (h : (i, c) ∈ w.copies) :
    w.copyMap[i]? = some c := by
  rw [getElem?_copyMap, find?_reverse_of_nodup hnodup h]
  rfl

theorem sourceMap_of_mem_copies (hnodup : (w.copies.map Prod.snd).Nodup) (h : (i, c) ∈ w.copies) :
    w.sourceMap[c]? = some i := by
  rw [getElem?_sourceMap, find?_reverse_of_nodup hnodup h]
  rfl

namespace Body

variable {s : Setting} {o q : Program} {blocks : List BlockRef}
  {here : BlockRef → List (InstrRef × InstrRef)} {σ : Renaming} {f : FuncRef} {func : Func}

theorem mem_copyMap_iff_exists (h : Body s o blocks here σ w q)
    (hblocks : ∀ b ∈ blocks, (o.block? b).isSome) :
    i ∈ w.copyMap ↔ ∃ b ∈ blocks, o.Lists b i ∧ takes s o w.thread i := by
  have hhere : ∀ b ∈ blocks, i ∈ (here b).map Prod.fst ↔ o.Lists b i ∧ takes s o w.thread i := by
    intro b hb
    obtain ⟨block, hblock⟩ := Option.isSome_iff_exists.1 (hblocks b hb)
    rw [h.sources b hb block hblock, List.mem_filter]
    refine and_congr_left fun _ => ⟨fun hi => ⟨block, hblock, hi⟩, ?_⟩
    rintro ⟨block', hblock', hi⟩
    exact Option.some.inj (hblock.symm.trans hblock') ▸ hi
  rw [mem_copyMap_iff, h.copies_eq, List.map_flatMap, List.mem_flatMap]
  exact exists_congr fun b => and_congr_right fun hb => hhere b hb

/-- A terminator is copied where its block is, and any other instruction where it is run. -/
theorem mem_copyMap_iff_of_lists (h : Body s o blocks here σ w q) (hwell : o.WellFormed f func)
    (hloop : ∀ b ∈ s.loop, b ∈ func.blocks) {b : BlockRef} (hb : b ∈ s.loop) (hi : o.Lists b i)
    {instr : Instr} (hinstr : o.instr? i = some instr) :
    i ∈ w.copyMap ↔ if instr.op.isTerminator then Concerned o s.loop s.deps s.plan w.thread b
      else s.plan.threadOf? i = some w.thread := by
  have hblocks : ∀ b ∈ blocks, b ∈ func.blocks := fun b hb =>
    hloop b ((h.mem_blocks_iff b).1 hb).1
  rw [h.mem_copyMap_iff_exists fun b hb => hwell.block_of_mem (hblocks b hb)]
  constructor
  · rintro ⟨b', hb', hi', htakes⟩
    obtain rfl := hwell.listedOnce b' (hblocks b' hb') b (hloop b hb) i hi' hi
    rw [takes, hinstr] at htakes
    split
    · exact (h.mem_blocks_iff b').1 hb'
    · next hterm => simpa [hterm] using htakes
  · intro howner
    split at howner
    · next hterm => exact ⟨b, (h.mem_blocks_iff b).2 howner, hi, by simp [takes, hinstr, hterm]⟩
    · obtain ⟨instr', hinstr'⟩ := hwell.instr_of_lists (hloop b hb) hi
      refine ⟨b, (h.mem_blocks_iff b).2 ⟨hb, i, instr', hinstr'.lookup, hinstr'.placed, .inl ?_⟩,
        hi, by simp [takes, hinstr, howner]⟩
      exact Plan.mem_membersOf_of_threadOf? howner

theorem nodup_blocks (h : Body s o blocks here σ w q) : blocks.Nodup := by
  obtain ⟨func, -, harranged⟩ := h.layout
  exact .of_map _ harranged.nodup_copies

/-- No instruction is copied twice, if no block lists one twice. -/
theorem nodup_sources (h : Body s o blocks here σ w q) (hwell : o.WellFormed f func)
    (hloop : ∀ b ∈ s.loop, b ∈ func.blocks)
    (hlists : ∀ b ∈ s.loop, ∀ block, o.block? b = some block → block.instrs.Nodup) :
    (w.copies.map Prod.fst).Nodup := by
  have hmem : ∀ b ∈ blocks, b ∈ s.loop := fun b hb => ((h.mem_blocks_iff b).1 hb).1
  have hhere : ∀ b ∈ blocks, ∃ block, o.block? b = some block ∧
      (here b).map Prod.fst = block.instrs.filter (takes s o w.thread) := by
    intro b hb
    obtain ⟨block, hblock⟩ := Option.isSome_iff_exists.1 (hwell.block_of_mem (hloop b (hmem b hb)))
    exact ⟨block, hblock, h.sources b hb block hblock⟩
  rw [h.copies_eq, List.map_flatMap, List.nodup_flatMap]
  constructor
  · intro b hb
    obtain ⟨block, hblock, heq⟩ := hhere b hb
    rw [heq]
    exact (hlists b (hmem b hb) block hblock).filter _
  · refine h.nodup_blocks.pairwise_of_forall_ne ?_
    intro b hb c hc hne i hi hi'
    have hlisted : ∀ b ∈ blocks, i ∈ (here b).map Prod.fst → o.Lists b i := by
      intro b hb hi
      obtain ⟨block, hblock, heq⟩ := hhere b hb
      exact ⟨block, hblock, List.mem_of_mem_filter (heq ▸ hi)⟩
    exact hne (hwell.listedOnce b (hloop b (hmem b hb)) c (hloop c (hmem c hc)) i
      (hlisted b hb hi) (hlisted c hc hi'))

end Body

end Worker

/-- The workers of a split divide the instructions of the loop among them. -/
structure Split.Divides (split : Split) (p : Program) (loop : Loop) (deps : Dependences)
    (plan : Plan) : Prop where
  /-- There is one worker for each thread of the plan. -/
  threads_eq : split.workers.map Worker.thread = List.range plan.threads
  thread_lt : ∀ i thread, plan.threadOf? i = some thread → thread < plan.threads
  /-- An instruction goes to the worker of its thread, and a terminator to every worker that its
  block concerns. -/
  mem_copyMap_iff : ∀ w ∈ split.workers, ∀ b ∈ loop, ∀ i instr, p.Lists b i →
    p.instr? i = some instr → (i ∈ w.copyMap ↔
      if instr.op.isTerminator then Worker.Concerned p loop deps plan w.thread b
      else plan.threadOf? i = some w.thread)
  /-- Nothing else is copied. -/
  lists_of_mem_copyMap : ∀ w ∈ split.workers, ∀ i ∈ w.copyMap, ∃ b ∈ loop, p.Lists b i
  copyMap_inj : ∀ w ∈ split.workers, ∀ i j c : InstrRef, w.copyMap[i]? = some c →
    w.copyMap[j]? = some c → i = j
  source_of_copy : ∀ w ∈ split.workers, ∀ i c : InstrRef, w.copyMap[i]? = some c →
    w.sourceMap[c]? = some i
  copy_of_source : (∀ b ∈ loop, ∀ block, p.block? b = some block → block.instrs.Nodup) →
    ∀ w ∈ split.workers, ∀ i c : InstrRef, w.sourceMap[c]? = some i → w.copyMap[i]? = some c
  copies_new : ∀ w ∈ split.workers, ∀ c ∈ w.sourceMap, p.instr? c = none
  copies_apart : ∀ w ∈ split.workers, ∀ w' ∈ split.workers, w.thread ≠ w'.thread →
    ∀ c ∈ w.sourceMap, c ∉ w'.sourceMap
  ownerOf?_iff : ∀ c thread, split.ownerOf? c = some thread ↔
    ∃ w ∈ split.workers, w.thread = thread ∧ c ∈ w.sourceMap

/-- The first worker that has a copy is the only one. -/
theorem Split.ownerOf?_eq_some_iff {split : Split} {c : InstrRef} {thread : Nat}
    (hapart : ∀ w ∈ split.workers, ∀ w' ∈ split.workers, w.thread ≠ w'.thread →
      ∀ c ∈ w.sourceMap, c ∉ w'.sourceMap) :
    split.ownerOf? c = some thread ↔
      ∃ w ∈ split.workers, w.thread = thread ∧ c ∈ w.sourceMap := by
  rw [Split.ownerOf?, Option.map_eq_some_iff]
  constructor
  · rintro ⟨w, hfind, hthread⟩
    have hc := List.find?_some hfind
    exact ⟨w, List.mem_of_find?_eq_some hfind, hthread, Std.TreeMap.contains_iff_mem.1 hc⟩
  · rintro ⟨w, hw, rfl, hc⟩
    have hsome : (split.workers.find? fun w => w.sourceMap.contains c).isSome := by
      rw [List.find?_isSome]
      exact ⟨w, hw, Std.TreeMap.contains_iff_mem.2 hc⟩
    obtain ⟨w', hfind⟩ := Option.isSome_iff_exists.1 hsome
    have hc' := List.find?_some hfind
    refine ⟨w', hfind, ?_⟩
    by_contra hne
    exact hapart w' (List.mem_of_find?_eq_some hfind) w hw hne c
      (Std.TreeMap.contains_iff_mem.1 hc') hc

namespace Splitter

namespace SplitInto

variable {s : Setting} {p q : Program} {func : Func} {workers : List Worker} {w w' : Worker}

theorem sourceMap_of_mem_copies (h : SplitInto s p func workers q) (hw : w ∈ workers)
    {i c : InstrRef} (hcopy : (i, c) ∈ w.copies) : w.sourceMap[c]? = some i := by
  obtain ⟨blocks, here, σ, hbody⟩ := h.exists_body hw
  exact Worker.sourceMap_of_mem_copies hbody.copies_nodup hcopy

theorem sourceMap_apart (h : SplitInto s p func workers q) (hw : w ∈ workers) (hw' : w' ∈ workers)
    (hne : w.thread ≠ w'.thread) : ∀ c ∈ w.sourceMap, c ∉ w'.sourceMap := by
  intro c hc hc'
  have hsymm : Std.Symm fun w w' : Worker =>
      (w.copies.map Prod.snd).Disjoint (w'.copies.map Prod.snd) := ⟨fun _ _ => .symm⟩
  have hdisjoint := h.copies_apart.forall hw hw' fun heq => hne (congrArg Worker.thread heq)
  exact hdisjoint (Worker.mem_sourceMap_iff.1 hc) (Worker.mem_sourceMap_iff.1 hc')

end SplitInto

/-- Every instruction of the loop goes to the worker of its thread and to no other one, and
terminators go where their blocks go. -/
theorem split_divides_instrs {splitter splitter' : Splitter} {p q : Program} {f : FuncRef}
    {func : Func} {loop : Loop} {deps : Dependences} {plan : Plan} {result : Split}
    (hsplit : splitter.split p f loop deps plan = (.ok result, splitter', q))
    (hfunc : p.func? f = some func) (hcheck : p.check f = .ok ()) (hmade : plan.Made)
    (hnodup : loop.blocks.Nodup) (hloop : ∀ b ∈ loop, b ∈ func.blocks) :
    result.Divides p loop deps plan := by
  obtain ⟨func', hwell⟩ := Program.wellFormed_of_check hcheck
  obtain rfl := Option.some.inj (hfunc.symm.trans hwell.lookup)
  obtain ⟨s, rfl, rfl, rfl, rfl, hinto⟩ := splitInto_of_split hwell hnodup hloop hsplit
  constructor
  · exact hinto.map_thread
  · exact fun i thread => hmade.threadOf?_lt
  · intro w hw b hb i instr hi hinstr
    obtain ⟨blocks, here, σ, hbody⟩ := hinto.exists_body hw
    exact hbody.mem_copyMap_iff_of_lists hwell hloop hb hi hinstr
  · intro w hw i hi
    obtain ⟨blocks, here, σ, hbody⟩ := hinto.exists_body hw
    have hmem : ∀ b ∈ blocks, b ∈ s.loop := fun b hb => ((hbody.mem_blocks_iff b).1 hb).1
    obtain ⟨b, hb, hlists, -⟩ := (hbody.mem_copyMap_iff_exists fun b hb =>
      hwell.block_of_mem (hloop b (hmem b hb))).1 hi
    exact ⟨b, hmem b hb, hlists⟩
  · intro w hw i j c hi hj
    have hi' := hinto.sourceMap_of_mem_copies hw (Worker.mem_copies_of_copyMap hi)
    have hj' := hinto.sourceMap_of_mem_copies hw (Worker.mem_copies_of_copyMap hj)
    exact Option.some.inj (hi'.symm.trans hj')
  · exact fun w hw i c hi => hinto.sourceMap_of_mem_copies hw (Worker.mem_copies_of_copyMap hi)
  · intro hlists w hw i c hc
    obtain ⟨blocks, here, σ, hbody⟩ := hinto.exists_body hw
    exact Worker.copyMap_of_mem_copies (hbody.nodup_sources hwell hloop hlists)
      (Worker.mem_copies_of_sourceMap hc)
  · intro w hw c hc
    have hle := hinto.copies_new w hw c (Worker.mem_sourceMap_iff.1 hc)
    exact Array.getElem?_eq_none hle
  · exact fun w hw w' hw' => hinto.sourceMap_apart hw hw'
  · exact fun c thread => Split.ownerOf?_eq_some_iff fun w hw w' hw' =>
      hinto.sourceMap_apart hw hw'

end Splitter

namespace Counting

theorem made : setting.plan.Made := by
  have hfirst : (Plan.empty 2).addScc 0 [⟨1⟩, ⟨2⟩, ⟨3⟩, ⟨6⟩, ⟨7⟩] =
      .ok ⟨2, [⟨0, [⟨1⟩, ⟨2⟩, ⟨3⟩, ⟨6⟩, ⟨7⟩]⟩]⟩ := by decide
  have hsecond : Plan.addScc ⟨2, [⟨0, [⟨1⟩, ⟨2⟩, ⟨3⟩, ⟨6⟩, ⟨7⟩]⟩]⟩ 1 [⟨4⟩, ⟨5⟩] =
      .ok setting.plan := by decide
  exact .addScc (.addScc (.empty 2) hfirst) hsecond

/-- The program with a body that squares twice by the same instruction. -/
def repeating : Program where
  __ := program
  blocks := program.blocks.setIfInBounds 2 ⟨"body", ⟨0⟩, [⟨4⟩, ⟨4⟩, ⟨5⟩]⟩

end Counting

namespace Splitter

theorem split_divides_instrs_counting :
    ∃ result splitter' q, (ofConfig Config.standard).split Counting.program ⟨0⟩ Counting.loop
        Counting.setting.deps Counting.setting.plan = (.ok result, splitter', q) ∧
      result.Divides Counting.program Counting.loop Counting.setting.deps
        Counting.setting.plan ∧
      ∀ w ∈ result.workers, ∀ i c : InstrRef,
        w.sourceMap[c]? = some i ↔ w.copyMap[i]? = some c := by
  have hok : ((ofConfig Config.standard).split Counting.program ⟨0⟩ Counting.loop
      Counting.setting.deps Counting.setting.plan).1.isOk := by decide +kernel
  obtain ⟨result, splitter', q, hsplit⟩ := exists_of_isOk hok
  have hfunc : Counting.program.func? ⟨0⟩ = some Counting.func := rfl
  have hdivides := split_divides_instrs hsplit hfunc (by decide) Counting.made (by decide)
    (by decide)
  have hlists : ∀ b ∈ Counting.loop, ∀ block ∈ Counting.program.block? b, block.instrs.Nodup := by
    decide
  exact ⟨result, splitter', q, hsplit, hdivides, fun w hw i c =>
    ⟨hdivides.copy_of_source hlists w hw i c, hdivides.source_of_copy w hw i c⟩⟩

/-- The function passes the check, and its body lists an instruction twice. The second worker
has two copies of it and finds one of them only. -/
theorem split_repeats_copy_repeating :
    Counting.repeating.check ⟨0⟩ = .ok () ∧ Counting.setting.plan.Made ∧
      Counting.loop.blocks.Nodup ∧ (∀ b ∈ Counting.loop, b ∈ Counting.func.blocks) ∧
      Counting.repeating.func? ⟨0⟩ = some Counting.func ∧
      ∃ result splitter' q, (ofConfig Config.standard).split Counting.repeating ⟨0⟩ Counting.loop
          Counting.setting.deps Counting.setting.plan = (.ok result, splitter', q) ∧
        ∃ w ∈ result.workers, ¬ ∀ i c : InstrRef,
          w.sourceMap[c]? = some i ↔ w.copyMap[i]? = some c := by
  obtain ⟨result, splitter', q, hsplit, hrun⟩ := exists_of_any (ofConfig Config.standard)
    Counting.repeating ⟨0⟩ Counting.loop Counting.setting.deps Counting.setting.plan
    (fun result _ => ∃ w ∈ result.workers, ∃ i ∈ w.sourceMap[(⟨37⟩ : InstrRef)]?,
      w.copyMap[i]? ≠ some ⟨37⟩) (by decide +kernel)
  obtain ⟨w, hw, i, hi, hne⟩ := of_decide_eq_true hrun
  refine ⟨by decide, Counting.made, by decide, by decide, rfl, result, splitter', q, hsplit, w, hw,
    fun h => hne ?_⟩
  exact (h i ⟨37⟩).1 hi

end Splitter

end Decouple
