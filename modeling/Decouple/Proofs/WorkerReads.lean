import Decouple.Proofs.SplitForm

/-!
# What the workers read

A worker is closed up to what it takes from other threads (`Worker.MayRead`): it reads constants,
its argument, instructions of its own, and of the loop only instructions that its thread does not
run.

In the entry and in the exit of a worker this is a matter of the code written there. A copy reads
what its original reads under new names. Everything that is not defined in the loop is a live-in,
which the entry loads, and every instruction of the thread has a copy in the worker. So an operand
that keeps its name is a constant or an instruction of the loop that the thread does not run.

The functions of the workers have no instruction in common, since the copies have none
(`Splitter.SplitInto.func_ne`). Hence no worker reads an instruction of another worker.
-/

namespace Decouple

namespace Program

variable {p : Program} {f g : FuncRef} {func func' : Func} {i : InstrRef}

def Contains (p : Program) (f : FuncRef) (i : InstrRef) : Prop :=
  ∃ func, p.func? f = some func ∧ ∃ b ∈ func.blocks, p.Lists b i

theorem Sound.exists_placed (h : p.Sound f func) (hi : p.Contains f i) :
    ∃ instr b block, p.instr? i = some instr ∧ instr.block = some b ∧ p.block? b = some block ∧
      block.func = f := by
  obtain ⟨func', hfunc', b, hb, block', hblock', hmem⟩ := hi
  obtain rfl := Option.some.inj (h.lookup.symm.trans hfunc')
  obtain ⟨block, hblock⟩ := h.blocks b hb
  obtain rfl := Option.some.inj (hblock.lookup.symm.trans hblock')
  obtain ⟨instr, hinstr⟩ := hblock.instrs i hmem
  exact ⟨instr, b, block, hinstr.lookup, hinstr.placed, hblock.lookup, hblock.owner⟩

/-- Sound functions have no instruction in common. -/
theorem Sound.eq_of_contains (hf : p.Sound f func) (hg : p.Sound g func') (hi : p.Contains f i)
    (hi' : p.Contains g i) : f = g := by
  obtain ⟨instr, b, block, hinstr, hb, hblock, rfl⟩ := hf.exists_placed hi
  obtain ⟨instr', b', block', hinstr', hb', hblock', rfl⟩ := hg.exists_placed hi'
  obtain rfl := Option.some.inj (hinstr.symm.trans hinstr')
  obtain rfl := Option.some.inj (hb.symm.trans hb')
  obtain rfl := Option.some.inj (hblock.symm.trans hblock')
  rfl

end Program

namespace Worker

/-- What a worker in the program `q` may read, if it is written for a loop of the program `p`. -/
inductive MayRead (w : Worker) (p : Program) (loop : Loop) (plan : Plan) (q : Program) :
    Value → Prop where
  | int (n : Int) (ty : Ty) : MayRead w p loop plan q (.int n ty)
  | null : MayRead w p loop plan q .null
  | func (f : FuncRef) : MayRead w p loop plan q (.func f)
  | arg : MayRead w p loop plan q (.param w.func 0)
  | own {i : InstrRef} (hi : q.Contains w.func i) : MayRead w p loop plan q (.instr i)
  | other {b : BlockRef} {i : InstrRef} (hb : b ∈ loop) (hi : p.Lists b i)
      (howner : plan.threadOf? i ≠ some w.thread) : MayRead w p loop plan q (.instr i)

theorem Framed.getLast?_eq {blocks layout : List BlockRef} {w : Worker}
    (h : Framed blocks w layout) : layout.getLast? = some w.exit := by
  obtain ⟨copies, rfl, -⟩ := h.layout_eq
  rw [← List.cons_append, List.getLast?_concat]

variable {s s' : Setting} {p q : Program} {f : FuncRef} {func : Func} {blocks : List BlockRef}
  {here : BlockRef → List (InstrRef × InstrRef)} {σ : Renaming} {w : Worker} {i : InstrRef}
  {exchange : Exchange} {hook? : Option FuncRef} {types : List Ty} {fields : List (Value × Nat)}
  {start start' : Nat}

namespace Runs

variable {b : BlockRef} {code : List (Op × Ty)} {last : InstrRef} {final : Op}
  {good : Value → Prop}

theorem lists_of_mem (h : Runs q b start code last final) (hi : i ∈ newRefs start code.length) :
    q.Lists b i := by
  obtain ⟨block, hblock, hlist⟩ := h.listed
  exact ⟨block, hblock, hlist ▸ List.mem_append_left _ hi⟩

theorem forall_operands (h : Runs q b start code last final) (hcode : StraightCode good code)
    (hfinal : ∀ v ∈ final.operands, good v) (hi : q.Lists b i) :
    ∃ instr, q.instr? i = some instr ∧ ∀ v ∈ instr.op.operands, good v := by
  rcases h.mem_of_lists hi with hmem | rfl
  · obtain ⟨op, ty, name, hop, hinstr⟩ := h.exists_of_mem hmem
    exact ⟨_, hinstr, (hcode op ty hop).2.2⟩
  · obtain ⟨name, hlast⟩ := h.final
    exact ⟨_, hlast, hfinal⟩

end Runs

namespace Body

theorem contains_of_lists_entry (h : Body s p blocks here σ w q) (hi : q.Lists w.entry i) :
    q.Contains w.func i := by
  obtain ⟨wfunc, hwfunc, harranged⟩ := h.layout
  exact ⟨wfunc, hwfunc, w.entry, List.mem_of_head? harranged.head?_eq, hi⟩

theorem contains_of_lists_exit (h : Body s p blocks here σ w q) (hi : q.Lists w.exit i) :
    q.Contains w.func i := by
  obtain ⟨wfunc, hwfunc, harranged⟩ := h.layout
  exact ⟨wfunc, hwfunc, w.exit, harranged.exit_mem, hi⟩

theorem contains_copy (h : Body s p blocks here σ w q) {pair : InstrRef × InstrRef}
    (hpair : pair ∈ w.copies) : q.Contains w.func pair.2 := by
  rw [h.copies_eq] at hpair
  obtain ⟨b, hb, hpair⟩ := List.mem_flatMap.1 hpair
  obtain ⟨wfunc, hwfunc, harranged⟩ := h.layout
  obtain ⟨copy, hcopy, hmem, -⟩ := harranged.exists_copy hb
  obtain ⟨block, hblock, hlist⟩ := h.listed b hb copy hcopy
  exact ⟨wfunc, hwfunc, copy, hmem, block, hblock, hlist ▸ List.mem_map_of_mem hpair⟩

/-- What a worker contains is in its entry, in its exit or a copy. -/
theorem cases_of_contains (h : Body s p blocks here σ w q) (hi : q.Contains w.func i) :
    q.Lists w.entry i ∨ q.Lists w.exit i ∨ ∃ pair ∈ w.copies, pair.2 = i := by
  obtain ⟨wfunc, hwfunc, c, hc, hlists⟩ := hi
  obtain ⟨wfunc', hwfunc', harranged⟩ := h.layout
  obtain rfl := Option.some.inj (hwfunc.symm.trans hwfunc')
  rcases harranged.cases hc with rfl | rfl | ⟨b, hb, hcopy⟩
  · exact .inl hlists
  · exact .inr (.inl hlists)
  · obtain ⟨block, hblock, hlist⟩ := h.listed b hb c hcopy
    obtain ⟨block', hblock', hmem⟩ := hlists
    obtain rfl := Option.some.inj (hblock.symm.trans hblock')
    rw [hlist] at hmem
    obtain ⟨pair, hpair, rfl⟩ := List.mem_map.1 hmem
    exact .inr (.inr ⟨pair, h.copies_eq ▸ List.mem_flatMap.2 ⟨b, hb, hpair⟩, rfl⟩)

/-- A worker contains new instructions only. -/
theorem le_of_contains (h : Body s p blocks here σ w q) (hi : q.Contains w.func i) :
    p.instrs.size ≤ i.index := by
  obtain ⟨wfunc, hwfunc, b, hb, hlists⟩ := hi
  exact h.fresh wfunc hwfunc b hb i hlists

/-- Every instruction of the thread has a copy, a terminator as well. -/
theorem mem_copyMap_of_threadOf? (h : Body s p blocks here σ w q) (hwell : p.WellFormed f func)
    (hloop : ∀ b ∈ s.loop, b ∈ func.blocks) {b : BlockRef} (hb : b ∈ s.loop) (hi : p.Lists b i)
    (howner : s.plan.threadOf? i = some w.thread) : i ∈ w.copyMap := by
  obtain ⟨instr, hinstr⟩ := hwell.instr_of_lists (hloop b hb) hi
  rw [h.mem_copyMap_iff_of_lists hwell hloop hb hi hinstr.lookup]
  split
  · exact ⟨hb, i, instr, hinstr.lookup, hinstr.placed,
      .inl (Plan.mem_membersOf_of_threadOf? howner)⟩
  · exact howner

end Body

namespace Linked

theorem contains_of_mem_entry (h : Linked s' exchange hook? types fields start start' w q)
    (hbody : Body s p blocks here σ w q)
    (hi : i ∈ newRefs start (entryCode exchange hook? w.func start types).length) :
    q.Contains w.func i := by
  obtain ⟨header, last, -, hruns⟩ := h.entry
  exact hbody.contains_of_lists_entry (hruns.lists_of_mem hi)

/-- A new name is that of an instruction of the worker. -/
theorem mayRead_of_substitution (h : Linked s' exchange hook? types fields start start' w q)
    (hbody : Body s p blocks here σ w q) {v u : Value}
    (hu : (w.substitution s'.live.liveIn (argPtrAt hook? start))[v]? = some u) :
    w.MayRead p s.loop s.plan q u := by
  rcases h.cases_of_substitution hu with ⟨-, i, hi, rfl⟩ | ⟨-, pair, hpair, -, rfl⟩
  · exact .own (h.contains_of_mem_entry hbody hi)
  · exact .own (hbody.contains_copy hpair)

theorem mayRead_entry (h : Linked s' exchange hook? types fields start start' w q)
    (hbody : Body s p blocks here σ w q) (hi : q.Lists w.entry i) :
    ∃ instr, q.instr? i = some instr ∧
      ∀ v ∈ instr.op.operands, w.MayRead p s.loop s.plan q v := by
  obtain ⟨header, last, -, hruns⟩ := h.entry
  refine hruns.forall_operands (.entryCode .func .arg fun i hi => ?_) (by simp [Op.operands]) hi
  exact .own (h.contains_of_mem_entry hbody hi)

theorem mayRead_exit (h : Linked s' exchange hook? types fields start start' w q)
    (hbody : Body s p blocks here σ w q) (hi : q.Lists w.exit i) :
    ∃ instr, q.instr? i = some instr ∧
      ∀ v ∈ instr.op.operands, w.MayRead p s.loop s.plan q v := by
  obtain ⟨last, hruns⟩ := h.exit
  refine hruns.forall_operands (.exitCode ?_ (fun field hfield => ?_) fun i hi => ?_) ?_ hi
  · refine .own (h.contains_of_mem_entry hbody ?_)
    rw [mem_newRefs_iff, length_entryCode, argPtrAt]
    simp only
    omega
  · obtain ⟨out, -, hvalue, -⟩ := exists_of_forall₂_of_mem h.stored hfield
    exact h.mayRead_of_substitution hbody hvalue
  · exact .own (hbody.contains_of_lists_exit (hruns.lists_of_mem hi))
  · simpa [Op.operands] using MayRead.null

/-- An operand of the loop may be read under its new name. -/
theorem mayRead_rename (h : Linked s' exchange hook? types fields start start' w q)
    (hbody : Body s p blocks here σ w q) (hlive : s'.live.Describes p s.loop)
    (hwell : p.WellFormed f func) (hloop : ∀ b ∈ s.loop, b ∈ func.blocks)
    {reader : InstrRef} {instr : Instr} (hreader : reader ∈ p.listedIn s.loop.blocks)
    (hinstr : p.instr? reader = some instr) {v : Value} (hv : v ∈ instr.op.operands) :
    w.MayRead p s.loop s.plan q
      ((w.substitution s'.live.liveIn (argPtrAt hook? start)).rename v) := by
  rw [Renaming.rename]
  cases hu : (w.substitution s'.live.liveIn (argPtrAt hook? start))[v]? with
  | some u => exact h.mayRead_of_substitution hbody hu
  | none =>
      -- live-ins have a new name, so that the value is a constant or defined in the loop
      have hin : v ∉ s'.live.liveIn := by
        intro hin
        obtain ⟨k, -, hlookup⟩ := loadRenaming_of_mem hin
        cases hu.symm.trans hlookup
      have hforeign : v.isVariable → ¬ s'.live.Foreign v := fun hvariable hforeign =>
        hin ((hlive.mem_liveIn_iff v).2 ⟨hvariable, hforeign, reader, hreader, instr, hinstr, hv⟩)
      cases v with
      | int n ty => exact .int n ty
      | null => exact .null
      | func g => exact .func g
      | param owner index => exact absurd (fun _ hparam => by cases hparam) (hforeign rfl)
      | instr e =>
          have hdefined : e ∈ s'.live.defined := by
            by_contra hnot
            exact hforeign rfl fun i heq => Value.instr.inj heq ▸ hnot
          obtain ⟨hlisted, -⟩ := (hlive.mem_defined_iff e).1 hdefined
          obtain ⟨b, hb, hlists⟩ := Program.mem_listedIn_iff.1 hlisted
          refine .other hb hlists fun howner => ?_
          -- an instruction of the thread has a copy, and would have a new name
          have hcopied := hbody.mem_copyMap_of_threadOf? hwell hloop hb hlists howner
          rw [substitution, loadRenaming_of_not_mem hin, getElem?_copyRenaming_instr,
            Option.map_eq_none_iff] at hu
          rw [Std.TreeMap.mem_iff_isSome_getElem?, hu] at hcopied
          cases hcopied

theorem mayRead_copy (h : Linked s' exchange hook? types fields start start' w q)
    (hbody : Body s p blocks here σ w q) (hlive : s'.live.Describes p s.loop)
    (hwell : p.WellFormed f func) (hloop : ∀ b ∈ s.loop, b ∈ func.blocks)
    (hshares : Shares p q s.loop) {pair : InstrRef × InstrRef} (hpair : pair ∈ w.copies) :
    ∃ instr, q.instr? pair.2 = some instr ∧
      ∀ v ∈ instr.op.operands, w.MayRead p s.loop s.plan q v := by
  obtain ⟨source, copy, hsource, hcopy, hoperands⟩ := h.copies pair hpair
  obtain ⟨b, hb, hlists, -⟩ :=
    (hbody.mem_copyMap_iff_exists fun b hb => hwell.block_of_mem (hloop b (hbody.mem_loop hb))).1
      (mem_copyMap_iff.2 (List.mem_map_of_mem hpair))
  have hloopb := hbody.mem_loop hb
  rw [(hshares.instr? b hloopb pair.1 hlists).2] at hsource
  refine ⟨copy, hcopy, fun v hv => ?_⟩
  rw [hoperands] at hv
  obtain ⟨operand, hoperand, rfl⟩ := List.mem_map.1 hv
  exact h.mayRead_rename hbody hlive hwell hloop
    (Program.mem_listedIn_iff.2 ⟨b, hloopb, hlists⟩) hsource hoperand

end Linked

end Worker

/-- The value is none that the worker `w` has to do without: no parameter of the function `f`, of
the old instructions only one of the loop that the thread does not run, and no instruction of
another worker. -/
structure Split.ReadsApart (split : Split) (p : Program) (f : FuncRef) (loop : Loop) (plan : Plan)
    (q : Program) (w : Worker) (v : Value) : Prop where
  not_param : ∀ index, v ≠ .param f index
  of_old : ∀ i, v = .instr i → (p.instr? i).isSome →
    (∃ b ∈ loop, p.Lists b i) ∧ plan.threadOf? i ≠ some w.thread
  apart : ∀ i, v = .instr i → ∀ w' ∈ split.workers, w'.thread ≠ w.thread → ¬ q.Contains w'.func i

namespace Splitter

variable {s : Setting} {p q : Program} {f : FuncRef} {func : Func} {loop : Loop}
  {deps : Dependences} {plan : Plan} {splitter splitter' : Splitter} {result : Split}
  {workers : List Worker} {w w' : Worker}

/-- Workers of different threads have different functions: in a common one they would share the
copies of the header. -/
theorem SplitInto.func_ne (h : SplitInto s p func workers q)
    (hsound : ∀ w ∈ workers, ∃ wfunc, q.Sound w.func wfunc) (hw : w ∈ workers)
    (hw' : w' ∈ workers) (hne : w.thread ≠ w'.thread) : w.func ≠ w'.func := by
  intro heq
  obtain ⟨blocks, here, σ, hbody⟩ := h.exists_body hw
  obtain ⟨blocks', here', σ', hbody'⟩ := h.exists_body hw'
  obtain ⟨wfunc, hwfunc, harranged⟩ := hbody.layout
  obtain ⟨wfunc', hwfunc', harranged'⟩ := hbody'.layout
  obtain rfl := Option.some.inj (hwfunc.symm.trans (heq ▸ hwfunc'))
  obtain ⟨copy, hcopy, hmem, hentry, hexit⟩ := harranged.exists_copy hbody.header_mem
  -- the copy of the header is a copy for the other thread too, since the ends are the same
  have hsameEntry : w.entry = w'.entry :=
    Option.some.inj (harranged.head?_eq.symm.trans harranged'.head?_eq)
  have hsameExit : w.exit = w'.exit :=
    Option.some.inj (harranged.getLast?_eq.symm.trans harranged'.getLast?_eq)
  rcases harranged'.cases hmem with hc | hc | ⟨b, hb, hcopy'⟩
  · exact hentry (hc.trans hsameEntry.symm)
  · exact hexit (hc.trans hsameExit.symm)
  · obtain ⟨block, hblock, hlist⟩ := hbody.listed _ hbody.header_mem copy hcopy
    obtain ⟨block', hblock', hlist'⟩ := hbody'.listed b hb copy hcopy'
    obtain rfl := Option.some.inj (hblock.symm.trans hblock')
    obtain ⟨wfunc', hwsound⟩ := hsound w hw
    obtain rfl := Option.some.inj (hwfunc.symm.trans hwsound.lookup)
    obtain ⟨block', hblock'⟩ := hwsound.blocks copy hmem
    obtain rfl := Option.some.inj (hblock.symm.trans hblock'.lookup)
    obtain ⟨init, last, hinstrs, -⟩ := hblock'.terminated
    have hlast : last ∈ block.instrs := by simp [hinstrs]
    have hsource : last ∈ w.sourceMap := by
      rw [Worker.mem_sourceMap_iff, hbody.copies_eq, List.map_flatMap]
      exact List.mem_flatMap.2 ⟨_, hbody.header_mem, hlist ▸ hlast⟩
    have hsource' : last ∈ w'.sourceMap := by
      rw [Worker.mem_sourceMap_iff, hbody'.copies_eq, List.map_flatMap]
      exact List.mem_flatMap.2 ⟨b, hb, hlist' ▸ hlast⟩
    exact h.sourceMap_apart hw hw' hne last hsource hsource'

/-- Every instruction of a worker reads what the worker may read. -/
theorem mayRead_of_split (hwell : p.WellFormed f func) (hnodup : loop.blocks.Nodup)
    (hloop : ∀ b ∈ loop, b ∈ func.blocks)
    (h : splitter.split p f loop deps plan = (.ok result, splitter', q)) (hw : w ∈ result.workers)
    {i : InstrRef} (hi : q.Contains w.func i) :
    ∃ instr, q.instr? i = some instr ∧ ∀ v ∈ instr.op.operands, w.MayRead p loop plan q v := by
  obtain ⟨s, rfl, rfl, -, rfl, hinto⟩ := splitInto_of_split hwell hnodup hloop h
  obtain ⟨blocks, here, σ, hbody⟩ := hinto.exists_body hw
  obtain ⟨s', func', d, code, between, hfunc', hloop', -, hpasses⟩ := passes_of_split h
  obtain ⟨_, -, -, hook?, types, fields, start, start', hlinked⟩ :=
    exists_of_forall₂_of_mem hpasses.workers hw
  obtain rfl := Option.some.inj (hwell.lookup.symm.trans (hfunc' ▸ hpasses.installed.lookup))
  have hshares := (hpasses.installed.shares (hfunc'.symm ▸ hwell) (hloop'.symm ▸ hloop)).grow
    hpasses.larger.toGrows
  have hlive := hpasses.live
  rw [hloop'] at hshares hlive
  rcases hbody.cases_of_contains hi with hentry | hexit | ⟨pair, hpair, rfl⟩
  · exact hlinked.mayRead_entry hbody hentry
  · exact hlinked.mayRead_exit hbody hexit
  · exact hlinked.mayRead_copy hbody hlive hwell hloop hshares hpair

/-- The workers of a split are closed up to what one thread takes from another. -/
theorem split_closes_workers
    (h : splitter.split p f loop deps plan = (.ok result, splitter', q))
    (hfunc : p.func? f = some func) (hcheck : p.check f = .ok ()) (hnodup : loop.blocks.Nodup)
    (hloop : ∀ b ∈ loop, b ∈ func.blocks) :
    result.workers.map Worker.thread = List.range plan.threads ∧
      ∀ w ∈ result.workers, ∀ i, q.Contains w.func i → ∃ instr, q.instr? i = some instr ∧
        ∀ v ∈ instr.op.operands,
          w.MayRead p loop plan q v ∧ result.ReadsApart p f loop plan q w v := by
  obtain ⟨func', hwell⟩ := Program.wellFormed_of_check hcheck
  obtain rfl := Option.some.inj (hfunc.symm.trans hwell.lookup)
  obtain ⟨s, hsfunc, rfl, -, rfl, hinto⟩ := splitInto_of_split hwell hnodup hloop h
  have hsound := sound_of_split hwell hnodup hloop h
  have hnew : ∀ w ∈ result.workers, ∀ i, q.Contains w.func i → p.instr? i = none := by
    intro w hw i hi
    obtain ⟨blocks, here, σ, hbody⟩ := hinto.exists_body hw
    exact Array.getElem?_eq_none (hbody.le_of_contains hi)
  refine ⟨hinto.map_thread, fun w hw i hi => ?_⟩
  obtain ⟨instr, hinstr, hmay⟩ := mayRead_of_split hwell hnodup hloop h hw hi
  refine ⟨instr, hinstr, fun v hv => ⟨hmay v hv, ?_, ?_, ?_⟩⟩
  · rintro index rfl
    cases hmay _ hv with
    | arg =>
        obtain ⟨hle, -⟩ := isNewBody_of_split h w hw
        exact Nat.not_lt.2 hle (Array.getElem?_eq_some_iff.1 hfunc).1
  · rintro e rfl hold
    cases hmay _ hv with
    | own he =>
        rw [hnew w hw e he] at hold
        cases hold
    | other hb he howner => exact ⟨⟨_, hb, he⟩, howner⟩
  · rintro e rfl w' hw' hne hcontains
    cases hmay _ hv with
    | own he =>
        obtain ⟨wfunc, hwsound⟩ := hsound w hw
        obtain ⟨wfunc', hwsound'⟩ := hsound w' hw'
        exact hinto.func_ne hsound hw' hw hne (hwsound'.eq_of_contains hwsound hcontains he)
    | other hb he howner =>
        obtain ⟨source, hsource⟩ := hwell.instr_of_lists (hloop _ hb) he
        cases (hnew w' hw' e hcontains).symm.trans hsource.lookup

/-- Both workers of the loop that counts are closed, and each has instructions. -/
theorem split_closes_workers_counting :
    ∃ result splitter' q, (ofConfig Config.standard).split Counting.program ⟨0⟩ Counting.loop
        Counting.setting.deps Counting.setting.plan = (.ok result, splitter', q) ∧
      Counting.program.check ⟨0⟩ = .ok () ∧ result.workers.map Worker.thread = [0, 1] ∧
      (∀ w ∈ result.workers, w.copies ≠ []) ∧
      ∀ w ∈ result.workers, ∀ i, q.Contains w.func i → ∃ instr, q.instr? i = some instr ∧
        ∀ v ∈ instr.op.operands,
          w.MayRead Counting.program Counting.loop Counting.setting.plan q v ∧
          result.ReadsApart Counting.program ⟨0⟩ Counting.loop Counting.setting.plan q w v := by
  obtain ⟨result, splitter', q, hsplit, hrun⟩ := exists_of_any (ofConfig Config.standard)
    Counting.program ⟨0⟩ Counting.loop Counting.setting.deps Counting.setting.plan
    (fun result _ => ∀ w ∈ result.workers, w.copies ≠ []) (by decide +kernel)
  have hcheck : Counting.program.check ⟨0⟩ = .ok () := by decide +kernel
  have hfunc : Counting.program.func? ⟨0⟩ = some Counting.func := rfl
  obtain ⟨hthreads, hclosed⟩ :=
    split_closes_workers hsplit hfunc hcheck (by decide) (by decide)
  exact ⟨result, splitter', q, hsplit, hcheck, hthreads, of_decide_eq_true hrun, hclosed⟩

end Splitter

end Decouple
