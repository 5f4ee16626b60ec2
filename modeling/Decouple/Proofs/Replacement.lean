import Decouple.Proofs.BorderValues
import Decouple.Proofs.StrictForm

/-!
# Replacing a loop keeps strict form

The block in the place of a loop reads the live-ins, and what was read from the loop is
read from it. Three kinds of readers have to be looked at: the new block itself, readers of
live-outs behind the loop, and readers of values that merely pass by. For each of them a
path to the reader in the changed function is filled in to a path before the change; what
that path had to meet is outside the loop and met still, or it is inside, and then the path
meets the new block.
-/

namespace Decouple

namespace Op

theorem incoming_mapOperands (f : Value → Value) (op : Op) :
    (op.mapOperands f).incoming = op.incoming.map fun (value, pred) => (f value, pred) := by
  cases op <;> rfl

theorem isPhi_mapOperands (f : Value → Value) (op : Op) :
    (op.mapOperands f).isPhi = op.isPhi := by
  cases op <;> rfl

theorem isPhi_mapSuccessors (f : BlockRef → BlockRef) (op : Op) :
    (op.mapSuccessors f).isPhi = op.isPhi := by
  cases op <;> rfl

theorem isPhi_mapIncoming (f : BlockRef → BlockRef) (op : Op) :
    (op.mapIncoming f).isPhi = op.isPhi := by
  cases op <;> rfl

theorem mem_operands_of_mem_incoming {op : Op} {v : Value} {pred : BlockRef}
    (h : (v, pred) ∈ op.incoming) : v ∈ op.operands := by
  cases op with
  | phi incoming => exact List.mem_map.2 ⟨(v, pred), h, rfl⟩
  | _ => exact absurd h List.not_mem_nil

theorem getElem?_operands_of_incoming {op : Op} {k : Nat} {v : Value} {pred : BlockRef}
    (h : op.incoming[k]? = some (v, pred)) : op.operands[k]? = some v := by
  cases op with
  | phi incoming => rw [operands, List.getElem?_map, show incoming[k]? = _ from h, Option.map_some]
  | _ => simp [incoming] at h

theorem isPhi_of_mem_incoming {op : Op} {pair : Value × BlockRef} (h : pair ∈ op.incoming) :
    op.isPhi := by
  by_contra hphi
  rw [incoming_of_not_isPhi hphi] at h
  exact List.not_mem_nil h

theorem exists_mem_incoming {op : Op} (hphi : op.isPhi) {v : Value} (h : v ∈ op.operands) :
    ∃ pred, (v, pred) ∈ op.incoming := by
  cases op with
  | phi incoming =>
      obtain ⟨⟨v, pred⟩, hpair, rfl⟩ := List.mem_map.1 h
      exact ⟨pred, hpair⟩
  | _ => cases hphi

theorem mapIncoming_mapIncoming (f g : BlockRef → BlockRef) (op : Op) :
    (op.mapIncoming f).mapIncoming g = op.mapIncoming (g ∘ f) := by
  cases op with
  | phi incoming => simp [mapIncoming, Function.comp_def]
  | _ => rfl

end Op

namespace Dispatch

variable {s : Setting} {p q : Program} {func : Func} {d : Dispatch} {code : List (Op × Ty)}
  {a b entry : BlockRef} {layout : List BlockRef}

theorem rename_of_not_mem {workers : List FuncRef} {next : Nat} {v : Value}
    (hv : v ∉ s.live.liveOut.map .instr) : (outRenaming s workers next).rename v = v := by
  rw [Renaming.rename, outRenaming, loadRenaming_of_not_mem hv]
  simp

/-- A live-out is renamed to one of the loads of the new block. -/
theorem rename_of_mem {workers : List FuncRef} {next : Nat} {i : InstrRef}
    (hi : i ∈ s.live.liveOut) (exchange : Exchange) (init dispatch join : FuncRef)
    {types : List Ty} (htypes : p.valueTypes (s.live.liveOut.map .instr) = .ok types)
    (exit : BlockRef) :
    ∃ e, (outRenaming s workers next).rename (.instr i) = .instr e ∧
      e ∈ newRefs next (replacementCode exchange init dispatch join workers s.live.liveIn types
        exit next).length := by
  have hmem : Value.instr i ∈ s.live.liveOut.map Value.instr := List.mem_map_of_mem hi
  obtain ⟨k, hk, hlookup⟩ := loadRenaming_of_mem hmem
  have hlt : k < types.length := by
    obtain ⟨hlt, -⟩ := List.getElem?_eq_some_iff.1 hk
    rwa [← Program.length_of_valueTypes htypes] at hlt
  refine ⟨_, by rw [Renaming.rename, outRenaming, hlookup]; rfl, ?_⟩
  have hne : types ≠ [] := by
    rintro rfl
    exact absurd hlt (Nat.not_lt_zero k)
  obtain ⟨ty, rest, rfl⟩ := List.exists_cons_of_ne_nil hne
  rw [mem_newRefs_iff]
  simp only [replacementCode, unpackCode, List.length_append, List.length_cons, length_storeCode,
    length_runCode, length_loadCode, List.length_zipIdx, List.length_nil] at hlt ⊢
  omega

/-- What is put in for live-outs is new and so no live-out itself. -/
theorem rename_rename {workers : List FuncRef} {next : Nat}
    (hlt : ∀ i ∈ s.live.liveOut, i.index < next) (v : Value) :
    (outRenaming s workers next).rename ((outRenaming s workers next).rename v) =
      (outRenaming s workers next).rename v := by
  by_cases hv : v ∈ s.live.liveOut.map .instr
  · obtain ⟨k, -, hlookup⟩ := loadRenaming_of_mem hv
    rw [Renaming.rename, Renaming.rename, outRenaming, hlookup, Option.getD_some]
    refine congrArg (Option.getD · _) (loadRenaming_of_not_mem fun hmem => ?_)
    obtain ⟨i, hi, heq⟩ := List.mem_map.1 hmem
    obtain rfl := Value.instr.inj heq
    have hindex := hlt _ hi
    simp only at hindex
    omega
  · rw [rename_of_not_mem hv, rename_of_not_mem hv]

theorem turn_iterate_op (replacement : BlockRef) (n : Nat) (instr : Instr) :
    ((turn s replacement)^[n] instr).op.isPhi = instr.op.isPhi ∧
      ((turn s replacement)^[n] instr).op.operands = instr.op.operands ∧
      ((turn s replacement)^[n] instr).op.incoming = instr.op.incoming :=
  ⟨apply_iterate_of_invariant (fun instr => instr.op.isPhi)
      (fun instr => Op.isPhi_mapSuccessors _ instr.op) n instr,
    apply_iterate_of_invariant (fun instr => instr.op.operands)
      (fun instr => Op.operands_mapSuccessors _ instr.op) n instr,
    apply_iterate_of_invariant (fun instr => instr.op.incoming)
      (fun instr => Op.incoming_mapSuccessors _ instr.op) n instr⟩

theorem image_image (loop : Loop) (replacement b : BlockRef) :
    loop.image replacement (loop.image replacement b) = loop.image replacement b := by
  unfold Loop.image
  split_ifs <;> rfl

theorem reroute_iterate_op (replacement : BlockRef) (n : Nat) (instr : Instr) :
    ((reroute s replacement)^[n] instr).op.isPhi = instr.op.isPhi ∧
      ((reroute s replacement)^[n] instr).op.operands = instr.op.operands ∧
      ((reroute s replacement)^[n] instr).op.incoming = instr.op.incoming.map
        fun (v, pred) => (v, if n = 0 then pred else s.loop.image replacement pred) := by
  refine ⟨apply_iterate_of_invariant (fun instr => instr.op.isPhi)
      (fun instr => Op.isPhi_mapIncoming _ instr.op) n instr,
    apply_iterate_of_invariant (fun instr => instr.op.operands)
      (fun instr => Op.operands_mapIncoming _ instr.op) n instr, ?_⟩
  have htwice : ∀ instr, reroute s replacement (reroute s replacement instr) =
      reroute s replacement instr := by
    intro instr
    rw [reroute, reroute, Op.mapIncoming_mapIncoming]
    congr 2
    exact funext (image_image s.loop replacement)
  by_cases hn : n = 0
  · subst hn
    simp
  · rw [iterate_of_idempotent htwice hn, reroute, Op.incoming_mapIncoming]
    simp only [hn, if_false]

/-- What a block outside the loop lists is renamed, and no differently if it is listed again. -/
theorem Installed.adjusted_of_outside (h : Installed s p func d code q)
    (hlt : ∀ i ∈ s.live.liveOut, i.index < p.instrs.size) (hb : b ∈ func.blocks)
    (hout : b ∉ s.loop) {i : InstrRef} (hi : p.Lists b i) (instr : Instr) :
    adjusted s p func d i instr = renamed (outRenaming s d.workers p.instrs.size)
      ((reroute s d.block)^[(p.listedIn [s.loop.exit]).count i]
        ((turn s d.block)^[(outsideEnds s p d.block func.blocks).count i] instr)) := by
  obtain ⟨block, hblock, hmem⟩ := hi
  have houtside : isOutside s d.block b := h.isOutside_of_not_mem (by simp [hblock]) hout
  have hcount : (p.listedIn (func.blocks.filter (isOutside s d.block))).count i ≠ 0 := by
    rw [Ne, List.count_eq_zero, not_not]
    exact Program.mem_listedIn_iff.2
      ⟨b, List.mem_filter.2 ⟨hb, houtside⟩, block, hblock, hmem⟩
  have htwice : ∀ instr, renamed (outRenaming s d.workers p.instrs.size)
      (renamed (outRenaming s d.workers p.instrs.size) instr) =
      renamed (outRenaming s d.workers p.instrs.size) instr := by
    intro instr
    rw [renamed, renamed, Op.mapOperands_mapOperands]
    congr 2
    exact funext (rename_rename hlt)
  rw [adjusted, iterate_of_idempotent htwice hcount]

/-- Turning branches and φs leaves operands alone, so these are renamed and nothing else. -/
theorem Installed.operands_outside (h : Installed s p func d code q)
    (hlt : ∀ i ∈ s.live.liveOut, i.index < p.instrs.size) (hb : b ∈ func.blocks)
    (hout : b ∉ s.loop) {i : InstrRef} (hi : p.Lists b i) (instr : Instr) :
    (adjusted s p func d i instr).op.operands =
      instr.op.operands.map (outRenaming s d.workers p.instrs.size).rename := by
  rw [h.adjusted_of_outside hlt hb hout hi, renamed, Op.operands_mapOperands,
    (reroute_iterate_op ..).2.1, (turn_iterate_op ..).2.1]

/-- A loop of a well-formed function is replaced; control enters the loop from the preheader
to the header, passes it and leaves it for the exit. -/
structure Replaced (s : Setting) (p : Program) (func : Func) (d : Dispatch)
    (code : List (Op × Ty)) (q : Program) (layout : List BlockRef) (entry : BlockRef) : Prop where
  installed : Installed s p func d code q
  wellFormed : p.WellFormed s.func func
  mem_layout : ∀ b, b ∈ layout ↔ b = d.block ∨ b ∈ func.blocks
  entry_eq : func.blocks.head? = some entry
  entry_eq' : layout.head? = some entry
  entry_not_mem : entry ∉ s.loop
  inside : ∀ b ∈ s.loop, b ∈ func.blocks
  gated : s.loop.Gated (p.FlowEdge func.blocks)
  passable : s.loop.Passable (p.FlowEdge func.blocks)

namespace Replaced

theorem ne_block (h : Replaced s p func d code q layout entry) (hb : b ∈ func.blocks) :
    b ≠ d.block :=
  h.installed.ne_block (h.wellFormed.block_of_mem hb)

theorem collapses (h : Replaced s p func d code q layout entry) :
    s.loop.Collapses d.block (p.FlowEdge func.blocks) (q.FlowEdge layout) := by
  obtain ⟨last, run, hrun, hinside, -⟩ := h.passable
  exact h.installed.collapses h.wellFormed.grounded (hinside _ hrun.start_mem) h.inside
    h.mem_layout

/-- A path in the changed function comes from a path before the change. -/
theorem exists_walk (h : Replaced s p func d code q layout entry) {visited : List BlockRef}
    (hwalk : Walk (q.FlowEdge layout) entry b visited) :
    ∃ c others, Walk (p.FlowEdge func.blocks) entry c others ∧
      visited = s.loop.collapse d.block others ∧ (b ≠ d.block → c = b) ∧
      (b = d.block → c ∈ s.loop) := by
  have hne := h.ne_block (List.mem_of_head? h.entry_eq)
  obtain ⟨c, others, hothers, heq, hsame, hinner⟩ :=
    h.collapses.exists_walk h.gated.tied h.passable h.entry_not_mem hne hwalk
  exact ⟨c, others, hothers, heq, hsame, fun hb => (hinner hb).1⟩

theorem not_mem_of_reachable (h : Replaced s p func d code q layout entry)
    (hb : q.FlowReachable layout b) : b ∉ s.loop := by
  obtain ⟨entry', hentry', visited, hwalk⟩ := hb
  obtain rfl := Option.some.inj (h.entry_eq'.symm.trans hentry')
  exact h.collapses.not_mem_of_walk h.gated.tied h.entry_not_mem hwalk b hwalk.end_mem

theorem reachable_before (h : Replaced s p func d code q layout entry)
    (hb : q.FlowReachable layout b) (hne : b ≠ d.block) : p.FlowReachable func.blocks b := by
  obtain ⟨entry', hentry', visited, hwalk⟩ := hb
  obtain rfl := Option.some.inj (h.entry_eq'.symm.trans hentry')
  obtain ⟨c, others, hothers, -, hsame, -⟩ := h.exists_walk hwalk
  exact ⟨entry, h.entry_eq, others, hsame hne ▸ hothers⟩

theorem reachable_after (h : Replaced s p func d code q layout entry)
    (hb : p.FlowReachable func.blocks b) (hout : b ∉ s.loop) : q.FlowReachable layout b := by
  obtain ⟨entry', hentry', visited, hwalk⟩ := hb
  obtain rfl := Option.some.inj (h.entry_eq.symm.trans hentry')
  have hcollapsed := h.collapses.walk_collapse h.gated.tied h.entry_not_mem hwalk
  rw [Loop.image_of_not_mem hout] at hcollapsed
  exact ⟨entry, h.entry_eq', _, hcollapsed⟩

theorem reachable_block (h : Replaced s p func d code q layout entry)
    (hinside : ∀ c ∈ s.loop, p.FlowReachable func.blocks c) : q.FlowReachable layout d.block := by
  obtain ⟨entry', hentry', visited, hwalk⟩ := hinside _ h.collapses.header_mem
  obtain rfl := Option.some.inj (h.entry_eq.symm.trans hentry')
  have hcollapsed := h.collapses.walk_collapse h.gated.tied h.entry_not_mem hwalk
  rw [Loop.image_of_mem h.collapses.header_mem] at hcollapsed
  exact ⟨entry, h.entry_eq', _, hcollapsed⟩

/-- What is outside the loop stays on every path. -/
theorem onEveryPath_of_not_mem (h : Replaced s p func d code q layout entry) (ha : a ∉ s.loop)
    (hne : b ≠ d.block) (hall : p.OnEveryPath func.blocks a b) : q.OnEveryPath layout a b := by
  intro entry' visited hentry' hwalk
  obtain rfl := Option.some.inj (h.entry_eq'.symm.trans hentry')
  obtain ⟨c, others, hothers, rfl, hsame, -⟩ := h.exists_walk hwalk
  obtain rfl := hsame hne
  exact Loop.mem_collapse_of_not_mem ha (hall entry others h.entry_eq hothers)

/-- The new block is on every path that a loop block was on. -/
theorem onEveryPath_of_mem (h : Replaced s p func d code q layout entry) (ha : a ∈ s.loop)
    (hne : b ≠ d.block) (hall : p.OnEveryPath func.blocks a b) :
    q.OnEveryPath layout d.block b := by
  intro entry' visited hentry' hwalk
  obtain rfl := Option.some.inj (h.entry_eq'.symm.trans hentry')
  obtain ⟨c, others, hothers, rfl, hsame, -⟩ := h.exists_walk hwalk
  obtain rfl := hsame hne
  exact Loop.mem_collapse_of_exists_mem ⟨a, hall entry others h.entry_eq hothers, ha⟩

/-- What is outside the loop and on every path into it is on every path to the new block. -/
theorem onEveryPath_block (h : Replaced s p func d code q layout entry) (ha : a ∉ s.loop)
    (hall : ∀ c ∈ s.loop, p.OnEveryPath func.blocks a c) :
    q.OnEveryPath layout a d.block := by
  intro entry' visited hentry' hwalk
  obtain rfl := Option.some.inj (h.entry_eq'.symm.trans hentry')
  obtain ⟨c, others, hothers, rfl, -, hinner⟩ := h.exists_walk hwalk
  exact Loop.mem_collapse_of_not_mem ha
    (hall c (hinner rfl) entry others h.entry_eq hothers)

/-- What is outside the loop and on every path to one of its blocks is on every path to
each of them. -/
theorem onEveryPath_inside (h : Replaced s p func d code q layout entry) (ha : a ∉ s.loop)
    (hb : b ∈ s.loop) (hreach : p.FlowReachable func.blocks b)
    (hall : p.OnEveryPath func.blocks a b) : ∀ c ∈ s.loop, p.OnEveryPath func.blocks a c := by
  intro c hc entry' visited hentry' hwalk
  obtain rfl := Option.some.inj (h.entry_eq.symm.trans hentry')
  obtain ⟨entry', hentry', hreach⟩ := hreach
  obtain rfl := Option.some.inj (h.entry_eq.symm.trans hentry')
  exact h.gated.mem_of_mem_inside h.entry_not_mem ha hreach hb
    (fun others => hall entry others h.entry_eq) hwalk hc

theorem exit_mem (h : Replaced s p func d code q layout entry) : s.loop.exit ∈ func.blocks := by
  obtain ⟨last, run, -, -, hedge⟩ := h.passable
  exact hedge.target_mem

theorem lists_iff (h : Replaced s p func d code q layout entry) (hb : b ∈ func.blocks)
    {i : InstrRef} : q.Lists b i ↔ p.Lists b i := by
  rw [Program.Lists, Program.Lists, h.installed.block?_kept b (h.ne_block hb)]

theorem lists_block (h : Replaced s p func d code q layout entry) {i : InstrRef}
    (hi : i ∈ newRefs p.instrs.size code.length) : q.Lists d.block i :=
  ⟨_, h.installed.block?_new, hi⟩

/-- The liveness of the loop, and what it takes to be in it. -/
theorem mem_liveOut_iff_of_read (h : Replaced s p func d code q layout entry)
    (hlive : s.live.Describes p s.loop) (hb : b ∈ func.blocks) (hout : b ∉ s.loop) {i e : InstrRef}
    {instr : Instr} (hi : p.Lists b i) (hinstr : p.instr? i = some instr)
    (he : .instr e ∈ instr.op.operands) {c : BlockRef} (hc : c ∈ func.blocks) (hce : p.Lists c e) :
    e ∈ s.live.liveOut ↔ c ∈ s.loop := by
  rw [hlive.mem_liveOut_iff, Program.mem_listedIn_iff]
  constructor
  · rintro ⟨⟨c', hc', hce'⟩, -⟩
    obtain rfl := h.wellFormed.listedOnce c hc c' (h.inside c' hc') e hce hce'
    exact hc'
  · intro hcloop
    obtain ⟨instr', hwell⟩ := h.wellFormed.instr_of_lists hb hi
    obtain rfl := Option.some.inj (hinstr.symm.trans hwell.lookup)
    exact ⟨⟨c, hcloop, hce⟩, i, instr, b, hinstr, he, hwell.placed, hout⟩

theorem liveOut_lt (h : Replaced s p func d code q layout entry)
    (hlive : s.live.Describes p s.loop) {i : InstrRef} (hi : i ∈ s.live.liveOut) :
    i.index < p.instrs.size := by
  obtain ⟨hlisted, -⟩ := (hlive.mem_liveOut_iff i).1 hi
  obtain ⟨b, hb, hbi⟩ := Program.mem_listedIn_iff.1 hlisted
  obtain ⟨instr, hwell⟩ := h.wellFormed.instr_of_lists (h.inside b hb) hbi
  exact (Array.getElem?_eq_some_iff.1 hwell.lookup).1

/-- An instruction outside the loop reads the loaded values in the place of live-outs, and a
φ at the exit comes from the new block where it came from the loop. -/
theorem instr_outside (h : Replaced s p func d code q layout entry)
    (hlive : s.live.Describes p s.loop) (hb : b ∈ func.blocks) (hout : b ∉ s.loop) {i : InstrRef}
    {instr : Instr} (hi : p.Lists b i) (hinstr : p.instr? i = some instr) :
    ∃ instr', q.instr? i = some instr' ∧ instr'.op.isPhi = instr.op.isPhi ∧
      instr'.op.operands =
        instr.op.operands.map (outRenaming s d.workers p.instrs.size).rename ∧
      instr'.op.incoming = instr.op.incoming.map fun (v, pred) =>
        ((outRenaming s d.workers p.instrs.size).rename v,
          if b = s.loop.exit then s.loop.image d.block pred else pred) := by
  refine ⟨_, h.installed.instr?_some hinstr, ?_⟩
  have hexit : (p.listedIn [s.loop.exit]).count i = 0 ↔ b ≠ s.loop.exit := by
    rw [List.count_eq_zero, Program.mem_listedIn_iff, not_iff_not]
    constructor
    · rintro ⟨c, hc, hci⟩
      obtain rfl := List.mem_singleton.1 hc
      exact h.wellFormed.listedOnce b hb _ h.exit_mem i hi hci
    · rintro rfl
      exact ⟨_, List.mem_singleton_self _, hi⟩
  rw [h.installed.adjusted_of_outside (fun _ hi => h.liveOut_lt hlive hi) hb hout hi]
  obtain ⟨hphi, hoperands, hincoming⟩ := turn_iterate_op d.block
    ((outsideEnds s p d.block func.blocks).count i) instr
  obtain ⟨hphi', hoperands', hincoming'⟩ := reroute_iterate_op d.block
    ((p.listedIn [s.loop.exit]).count i)
    ((turn s d.block)^[(outsideEnds s p d.block func.blocks).count i] instr)
  refine ⟨?_, ?_, ?_⟩
  · rw [renamed, Op.isPhi_mapOperands, hphi', hphi]
  · rw [renamed, Op.operands_mapOperands, hoperands', hoperands]
  · rw [renamed, Op.incoming_mapOperands, hincoming', hincoming, List.map_map]
    refine List.map_congr_left ?_
    rintro ⟨v, pred⟩ -
    by_cases hb' : b = s.loop.exit
    · have hne : (p.listedIn [s.loop.exit]).count i ≠ 0 := fun hzero => hexit.1 hzero hb'
      simp [hb', hne]
    · simp [hb', hexit.2 hb']

/-- The loaded value for a live-out is listed in the new block. -/
theorem exists_rename (h : Replaced s p func d code q layout entry) {e : InstrRef}
    (he : e ∈ s.live.liveOut) :
    ∃ e', (outRenaming s d.workers p.instrs.size).rename (.instr e) = .instr e' ∧
      q.Lists d.block e' := by
  obtain ⟨init, dispatch, join, types, htypes, hcode⟩ := h.installed.code_eq
  obtain ⟨e', heq, he'⟩ := rename_of_mem he d.exchange init dispatch join htypes s.loop.exit
  exact ⟨e', heq, h.lists_block (hcode ▸ he')⟩

theorem rename_eq_of_not_mem {e : InstrRef} (he : e ∉ s.live.liveOut) :
    (outRenaming s d.workers p.instrs.size).rename (.instr e) = .instr e := by
  refine rename_of_not_mem ?_
  intro hmem
  obtain ⟨j, hj, hje⟩ := List.mem_map.1 hmem
  exact he (Value.instr.inj hje ▸ hj)

theorem exists_of_rename_eq {workers : List FuncRef} {next : Nat} {v : Value} {e : InstrRef}
    (h : (outRenaming s workers next).rename v = .instr e) : ∃ e', v = .instr e' := by
  by_cases hv : v ∈ s.live.liveOut.map .instr
  · obtain ⟨i, -, rfl⟩ := List.mem_map.1 hv
    exact ⟨i, rfl⟩
  · exact ⟨e, (rename_of_not_mem hv).symm.trans h⟩

/-- Where a reader outside the loop finds the definition it reads. If that was in the loop,
it is in the new block now; otherwise it is where it was. -/
theorem definition_of_read (h : Replaced s p func d code q layout entry)
    (hlive : s.live.Describes p s.loop) (hb : b ∈ func.blocks) (hout : b ∉ s.loop) {i e : InstrRef}
    {instr : Instr} (hi : p.Lists b i) (hinstr : p.instr? i = some instr)
    (he : .instr e ∈ instr.op.operands) {c : BlockRef} (hc : c ∈ func.blocks) (hce : p.Lists c e) :
    ∃ e', (outRenaming s d.workers p.instrs.size).rename (.instr e) = .instr e' ∧
      (c ∈ s.loop ∧ q.Lists d.block e' ∨ c ∉ s.loop ∧ e' = e ∧ q.Lists c e) := by
  have hiff := h.mem_liveOut_iff_of_read hlive hb hout hi hinstr he hc hce
  by_cases hcloop : c ∈ s.loop
  · obtain ⟨e', heq, he'⟩ := h.exists_rename (hiff.2 hcloop)
    exact ⟨e', heq, .inl ⟨hcloop, he'⟩⟩
  · refine ⟨e, rename_eq_of_not_mem fun hmem => hcloop (hiff.1 hmem), .inr ⟨hcloop, rfl, ?_⟩⟩
    exact (h.lists_iff hc).2 hce

/-- Readers outside the loop that are no φs. -/
theorem uses_outside (h : Replaced s p func d code q layout entry)
    (hlive : s.live.Describes p s.loop) (hstrict : p.StrictForm func.blocks)
    (hreach : q.FlowReachable layout b) (hne : b ≠ d.block) {block : Block}
    {before after : List InstrRef} {i e : InstrRef} {instr : Instr}
    (hblock : q.block? b = some block) (hlist : block.instrs = before ++ i :: after)
    (hinstr : q.instr? i = some instr) (hphi : ¬ instr.op.isPhi)
    (he : .instr e ∈ instr.op.operands) :
    e ∈ before ∨ ∃ c ∈ layout, c ≠ b ∧ q.Lists c e ∧ q.FlowDominates layout c b := by
  have hb : b ∈ func.blocks := ((h.mem_layout b).1 hreach.mem).resolve_left hne
  have hout := h.not_mem_of_reachable hreach
  have hreach' := h.reachable_before hreach hne
  rw [h.installed.block?_kept b hne] at hblock
  have hi : p.Lists b i := ⟨block, hblock, by simp [hlist]⟩
  obtain ⟨old, hwell⟩ := h.wellFormed.instr_of_lists hb hi
  obtain ⟨new, hnew, hnewphi, hnewoperands, -⟩ := h.instr_outside hlive hb hout hi hwell.lookup
  obtain rfl := Option.some.inj (hinstr.symm.trans hnew)
  rw [hnewoperands] at he
  obtain ⟨v, hv, hrename⟩ := List.mem_map.1 he
  obtain ⟨e₀, rfl⟩ := exists_of_rename_eq hrename
  have hfind : ∀ c ∈ func.blocks, p.Lists c e₀ →
      c ∈ s.loop ∧ q.Lists d.block e ∨ c ∉ s.loop ∧ e = e₀ ∧ q.Lists c e₀ := by
    intro c hc hce
    obtain ⟨e', heq, hcases⟩ := h.definition_of_read hlive hb hout hi hwell.lookup hv hc hce
    obtain rfl := Value.instr.inj (hrename.symm.trans heq)
    exact hcases
  rcases hstrict.uses b block before i after old e₀ hreach' hblock hlist hwell.lookup
    (hnewphi ▸ hphi) hv with hbefore | ⟨c, hc, hcb, hce, hdom⟩
  · rcases hfind b hb ⟨block, hblock, by simp [hlist, hbefore]⟩ with ⟨hin, -⟩ | ⟨-, rfl, -⟩
    · exact absurd hin hout
    · exact .inl hbefore
  · right
    rcases hfind c hc hce with ⟨hcloop, hlisted⟩ | ⟨hcloop, rfl, hlisted⟩
    · exact ⟨d.block, (h.mem_layout _).2 (.inl rfl), hne.symm, hlisted,
        (h.onEveryPath_of_mem hcloop hne hdom.onEveryPath).flowDominates hreach⟩
    · exact ⟨c, (h.mem_layout _).2 (.inr hc), hcb, hlisted,
        (h.onEveryPath_of_not_mem hcloop hne hdom.onEveryPath).flowDominates hreach⟩

/-- Readers outside the loop that are φs. At the exit, what came from the loop comes from
the new block. -/
theorem phis_outside (h : Replaced s p func d code q layout entry)
    (hlive : s.live.Describes p s.loop) (hstrict : p.StrictForm func.blocks)
    (hinside : ∀ c ∈ s.loop, p.FlowReachable func.blocks c)
    (hreach : q.FlowReachable layout b) (hne : b ≠ d.block) {i e : InstrRef} {instr : Instr}
    {pred : BlockRef} (hi : q.Lists b i) (hinstr : q.instr? i = some instr)
    (he : (.instr e, pred) ∈ instr.op.incoming) :
    ∃ c ∈ layout, q.Lists c e ∧ q.FlowDominates layout c pred := by
  have hb : b ∈ func.blocks := ((h.mem_layout b).1 hreach.mem).resolve_left hne
  have hout := h.not_mem_of_reachable hreach
  have hreach' := h.reachable_before hreach hne
  rw [h.lists_iff hb] at hi
  obtain ⟨old, hwell⟩ := h.wellFormed.instr_of_lists hb hi
  obtain ⟨new, hnew, -, -, hincoming⟩ := h.instr_outside hlive hb hout hi hwell.lookup
  obtain rfl := Option.some.inj (hinstr.symm.trans hnew)
  rw [hincoming] at he
  obtain ⟨⟨v, from₀⟩, hpair, heq⟩ := List.mem_map.1 he
  obtain ⟨hrename, hpred⟩ := Prod.mk.inj heq
  obtain ⟨e₀, rfl⟩ := exists_of_rename_eq hrename
  obtain ⟨c, hc, hce, hdom⟩ := hstrict.phis b i old e₀ from₀ hreach' hi hwell.lookup hpair
  have hoperand : .instr e₀ ∈ old.op.operands := Op.mem_operands_of_mem_incoming hpair
  obtain ⟨e', heq', hcases⟩ := h.definition_of_read hlive hb hout hi hwell.lookup hoperand hc hce
  obtain rfl := Value.instr.inj (hrename.symm.trans heq')
  have hfrom : from₀ ≠ d.block := h.ne_block (hwell.preds _ hpair)
  by_cases hfromloop : from₀ ∈ s.loop
  · have hphi : old.op.isPhi := Op.isPhi_of_mem_incoming hpair
    have hedge := (hstrict.preds b i old hreach' hi hwell.lookup hphi from₀).1 ⟨_, hpair⟩
    obtain rfl := h.gated.leaving from₀ b hedge hfromloop hout
    rw [if_pos rfl, Loop.image_of_mem hfromloop] at hpred
    subst hpred
    have hnewreach := h.reachable_block hinside
    rcases hcases with ⟨-, hlisted⟩ | ⟨hcloop, rfl, hlisted⟩
    · exact ⟨d.block, (h.mem_layout _).2 (.inl rfl), hlisted, _, h.entry_eq', .refl _ _ _⟩
    · refine ⟨c, (h.mem_layout _).2 (.inr hc), hlisted, ?_⟩
      have hpaths := h.onEveryPath_inside hcloop hfromloop (hinside _ hfromloop) hdom.onEveryPath
      exact (h.onEveryPath_block hcloop hpaths).flowDominates hnewreach
  · rw [Loop.image_of_not_mem hfromloop, ite_self] at hpred
    subst hpred
    by_cases hfromreach : p.FlowReachable func.blocks from₀
    · have hnewreach := h.reachable_after hfromreach hfromloop
      rcases hcases with ⟨hcloop, hlisted⟩ | ⟨hcloop, rfl, hlisted⟩
      · exact ⟨d.block, (h.mem_layout _).2 (.inl rfl), hlisted,
          (h.onEveryPath_of_mem hcloop hfrom hdom.onEveryPath).flowDominates hnewreach⟩
      · exact ⟨c, (h.mem_layout _).2 (.inr hc), hlisted,
          (h.onEveryPath_of_not_mem hcloop hfrom hdom.onEveryPath).flowDominates hnewreach⟩
    · -- out of reach, only the incoming block itself dominates, and it is outside the loop
      obtain rfl : c = from₀ := by
        obtain ⟨entry', hentry', heq | ⟨hreaches, -⟩⟩ := hdom
        · exact heq
        · exact absurd ⟨entry', hentry', hreaches⟩ hfromreach
      rcases hcases with ⟨hcloop, -⟩ | ⟨-, rfl, hlisted⟩
      · exact absurd hcloop hfromloop
      · exact ⟨c, (h.mem_layout _).2 (.inr hc), hlisted, _, h.entry_eq', .refl _ _ _⟩

/-- The incoming blocks of a φ in reach are the blocks in reach that control comes from. -/
theorem preds_outside (h : Replaced s p func d code q layout entry)
    (hlive : s.live.Describes p s.loop) (hstrict : p.StrictForm func.blocks)
    (hreach : q.FlowReachable layout b) (hne : b ≠ d.block) {i : InstrRef} {instr : Instr}
    (hi : q.Lists b i) (hinstr : q.instr? i = some instr) (hphi : instr.op.isPhi)
    (ha : q.FlowReachable layout a) :
    (∃ v, (v, a) ∈ instr.op.incoming) ↔ q.FlowEdge layout a b := by
  have hb : b ∈ func.blocks := ((h.mem_layout b).1 hreach.mem).resolve_left hne
  have hout := h.not_mem_of_reachable hreach
  have haout := h.not_mem_of_reachable ha
  have hreach' := h.reachable_before hreach hne
  rw [h.lists_iff hb] at hi
  obtain ⟨old, hwell⟩ := h.wellFormed.instr_of_lists hb hi
  obtain ⟨new, hnew, hnewphi, -, hincoming⟩ := h.instr_outside hlive hb hout hi hwell.lookup
  obtain rfl := Option.some.inj (hinstr.symm.trans hnew)
  have hpreds := hstrict.preds b i old hreach' hi hwell.lookup (hnewphi ▸ hphi)
  have hmem : (∃ v, (v, a) ∈ instr.op.incoming) ↔ ∃ v pred, (v, pred) ∈ old.op.incoming ∧
      (if b = s.loop.exit then s.loop.image d.block pred else pred) = a := by
    rw [hincoming]
    constructor
    · rintro ⟨v', hpair⟩
      obtain ⟨⟨v, pred⟩, hpair, heq⟩ := List.mem_map.1 hpair
      exact ⟨v, pred, hpair, (Prod.mk.inj heq).2⟩
    · rintro ⟨v, pred, hpair, rfl⟩
      exact ⟨_, List.mem_map.2 ⟨(v, pred), hpair, rfl⟩⟩
  rw [hmem]
  by_cases hreplaced : a = d.block
  · subst hreplaced
    rw [h.collapses.replaced]
    constructor
    · rintro ⟨v, pred, hpair, heq⟩
      by_contra hexit
      rw [if_neg hexit] at heq
      exact h.ne_block (hwell.preds _ hpair) heq
    · rintro rfl
      obtain ⟨last, run, hrun, hin, hedge⟩ := h.passable
      obtain ⟨v, hpair⟩ := (hpreds last).2 hedge
      exact ⟨v, last, hpair, by rw [if_pos rfl, Loop.image_of_mem (hin last hrun.end_mem)]⟩
  · have hbheader : b ≠ s.loop.header := fun heq => hout (heq ▸ h.collapses.header_mem)
    have hedge : q.FlowEdge layout a b ↔ p.FlowEdge func.blocks a b := by
      rw [h.collapses.outside a b haout hreplaced]
      exact ⟨fun hor => (hor.resolve_left fun hand => hne hand.1).2,
      fun hold => .inr ⟨hbheader, hold⟩⟩
    rw [hedge, ← hpreds]
    constructor
    · rintro ⟨v, pred, hpair, heq⟩
      refine ⟨v, ?_⟩
      split at heq
      · by_cases hpred : pred ∈ s.loop
        · rw [Loop.image_of_mem hpred] at heq
          exact absurd heq.symm hreplaced
        · rw [Loop.image_of_not_mem hpred] at heq
          exact heq ▸ hpair
      · exact heq ▸ hpair
    · rintro ⟨v, hpair⟩
      refine ⟨v, a, hpair, ?_⟩
      rw [Loop.image_of_not_mem haout, ite_self]

/-- A live-in that is the result of an instruction is defined outside the loop, on every
path into it. -/
theorem exists_of_mem_liveIn (h : Replaced s p func d code q layout entry)
    (hlive : s.live.Describes p s.loop) (hstrict : p.StrictForm func.blocks)
    (hresult : ∀ b ∈ func.blocks, ∀ i, p.Lists b i → ∀ instr, p.instr? i = some instr →
      ∀ e, .instr e ∈ instr.op.operands → ∀ read, p.instr? e = some read → read.hasResult)
    (hinside : ∀ c ∈ s.loop, p.FlowReachable func.blocks c) {e : InstrRef}
    (he : .instr e ∈ s.live.liveIn) :
    ∃ c ∈ func.blocks, c ∉ s.loop ∧ p.Lists c e ∧
      ∀ b ∈ s.loop, p.OnEveryPath func.blocks c b := by
  obtain ⟨-, hforeign, j, hj, instr, hinstr, hoperand⟩ := (hlive.mem_liveIn_iff _).1 he
  obtain ⟨b, hb, hbj⟩ := Program.mem_listedIn_iff.1 hj
  have hreach := hinside b hb
  have houtside : ∀ c ∈ func.blocks, p.Lists c e → c ∉ s.loop := by
    intro c hc hce hcloop
    obtain ⟨read, hwell⟩ := h.wellFormed.instr_of_lists hc hce
    have hread := hresult b (h.inside b hb) j hbj instr hinstr e hoperand read hwell.lookup
    refine hforeign e rfl ((hlive.mem_defined_iff e).2 ⟨?_, read, hwell.lookup, hread⟩)
    exact Program.mem_listedIn_iff.2 ⟨c, hcloop, hce⟩
  by_cases hphi : instr.op.isPhi
  · obtain ⟨pred, hpair⟩ := Op.exists_mem_incoming hphi hoperand
    obtain ⟨c, hc, hce, hdom⟩ := hstrict.phis b j instr e pred hreach hbj hinstr hpair
    have hpath := hdom.onEveryPath
    have hedge := (hstrict.preds b j instr hreach hbj hinstr hphi pred).1 ⟨_, hpair⟩
    refine ⟨c, hc, houtside c hc hce, hce, ?_⟩
    by_cases hpred : pred ∈ s.loop
    · exact h.onEveryPath_inside (houtside c hc hce) hpred (hinside pred hpred) hpath
    · obtain ⟨rfl, -⟩ := h.gated.entering pred b hedge hpred hb
      intro b' hb' entry' visited hentry' hwalk
      obtain rfl := Option.some.inj (h.entry_eq.symm.trans hentry')
      exact h.gated.mem_of_mem_preheader h.entry_not_mem
        (fun others => hpath entry others h.entry_eq) hwalk hb'
  · obtain ⟨block, hblock, hmem⟩ := hbj
    obtain ⟨before, after, hlist⟩ := List.append_of_mem hmem
    rcases hstrict.uses b block before j after instr e hreach hblock hlist hinstr hphi hoperand with
      hbefore | ⟨c, hc, -, hce, hdom⟩
    · have hbe : p.Lists b e := ⟨block, hblock, by simp [hlist, hbefore]⟩
      exact absurd hb (houtside b (h.inside b hb) hbe)
    · exact ⟨c, hc, houtside c hc hce, hce,
        h.onEveryPath_inside (houtside c hc hce) hb hreach hdom.onEveryPath⟩

/-- Instructions of the new block read earlier ones of it and live-ins. None of them is
a φ. -/
theorem instr_block (h : Replaced s p func d code q layout entry) {block : Block}
    {before after : List InstrRef} {i : InstrRef} {instr : Instr}
    (hblock : q.block? d.block = some block) (hlist : block.instrs = before ++ i :: after)
    (hinstr : q.instr? i = some instr) :
    ¬ instr.op.isPhi ∧
      ∀ e, .instr e ∈ instr.op.operands → e ∈ before ∨ .instr e ∈ s.live.liveIn := by
  obtain rfl := Option.some.inj (h.installed.block?_new.symm.trans hblock)
  obtain ⟨hi, hbefore⟩ := newRefs_eq_append hlist
  have hlt : before.length < code.length := by
    have hlength := congrArg List.length hlist
    simp only [length_newRefs, List.length_append, List.length_cons] at hlength
    omega
  have hk := List.getElem?_eq_getElem hlt
  obtain ⟨name, hname⟩ := h.installed.instr?_new before.length _ _ hk
  have hcount : (p.listedIn (func.blocks.filter (Dispatch.isOutside s d.block))).count
      ⟨p.instrs.size + before.length⟩ = 0 := by
    rw [List.count_eq_zero, Program.mem_listedIn_iff]
    rintro ⟨c, hc, hci⟩
    obtain ⟨old, hwell⟩ := h.wellFormed.instr_of_lists (List.mem_of_mem_filter hc) hci
    have hbound : p.instrs.size + before.length < p.instrs.size :=
      (Array.getElem?_eq_some_iff.1 hwell.lookup).1
    omega
  rw [hcount, Function.iterate_zero_apply] at hname
  rw [hi, hname] at hinstr
  obtain rfl := Option.some.inj hinstr
  obtain ⟨init, dispatch, join, types, -, hcode⟩ := h.installed.code_eq
  have hself : SelfContained p.instrs.size (fun e => .instr e ∈ s.live.liveIn) p.instrs.size
      code := by
    rw [hcode]
    exact .replacementCode
  obtain ⟨hphi, hreads⟩ := hself before.length _ _ hk
  refine ⟨hphi, fun e he => (hreads e he).imp_left fun hbounds => ?_⟩
  rw [hbefore]
  exact mem_newRefs_iff.2 hbounds

theorem not_isPhi_block (h : Replaced s p func d code q layout entry) {i : InstrRef}
    {instr : Instr} (hi : q.Lists d.block i) (hinstr : q.instr? i = some instr) :
    ¬ instr.op.isPhi := by
  obtain ⟨block, hblock, hmem⟩ := hi
  obtain ⟨before, after, hlist⟩ := List.append_of_mem hmem
  exact (h.instr_block hblock hlist hinstr).1

end Replaced

/-- Putting a block in the place of a loop keeps strict form. Let control enter the loop
from the preheader to the header only, pass it and leave it for its exit only, and let all
its blocks be in reach. Then, in the changed function, definitions are available where they
are read, in the new block too, and among the blocks in reach the incoming blocks of a φ
are its predecessors. -/
theorem install_keeps_strictForm (hinstall : (install s).apply p = (.ok d, q))
    (hfunc : p.func? s.func = some func) (hcheck : p.check s.func = .ok ())
    (hstrict : p.StrictForm func.blocks)
    (hresult : ∀ b ∈ func.blocks, ∀ i, p.Lists b i → ∀ instr, p.instr? i = some instr →
      ∀ e, .instr e ∈ instr.op.operands → ∀ read, p.instr? e = some read → read.hasResult)
    (hloop : ∀ b ∈ s.loop, b ∈ func.blocks) (hentry : func.entry? = some entry)
    (hentryLoop : entry ∉ s.loop) (hentryExit : entry ≠ s.loop.exit)
    (hgated : s.loop.Gated (p.FlowEdge func.blocks))
    (hinside : ∀ b ∈ s.loop, p.FlowReachable func.blocks b)
    (hpass : s.loop.Passable (p.FlowEdge func.blocks))
    (hlive : Liveness.ofLoop p s.loop = .ok s.live) :
    ∃ func', q.func? s.func = some func' ∧ q.FlowReachable func'.blocks d.block ∧
      q.Available func'.blocks ∧
      ∀ b i instr, q.FlowReachable func'.blocks b → q.Lists b i → q.instr? i = some instr →
        instr.op.isPhi → ∀ a, q.FlowReachable func'.blocks a →
        ((∃ v, (v, a) ∈ instr.op.incoming) ↔ q.FlowEdge func'.blocks a b) := by
  obtain ⟨func₀, code, hinstalled⟩ := installed_of_install hinstall
  obtain rfl := Option.some.inj (hfunc.symm.trans hinstalled.lookup)
  obtain ⟨func₀, hwf⟩ := Program.wellFormed_of_check hcheck
  obtain rfl := Option.some.inj (hfunc.symm.trans hwf.lookup)
  obtain ⟨func', hfunc', hlayout, hhead⟩ := hinstalled.exists_layout
  have h : Replaced s p func d code q func'.blocks entry :=
    ⟨hinstalled, hwf, hlayout, hentry, hhead entry hentry hentryExit, hentryLoop, hloop, hgated,
      hpass⟩
  have hlive := Liveness.describes_of_ofLoop hlive
  refine ⟨func', hfunc', h.reachable_block hinside, ⟨?_, ?_⟩, ?_⟩
  · intro b block before i after instr e hreach hblock hlist hinstr hphi he
    by_cases hb : b = d.block
    · subst hb
      obtain ⟨-, hreads⟩ := h.instr_block hblock hlist hinstr
      refine (hreads e he).imp_right fun hin => ?_
      obtain ⟨c, hc, hcloop, hce, hpaths⟩ :=
        h.exists_of_mem_liveIn hlive hstrict hresult hinside hin
      exact ⟨c, (hlayout c).2 (.inr hc), h.ne_block hc, (h.lists_iff hc).2 hce,
        (h.onEveryPath_block hcloop hpaths).flowDominates hreach⟩
    · exact h.uses_outside hlive hstrict hreach hb hblock hlist hinstr hphi he
  · intro b i instr e pred hreach hi hinstr he
    by_cases hb : b = d.block
    · subst hb
      rw [Op.incoming_of_not_isPhi (h.not_isPhi_block hi hinstr)] at he
      exact absurd he List.not_mem_nil
    · exact h.phis_outside hlive hstrict hinside hreach hb hi hinstr he
  · intro b i instr hreach hi hinstr hphi a ha
    by_cases hb : b = d.block
    · subst hb
      exact absurd hphi (h.not_isPhi_block hi hinstr)
    · exact h.preds_outside hlive hstrict hreach hb hi hinstr hphi ha

end Dispatch

namespace Counting

/-- The entry leads to the header only. -/
theorem onEveryPath_header {b : BlockRef} (hb : b ≠ ⟨0⟩) :
    program.OnEveryPath func.blocks ⟨1⟩ b := by
  intro entry visited hentry hwalk
  obtain rfl := Option.some.inj hentry
  cases hwalk with
  | stay => exact absurd rfl hb
  | step hedge hwalk =>
      have hnext : ∀ b ∈ func.blocks, program.FlowEdge func.blocks ⟨0⟩ b → b = ⟨1⟩ := by decide
      obtain rfl := hnext _ hedge.target_mem hedge
      exact List.mem_cons_of_mem _ hwalk.start_mem

/-- Strict form of a program whose blocks branch as they do here and read only what they or the
header define. -/
theorem strictForm_of_flow {p : Program}
    (hflow : p.FlowEdge func.blocks = program.FlowEdge func.blocks)
    (huses : ∀ b ∈ func.blocks, ∀ block ∈ p.block? b, ∀ k < block.instrs.length,
      ∀ i ∈ block.instrs[k]?, ∀ instr ∈ p.instr? i, ¬ instr.op.isPhi →
      ∀ v ∈ instr.op.operands, ∀ e ∈ v.instr?, e ∈ block.instrs.take k ∨
        (b ≠ ⟨0⟩ ∧ b ≠ ⟨1⟩ ∧ e ∈ p.listedIn [⟨1⟩]))
    (hphis : ∀ b ∈ func.blocks, ∀ i ∈ p.listedIn [b], ∀ instr ∈ p.instr? i,
      ∀ pair ∈ instr.op.incoming, ∀ e ∈ pair.1.instr?,
      pair.2 ∈ func.blocks ∧ e ∈ p.listedIn [pair.2])
    (hpreds : ∀ b ∈ func.blocks, ∀ i ∈ p.listedIn [b], ∀ instr ∈ p.instr? i, instr.op.isPhi →
      (∀ pair ∈ instr.op.incoming, p.FlowEdge func.blocks pair.2 b) ∧
        ∀ a ∈ func.blocks, p.FlowEdge func.blocks a b → a ∈ instr.op.incoming.map Prod.snd) :
    p.StrictForm func.blocks where
  uses := by
    intro b block before i after instr e hreach hblock hlist hinstr hphi he
    have hlt : before.length < block.instrs.length := by simp [hlist]
    have hat : i ∈ block.instrs[before.length]? := by simp [hlist]
    rcases huses b hreach.mem block hblock before.length hlt i hat instr hinstr hphi _ he e rfl
      with htake | ⟨hb, hne, hlisted⟩
    · left
      rwa [hlist, List.take_left] at htake
    · right
      obtain ⟨c, hc, hce⟩ := Program.mem_listedIn_iff.1 hlisted
      obtain rfl := List.mem_singleton.1 hc
      have hpath : p.OnEveryPath func.blocks ⟨1⟩ b := by
        rw [Program.OnEveryPath, hflow]
        exact onEveryPath_header hb
      exact ⟨⟨1⟩, by decide, hne.symm, hce, hpath.flowDominates hreach⟩
  phis := by
    intro b i instr e pred hreach hi hinstr he
    have hlisted : i ∈ p.listedIn [b] :=
      Program.mem_listedIn_iff.2 ⟨b, List.mem_singleton_self b, hi⟩
    obtain ⟨hpred, hlisted⟩ := hphis b hreach.mem i hlisted instr hinstr _ he e rfl
    obtain ⟨c, hc, hce⟩ := Program.mem_listedIn_iff.1 hlisted
    obtain rfl := List.mem_singleton.1 hc
    exact ⟨_, hpred, hce, _, rfl, .refl _ _ _⟩
  preds := fun b i instr hreach =>
    Program.incoming_iff_of_forall hpreds b hreach.mem i instr

theorem strictForm : program.StrictForm func.blocks :=
  strictForm_of_flow rfl (by decide) (by decide) (by decide)

theorem hasResult_of_read : ∀ b ∈ func.blocks, ∀ i, program.Lists b i →
    ∀ instr, program.instr? i = some instr → ∀ e, .instr e ∈ instr.op.operands →
    ∀ read, program.instr? e = some read → read.hasResult := by
  intro b hb i hi instr hinstr e he read hread
  have hall : ∀ b ∈ func.blocks, ∀ i ∈ program.listedIn [b], ∀ instr ∈ program.instr? i,
      ∀ v ∈ instr.op.operands, ∀ e ∈ v.instr?, ∀ read ∈ program.instr? e, read.hasResult := by
    decide
  exact hall b hb i (Program.mem_listedIn_iff.2 ⟨b, List.mem_singleton_self b, hi⟩) instr hinstr
    _ he e rfl read hread

theorem gated : loop.Gated (program.FlowEdge func.blocks) := .of_forall (by decide)

theorem reachable : ∀ b ∈ func.blocks, program.FlowReachable func.blocks b := by
  have hheader : Reaches (program.FlowEdge func.blocks) ⟨0⟩ ⟨1⟩ := .of_edge (by decide)
  have hbody : Reaches (program.FlowEdge func.blocks) ⟨0⟩ ⟨2⟩ := hheader.snoc (by decide)
  intro b hb
  refine ⟨⟨0⟩, rfl, ?_⟩
  have hcases : ∀ b ∈ func.blocks, b = ⟨0⟩ ∨ b = ⟨1⟩ ∨ b = ⟨2⟩ ∨ b = ⟨3⟩ ∨ b = ⟨4⟩ := by decide
  rcases hcases b hb with rfl | rfl | rfl | rfl | rfl
  · exact .refl _
  · exact hheader
  · exact hbody
  · exact hbody.snoc (by decide)
  · exact hheader.snoc (by decide)

theorem reachable_inside : ∀ b ∈ loop, program.FlowReachable func.blocks b := by
  have hinside : ∀ b ∈ loop.blocks, b ∈ func.blocks := by decide
  exact fun b hb => reachable b (hinside b hb)

end Counting

theorem Dispatch.install_keeps_strictForm_counting :
    ∃ d q func', (install Counting.setting).apply Counting.program = (.ok d, q) ∧
      q.func? ⟨0⟩ = some func' ∧ q.FlowReachable func'.blocks d.block ∧
      q.Available func'.blocks := by
  have hok : ((install Counting.setting).apply Counting.program).1.isOk := by decide +kernel
  obtain ⟨d, q, hinstall⟩ := Edit.exists_of_isOk hok
  have hfunc : Counting.program.func? ⟨0⟩ = some Counting.func := rfl
  have hentry : Counting.func.entry? = some ⟨0⟩ := rfl
  obtain ⟨func', hfunc', hreach, havailable, -⟩ := install_keeps_strictForm hinstall hfunc
    (by decide +kernel) Counting.strictForm Counting.hasResult_of_read (by decide) hentry
    (by decide) (by decide) Counting.gated Counting.reachable_inside
    Counting.passable
    (by decide +kernel)
  exact ⟨d, q, func', hinstall, hfunc', hreach, havailable⟩

end Decouple
