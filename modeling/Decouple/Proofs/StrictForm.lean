import Decouple.Proofs.Code
import Decouple.Proofs.Collapse

/-!
# Strict form

A function is in strict form if control cannot get to a reader but through the definition
it reads: an operand is defined earlier in the same block or in another block that dominates
it, and for an operand of a φ, which is read where control comes from, the definition
dominates the incoming block. The incoming blocks of a φ are the predecessors. All of it is
asked of readers in reach only.

In proofs, dominance is used as `Program.OnEveryPath`, which speaks of the paths themselves
and says nothing about blocks out of reach.

The second part is about loops that control enters from the preheader to the header and
leaves to the exit (`Loop.Gated`): what lies outside of such a loop and on every path to one
of its blocks is met before the loop, and what lies inside and on every path to a block is
met behind the header.
-/

namespace Decouple

namespace Program

/-- Every path from the first block of the layout to `b` passes through `a`. -/
def OnEveryPath (p : Program) (layout : List BlockRef) (a b : BlockRef) : Prop :=
  ∀ entry visited, layout.head? = some entry → Walk (p.FlowEdge layout) entry b visited →
    a ∈ visited

structure Available (p : Program) (layout : List BlockRef) : Prop where
  uses : ∀ b block before i after instr d, p.FlowReachable layout b → p.block? b = some block →
    block.instrs = before ++ i :: after → p.instr? i = some instr → ¬ instr.op.isPhi →
    .instr d ∈ instr.op.operands →
    d ∈ before ∨ ∃ c ∈ layout, c ≠ b ∧ p.Lists c d ∧ p.FlowDominates layout c b
  phis : ∀ b i instr d pred, p.FlowReachable layout b → p.Lists b i → p.instr? i = some instr →
    (.instr d, pred) ∈ instr.op.incoming →
    ∃ c ∈ layout, p.Lists c d ∧ p.FlowDominates layout c pred

/-- Definitions of the layout are available where they are read in it, as far as control gets
there from its first block. What is defined elsewhere is left open, and so is the order in a
block for which `ordered` does not hold. -/
structure AvailableWithin (p : Program) (layout : List BlockRef) (ordered : BlockRef → Prop) :
    Prop where
  uses : ∀ b ∈ layout, ∀ block before i after instr d, p.block? b = some block →
    block.instrs = before ++ i :: after → p.instr? i = some instr → ¬ instr.op.isPhi →
    .instr d ∈ instr.op.operands → (∃ c ∈ layout, p.Lists c d) →
    (d ∈ block.instrs ∧ (ordered b → d ∈ before)) ∨
      ∃ c ∈ layout, c ≠ b ∧ p.Lists c d ∧ p.OnEveryPath layout c b
  phis : ∀ b ∈ layout, ∀ i instr d pred, p.Lists b i → p.instr? i = some instr →
    (.instr d, pred) ∈ instr.op.incoming → (∃ c ∈ layout, p.Lists c d) →
    ∃ c ∈ layout, p.Lists c d ∧ p.OnEveryPath layout c pred

/-- Definitions are available where they are read, and a φ has a pair for each block that
control may come from and no other. -/
structure StrictForm (p : Program) (layout : List BlockRef) : Prop extends
    p.Available layout where
  preds : ∀ b i instr, p.FlowReachable layout b → p.Lists b i → p.instr? i = some instr →
    instr.op.isPhi → ∀ a, (∃ v, (v, a) ∈ instr.op.incoming) ↔ p.FlowEdge layout a b

variable {p : Program} {f : FuncRef} {func : Func} {layout : List BlockRef} {a b : BlockRef}

theorem AvailableWithin.imp {ordered ordered' : BlockRef → Prop}
    (h : p.AvailableWithin layout ordered) (himp : ∀ b, ordered' b → ordered b) :
    p.AvailableWithin layout ordered' where
  uses := by
    intro b hb block before i after instr d hblock hlist hinstr hphi hd hlisted
    have huse := h.uses b hb block before i after instr d hblock hlist hinstr hphi hd hlisted
    refine huse.imp_left ?_
    exact fun hhere => ⟨hhere.1, fun hordered => hhere.2 (himp b hordered)⟩
  phis := h.phis

theorem FlowReachable.mem (h : p.FlowReachable layout b) : b ∈ layout := by
  obtain ⟨entry, hentry, visited, hwalk⟩ := h
  exact mem_layout_of_walk (List.mem_of_head? hentry) hwalk b hwalk.end_mem

theorem FlowDominates.onEveryPath (h : p.FlowDominates layout a b) :
    p.OnEveryPath layout a b := by
  obtain ⟨entry, hentry, hdom⟩ := h
  intro entry' visited hentry' hwalk
  obtain rfl := Option.some.inj (hentry.symm.trans hentry')
  exact hdom.mem_of_walk hwalk

theorem OnEveryPath.flowDominates (h : p.OnEveryPath layout a b)
    (hreach : p.FlowReachable layout b) : p.FlowDominates layout a b := by
  obtain ⟨entry, hentry, hreach⟩ := hreach
  exact ⟨entry, hentry, .of_forall_walk hreach fun visited => h entry visited hentry⟩

/-- Whether the incoming blocks of the φs are the predecessors can be told by going through
the layout. -/
theorem incoming_iff_of_forall
    (h : ∀ b ∈ layout, ∀ i ∈ p.listedIn [b], ∀ instr ∈ p.instr? i, instr.op.isPhi →
      (∀ pair ∈ instr.op.incoming, p.FlowEdge layout pair.2 b) ∧
        ∀ a ∈ layout, p.FlowEdge layout a b → a ∈ instr.op.incoming.map Prod.snd) :
    ∀ b ∈ layout, ∀ i instr, p.Lists b i → p.instr? i = some instr → instr.op.isPhi →
      ∀ a, (∃ v, (v, a) ∈ instr.op.incoming) ↔ p.FlowEdge layout a b := by
  intro b hb i instr hi hinstr hphi a
  have hlisted : i ∈ p.listedIn [b] := mem_listedIn_iff.2 ⟨b, List.mem_singleton_self b, hi⟩
  obtain ⟨hforth, hback⟩ := h b hb i hlisted instr hinstr hphi
  constructor
  · rintro ⟨v, hpair⟩
    exact hforth _ hpair
  · intro hedge
    obtain ⟨⟨v, pred⟩, hpair, rfl⟩ := List.mem_map.1 (hback a hedge.source_mem hedge)
    exact ⟨v, hpair⟩

namespace WellFormed

theorem block_of_mem (h : p.WellFormed f func) (hb : b ∈ func.blocks) :
    (p.block? b).isSome := by
  obtain ⟨block, hblock⟩ := h.blocks b hb
  rw [hblock.lookup]
  rfl

theorem instr_of_lists (h : p.WellFormed f func) (hb : b ∈ func.blocks) {i : InstrRef}
    (hi : p.Lists b i) : ∃ instr, p.WellFormedInstr f func.blocks b i instr := by
  obtain ⟨block, hblock⟩ := h.blocks b hb
  obtain ⟨block', hlookup, hmem⟩ := hi
  obtain rfl := Option.some.inj (hblock.lookup.symm.trans hlookup)
  exact hblock.instrs i hmem

/-- An instruction says where it is placed, so it is listed there only. -/
theorem listedOnce (h : p.WellFormed f func) : p.ListedOnce func.blocks := by
  intro b hb c hc i hi hi'
  obtain ⟨instr, hinstr⟩ := h.instr_of_lists hb hi
  obtain ⟨instr', hinstr'⟩ := h.instr_of_lists hc hi'
  obtain rfl := Option.some.inj (hinstr.lookup.symm.trans hinstr'.lookup)
  exact Option.some.inj (hinstr.placed.symm.trans hinstr'.placed)

theorem grounded (h : p.WellFormed f func) : p.Grounded func.blocks := by
  intro b hb
  refine ⟨h.block_of_mem hb, ?_⟩
  intro target htarget
  obtain ⟨block, hblock⟩ := h.blocks b hb
  obtain ⟨init, last, hlist, ⟨instr, hinstr, -⟩, -⟩ := hblock.terminated
  have hlast : block.instrs.getLast? = some last := by rw [hlist, List.getLast?_concat]
  rw [targetsOf, successors_eq_of_getLast? hblock.lookup hlast hinstr] at htarget
  obtain ⟨instr', hwell⟩ := hblock.instrs last (List.mem_of_getLast? hlast)
  obtain rfl := Option.some.inj (hinstr.symm.trans hwell.lookup)
  exact h.block_of_mem (hwell.targets target htarget)

end WellFormed

end Program

namespace Loop

/-- Control enters the loop from the preheader to the header only, and leaves it for its
exit only. -/
structure Gated (loop : Loop) (edge : BlockRef → BlockRef → Prop) : Prop where
  entering : ∀ a b, edge a b → a ∉ loop → b ∈ loop → a = loop.preheader ∧ b = loop.header
  leaving : ∀ a b, edge a b → a ∈ loop → b ∉ loop → b = loop.exit

namespace Gated

variable {loop : Loop} {edge : BlockRef → BlockRef → Prop} {entry a b c : BlockRef}
  {visited : List BlockRef}

/-- Whether a loop is gated can be told by going through the layout. -/
theorem of_forall {p : Program} {layout : List BlockRef}
    (h : ∀ a ∈ layout, ∀ b ∈ layout, p.FlowEdge layout a b →
      (a ∉ loop → b ∈ loop → a = loop.preheader ∧ b = loop.header) ∧
        (a ∈ loop → b ∉ loop → b = loop.exit)) : loop.Gated (p.FlowEdge layout) :=
  ⟨fun a b hedge => (h a hedge.source_mem b hedge.target_mem hedge).1,
    fun a b hedge => (h a hedge.source_mem b hedge.target_mem hedge).2⟩

theorem tied (h : loop.Gated edge) : loop.Tied edge :=
  ⟨fun a b hedge ha hb => (h.entering a b hedge ha hb).2, h.leaving⟩

/-- A path into the loop comes to the preheader and then to the header before it meets
another block of the loop. -/
theorem exists_entering (h : loop.Gated edge) (hentry : entry ∉ loop)
    (hwalk : Walk edge entry b visited) (hmem : ∃ c ∈ visited, c ∈ loop) :
    ∃ before after, visited = before ++ loop.header :: after ∧ (∀ c ∈ before, c ∉ loop) ∧
      Walk edge entry loop.preheader before ∧
      Walk edge entry loop.header (before ++ [loop.header]) := by
  obtain ⟨d, before, after, hd, houtside, hfirst, -, rfl⟩ := hwalk.cut_first hmem
  obtain ⟨rfl, -⟩ | ⟨x, before', hbefore, hedge, heq⟩ := hfirst.last_cases
  · exact absurd hd hentry
  · obtain rfl : before = before' := List.append_cancel_right heq
    have hx : x ∉ loop := houtside x hbefore.end_mem
    obtain ⟨rfl, rfl⟩ := h.entering x d hedge hx hd
    exact ⟨before, after, rfl, houtside, hbefore, hfirst⟩

/-- The header reaches every block of the loop inside of it. -/
theorem exists_run (h : loop.Gated edge) (hentry : entry ∉ loop)
    (hwalk : Walk edge entry b visited) (hb : b ∈ loop) :
    ∃ run, Walk edge loop.header b run ∧ ∀ c ∈ run, c ∈ loop := by
  have houtside : ∃ x ∈ visited, (fun x => x ∉ loop) x := ⟨entry, hwalk.start_mem, hentry⟩
  obtain ⟨d, before, after, hd, hinside, -, hlast, -⟩ := hwalk.cut_last houtside
  have hinside : ∀ c ∈ after, c ∈ loop := fun c hc => not_not.1 (hinside c hc)
  obtain ⟨-, ⟨-, rfl⟩ | ⟨x, hedge, hrun⟩⟩ := hlast.cons_cases
  · exact absurd hb hd
  · obtain ⟨-, rfl⟩ := h.entering d x hedge hd (hinside x hrun.start_mem)
    exact ⟨after, hrun, hinside⟩

/-- What lies outside the loop and on every path to one of its blocks lies on every path
to the others. -/
theorem mem_of_mem_inside (h : loop.Gated edge) (hentry : entry ∉ loop) (ha : a ∉ loop)
    (hreach : Reaches edge entry c) (hc : c ∈ loop)
    (hall : ∀ visited, Walk edge entry c visited → a ∈ visited)
    (hwalk : Walk edge entry b visited) (hb : b ∈ loop) : a ∈ visited := by
  obtain ⟨before, after, rfl, -, -, hheader⟩ :=
    h.exists_entering hentry hwalk ⟨b, hwalk.end_mem, hb⟩
  obtain ⟨others, hothers⟩ := hreach
  obtain ⟨run, hrun, hinside⟩ := h.exists_run hentry hothers hc
  have hmem := hall _ (hheader.join hrun)
  have hheadermem : loop.header ∈ loop := hinside _ hrun.start_mem
  rcases List.mem_append.1 hmem with hmem | hmem
  · rcases List.mem_append.1 hmem with hmem | hmem
    · exact List.mem_append_left _ hmem
    · exact absurd (List.mem_singleton.1 hmem ▸ hheadermem) ha
  · exact absurd (hinside a (List.mem_of_mem_tail hmem)) ha

/-- What lies on every path to the preheader lies on every path into the loop. -/
theorem mem_of_mem_preheader (h : loop.Gated edge) (hentry : entry ∉ loop)
    (hall : ∀ visited, Walk edge entry loop.preheader visited → a ∈ visited)
    (hwalk : Walk edge entry b visited) (hb : b ∈ loop) : a ∈ visited := by
  obtain ⟨before, after, rfl, -, hbefore, -⟩ :=
    h.exists_entering hentry hwalk ⟨b, hwalk.end_mem, hb⟩
  exact List.mem_append_left _ (hall before hbefore)

/-- What lies inside the loop and on every path to a block lies on every path to it from the
header. -/
theorem mem_run (h : loop.Gated edge) (hentry : entry ∉ loop) (hheader : loop.header ∈ loop)
    (hreach : Reaches edge entry loop.header) (ha : a ∈ loop)
    (hall : ∀ visited, Walk edge entry b visited → a ∈ visited) {run : List BlockRef}
    (hrun : Walk edge loop.header b run) : a ∈ run := by
  obtain ⟨others, hothers⟩ := hreach
  obtain ⟨before, -, -, houtside, -, hfirst⟩ :=
    h.exists_entering hentry hothers ⟨_, hothers.end_mem, hheader⟩
  rcases List.mem_append.1 (hall _ (hfirst.join hrun)) with hmem | hmem
  · rcases List.mem_append.1 hmem with hmem | hmem
    · exact absurd ha (houtside a hmem)
    · exact List.mem_singleton.1 hmem ▸ hrun.start_mem
  · exact List.mem_of_mem_tail hmem

/-- If it lies on every path to some block behind the loop, it lies on every path from the
header to the exit. -/
theorem mem_run_exit (h : loop.Gated edge) (hentry : entry ∉ loop) (hheader : loop.header ∈ loop)
    (hreach : Reaches edge entry loop.header) (ha : a ∈ loop) (hb : b ∉ loop)
    (hreachb : Reaches edge entry b)
    (hall : ∀ visited, Walk edge entry b visited → a ∈ visited) {run : List BlockRef}
    (hrun : Walk edge loop.header loop.exit run) : a ∈ run := by
  obtain ⟨visited, hvisited⟩ := hreachb
  -- the way from the exit to `b` does not come back to the loop
  obtain ⟨d, before, after, hd, houtside, -, hlast, -⟩ :=
    hvisited.cut_last ⟨a, hall visited hvisited, ha⟩
  obtain ⟨-, ⟨-, rfl⟩ | ⟨x, hedge, hrest⟩⟩ := hlast.cons_cases
  · exact absurd hd hb
  · obtain rfl := h.leaving d x hedge hd (houtside x hrest.start_mem)
    have hmem := h.mem_run hentry hheader hreach ha hall (hrun.join hrest)
    rcases List.mem_append.1 hmem with hmem | hmem
    · exact hmem
    · exact absurd ha (houtside a (List.mem_of_mem_tail hmem))

/-- So it does if it lies on every path to the only block of the loop that leads to the
exit. -/
theorem mem_run_exit_of_last (h : loop.Gated edge) (hentry : entry ∉ loop)
    (hheader : loop.header ∈ loop) (hreach : Reaches edge entry loop.header) (ha : a ∈ loop)
    (hexit : loop.exit ∉ loop) (honly : ∀ c ∈ loop, edge c loop.exit → c = b)
    (hall : ∀ visited, Walk edge entry b visited → a ∈ visited) {run : List BlockRef}
    (hrun : Walk edge loop.header loop.exit run) : a ∈ run := by
  have houtside : ∃ x ∈ run, (fun x => x ∉ loop) x := ⟨loop.exit, hrun.end_mem, hexit⟩
  obtain ⟨d, before, after, hd, hinside, hfirst, -, rfl⟩ := hrun.cut_first houtside
  obtain ⟨rfl, -⟩ | ⟨x, before', hbefore, hedge, heq⟩ := hfirst.last_cases
  · exact absurd hheader hd
  · obtain rfl : before = before' := List.append_cancel_right heq
    have hx : x ∈ loop := not_not.1 (hinside x hbefore.end_mem)
    obtain rfl := h.leaving x d hedge hx hd
    obtain rfl := honly x hx hedge
    exact List.mem_append_left _ (h.mem_run hentry hheader hreach ha hall hbefore)

end Gated

end Loop

end Decouple
