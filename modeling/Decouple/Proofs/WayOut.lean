import Decouple.Proofs.WorkerFlow

/-!
# Every block of a worker leads to its exit

A branch of a worker may jump over blocks of the loop, also back to the header, and still no
part of a worker is without a way out. A branch goes to a block that lies on every path from
the original target to the exit of the loop (`PostDominates.mem_of_walk_between`). So if a block
of the loop has a path to the exit, then a branch of its copy goes to a block of the rest of that
path, from which the exit is nearer (`Worker.Body.exists_nearer`).

Nothing is asked of the blocks that concern a thread: they need not be closed under control
dependence.
-/

namespace Decouple

/-- What stands between a place and another one that post-dominates it lies on every walk from the
one to the other. -/
theorem PostDominates.mem_of_walk_between {α : Type} {edge : α → α → Prop} {isFinal : α → Prop}
    {a b c : α} {visited : List α} (hcb : PostDominates edge isFinal c b)
    (hac : PostDominates edge isFinal a c) (hends : ∃ d, isFinal d ∧ Reaches edge a d)
    (hwalk : Walk edge b a visited) : c ∈ visited := by
  by_contra hnot
  -- a walk on from `a` would have to meet `c`, so each of the two post-dominates the other
  have hca : PostDominates edge isFinal c a := by
    refine .of_forall_walk hends ?_
    intro d others hfinal hothers
    rcases List.mem_append.1 (hcb.mem_of_walk hfinal (hwalk.join hothers)) with hmem | hmem
    · exact absurd hmem hnot
    · exact List.mem_of_mem_tail hmem
  obtain rfl := hca.antisymm hac
  exact hnot hwalk.end_mem

namespace Loop.Leaves

variable {loop : Loop} {p : Program} {layout : List BlockRef} {b : BlockRef}

/-- There is a path from every block of the loop through the loop to the exit, and one from there
to the end of the function. -/
theorem exists_run (h : loop.Leaves p layout) (hb : b ∈ loop) :
    (∃ run, Walk (p.FlowEdge layout) b loop.exit (run ++ [loop.exit]) ∧ ∀ x ∈ run, x ∈ loop) ∧
      ∃ c, p.FlowFinal layout c ∧ Reaches (p.FlowEdge layout) loop.exit c := by
  obtain ⟨c, hfinal, visited, hwalk⟩ := h.ends b hb
  have hmem : ∃ x ∈ visited, x = loop.exit :=
    ⟨loop.exit, (h.postDominates_exit hb).mem_of_walk hfinal hwalk, rfl⟩
  obtain ⟨_, run, after, rfl, hrun, hfirst, hrest, -⟩ := hwalk.cut_first hmem
  exact ⟨⟨run, hfirst, h.mem_of_skipped (.inl hb) hfirst hrun⟩, c, hfinal, _, hrest⟩

end Loop.Leaves

namespace Worker.Body

variable {s : Setting} {p q : Program} {func wfunc : Func} {f : FuncRef} {workers : List Worker}
  {blocks : List BlockRef} {here : BlockRef → List (InstrRef × InstrRef)} {σ : Renaming}
  {w : Worker} {b copy : BlockRef}

/-- The first branch on a path to the exit of the loop leads, in the worker, to a block of the
rest of the path. -/
theorem exists_nearer (h : Body s p blocks here σ w q)
    (hinto : Splitter.SplitInto s p func workers q) (hwell : p.WellFormed f func)
    (hloop : ∀ b ∈ s.loop, b ∈ func.blocks) (hleaves : s.loop.Leaves p func.blocks)
    (hwfunc : q.func? w.func = some wfunc) (hb : b ∈ blocks)
    (hcopy : w.blockMap[b]? = some copy) {run : List BlockRef}
    (hwalk : Walk (p.FlowEdge func.blocks) b s.loop.exit (run ++ [s.loop.exit]))
    (hrun : ∀ x ∈ run, x ∈ s.loop) :
    ∃ c copy' rest, (c ∈ blocks ∨ c = s.loop.exit) ∧ w.blockMap[c]? = some copy' ∧
      q.FlowEdge wfunc.blocks copy copy' ∧
      Walk (p.FlowEdge func.blocks) c s.loop.exit (rest ++ [s.loop.exit]) ∧
      (∀ x ∈ rest, x ∈ s.loop) ∧ rest.length < run.length := by
  have hbloop := h.mem_loop hb
  cases run with
  | nil =>
      -- a path without blocks of the loop would start at the exit
      obtain ⟨rfl, -⟩ := hwalk.cons_cases
      exact absurd hbloop hinto.exit_not_mem
  | cons first run =>
      obtain ⟨rfl, ⟨hnil, -⟩ | ⟨d, hedge, htail⟩⟩ := hwalk.cons_cases
      · simp at hnil
      obtain ⟨targets, htargets, -, hok⟩ :=
        h.successors_copy hwell (hloop first hbloop) hb hcopy
      obtain ⟨-, -, targets', htargets', hd⟩ := id hedge
      obtain rfl := Except.ok.inj (htargets.symm.trans htargets')
      obtain ⟨hdloop, c, hc, hcd, hnearest⟩ := copyOfTarget_eq_ok hinto.postDom (hok d hd)
      have hexit : p.FlowPostDominates func.blocks s.loop.exit d := by
        rcases hdloop with hdloop | rfl
        · exact hleaves.postDominates_exit hdloop
        · exact .refl _ _ _
      have hbetween := hnearest s.loop.exit hexit (h.isSome_blockMap (.inr rfl))
      have hmem : c ∈ run ++ [s.loop.exit] :=
        hcd.mem_of_walk_between hbetween (hleaves.exists_run hbloop).2 htail
      have hinside : ∀ x ∈ run, x ∈ s.loop := fun x hx => hrun x (List.mem_cons_of_mem _ hx)
      have hcases : c ∈ blocks ∨ c = s.loop.exit := by
        rcases List.mem_append.1 hmem with hmem | hmem
        · exact .inl ((h.isSome_blockMap_iff hinto.exit_not_mem hinto.preheader_not_mem
            (hinside c hmem)).1 (Option.isSome_of_mem hc))
        · exact .inr (List.mem_singleton.1 hmem)
      have hflow : q.FlowEdge wfunc.blocks copy (Op.changed (copyOfTarget s w.blockMap) d) := by
        refine h.flowEdge_of_copyOfTarget hwell hloop hwfunc hb hcopy hedge hcases hc ?_
        intro found hfound
        rw [hc, Op.changed_eq hfound]
      rcases List.mem_append.1 hmem with hmem | hmem
      · obtain ⟨before, rest, rfl⟩ := List.append_of_mem hmem
        have htail : Walk (p.FlowEdge func.blocks) d s.loop.exit
            (before ++ c :: (rest ++ [s.loop.exit])) := by simpa using htail
        refine ⟨c, _, c :: rest, hcases, hc, hflow, htail.parts.2, ?_, ?_⟩
        · exact fun x hx => hinside x (List.mem_append_right _ hx)
        · simp only [List.length_cons, List.length_append]
          omega
      · obtain rfl := List.mem_singleton.1 hmem
        exact ⟨_, _, [], hcases, hc, hflow, .stay _, by simp, by simp⟩

/-- The copy of every block leads to the exit of the worker. -/
theorem reaches_exit (h : Body s p blocks here σ w q)
    (hinto : Splitter.SplitInto s p func workers q) (hwell : p.WellFormed f func)
    (hloop : ∀ b ∈ s.loop, b ∈ func.blocks) (hleaves : s.loop.Leaves p func.blocks)
    (hwfunc : q.func? w.func = some wfunc) (hb : b ∈ blocks)
    (hcopy : w.blockMap[b]? = some copy) :
    Reaches (q.FlowEdge wfunc.blocks) copy w.exit := by
  obtain ⟨⟨run, hwalk, hrun⟩, -⟩ := hleaves.exists_run (h.mem_loop hb)
  -- along the branches to nearer blocks the paths to the exit of the loop get shorter
  induction hlength : run.length using Nat.strong_induction_on generalizing b copy run with
  | _ n ih =>
      obtain ⟨c, copy', rest, hc, hcopy', hedge, hwalk', hrest, hlt⟩ :=
        h.exists_nearer hinto hwell hloop hleaves hwfunc hb hcopy hwalk hrun
      refine (Reaches.of_edge hedge).trans ?_
      rcases hc with hc | rfl
      · exact ih rest.length (hlength ▸ hlt) hc hcopy' rest hwalk' hrest rfl
      · obtain rfl := Option.some.inj (hcopy'.symm.trans h.exit_eq)
        exact .refl _

end Worker.Body

namespace Splitter

/-- No worker traps control: its exit is in reach from its entry, from every copied block and so
from all of its blocks, whatever blocks of the loop it has copies of. -/
theorem split_leads_out {splitter splitter' : Splitter} {p q : Program} {f : FuncRef}
    {func : Func} {loop : Loop} {deps : Dependences} {plan : Plan} {result : Split}
    (hsplit : splitter.split p f loop deps plan = (.ok result, splitter', q))
    (hfunc : p.func? f = some func) (hcheck : p.check f = .ok ()) (hnodup : loop.blocks.Nodup)
    (hloop : ∀ b ∈ loop, b ∈ func.blocks)
    (hsuccs : ∀ b ∈ loop, ∃ targets, p.successors b = .ok targets ∧ targets ≠ [] ∧
      ∀ t ∈ targets, t ∈ loop ∨ t = loop.exit)
    (hfinal : ∀ b ∈ loop, ∃ c, p.FlowFinal func.blocks c ∧
      Reaches (p.FlowEdge func.blocks) b c) :
    result.workers.length = plan.threads ∧ ∀ w ∈ result.workers, ∃ wfunc,
      q.func? w.func = some wfunc ∧ wfunc.blocks.head? = some w.entry ∧
      (∀ b copy : BlockRef, w.blockMap[b]? = some copy → copy ∈ wfunc.blocks) ∧
      ∀ c ∈ wfunc.blocks, Reaches (q.FlowEdge wfunc.blocks) c w.exit := by
  obtain ⟨func', hwell⟩ := Program.wellFormed_of_check hcheck
  obtain rfl := Option.some.inj (hfunc.symm.trans hwell.lookup)
  obtain ⟨s, -, rfl, rfl, rfl, hinto⟩ := splitInto_of_split hwell hnodup hloop hsplit
  have hleaves : s.loop.Leaves p func.blocks := .of_successors hloop hinto.exit_mem hsuccs hfinal
  refine ⟨by simpa using congrArg List.length hinto.map_thread, ?_⟩
  intro w hw
  obtain ⟨blocks, here, σ, hbody⟩ := hinto.exists_body hw
  obtain ⟨wfunc, hwfunc, harranged⟩ := hbody.layout
  have hcopies : ∀ b ∈ blocks, ∀ copy, w.blockMap[b]? = some copy →
      Reaches (q.FlowEdge wfunc.blocks) copy w.exit := fun b hb copy hcopy =>
    hbody.reaches_exit hinto hwell hloop hleaves hwfunc hb hcopy
  refine ⟨wfunc, hwfunc, harranged.head?_eq, fun b copy => hbody.mem_layout hwfunc, ?_⟩
  intro c hc
  rcases harranged.cases hc with rfl | rfl | ⟨b, hb, hcopy⟩
  · obtain ⟨header, hheader, hentry⟩ := hbody.successors_entry
    have hedge : q.FlowEdge wfunc.blocks w.entry header :=
      ⟨hc, hbody.mem_layout hwfunc hheader, _, hentry, List.mem_singleton_self _⟩
    exact (Reaches.of_edge hedge).trans (hcopies _ hbody.header_mem header hheader)
  · exact .refl _
  · exact hcopies b hb c hcopy

theorem split_leads_out_counting :
    ∃ result splitter' q w wfunc, (ofConfig Config.standard).split Counting.program ⟨0⟩
        Counting.loop Counting.setting.deps Counting.setting.plan = (.ok result, splitter', q) ∧
      result.workers[1]? = some w ∧ q.func? w.func = some wfunc ∧
      w.blockMap[(⟨3⟩ : BlockRef)]? = none ∧ w.entry ∈ wfunc.blocks ∧
      ∀ c ∈ wfunc.blocks, Reaches (q.FlowEdge wfunc.blocks) c w.exit := by
  obtain ⟨result, splitter', q, hsplit, hskipped⟩ := exists_of_any (ofConfig Config.standard)
    Counting.program ⟨0⟩ Counting.loop Counting.setting.deps Counting.setting.plan
    (fun result _ => result.workers[1]?.any fun w => w.blockMap[(⟨3⟩ : BlockRef)]?.isNone)
    (by decide +kernel)
  obtain ⟨w, hw, hnone⟩ := (Option.any_eq_true _ _).1 hskipped
  have hfunc : Counting.program.func? ⟨0⟩ = some Counting.func := rfl
  obtain ⟨-, hworkers⟩ := split_leads_out hsplit hfunc (by decide) (by decide) (by decide)
    Counting.successors_inside
    fun b hb => ⟨⟨4⟩, Counting.flowFinal_exit, Counting.reaches_exit b hb⟩
  obtain ⟨wfunc, hwfunc, hentry, -, hreach⟩ := hworkers w (List.mem_of_getElem? hw)
  exact ⟨result, splitter', q, w, wfunc, hsplit, hw, hwfunc, Option.isNone_iff_eq_none.1 hnone,
    List.mem_of_head? hentry, hreach⟩

end Splitter

end Decouple
