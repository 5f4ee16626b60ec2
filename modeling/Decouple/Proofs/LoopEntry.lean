import Decouple.Proofs.Arguments
import Decouple.Proofs.Replacement

/-!
# Where the φs of the workers come from

A φ of the loop that comes from the preheader comes, in a worker, from the block that stands for
the preheader (`Worker.EntersBy`). This is the entry of the worker, unless the preheader is the
exit of the loop as well: the exit is entered last into the map of the blocks, so its copy stands
for both of them, and the φ comes from a block that no branch leaves (`Worker.arrival`). A loop
inside another one has such a preheader if it leaves for the block that it was entered from.

The value that the copy reads is the substitute of the value the φ reads once the block in the
place of the loop is installed. The φ still reads what it read before if no block outside the loop
lists it, and the check at the end sees to that if the header is in the layout.
-/

namespace Decouple

open Outcome

namespace Worker

/-- The copies of the φs that come from the preheader come from the block of the worker that
stands for it. -/
structure EntersBy (w : Worker) (loop : Loop) (q : Program) : Prop where
  exit_eq : w.blockMap[loop.exit]? = some w.exit
  preheader_eq : w.blockMap[loop.preheader]? = some (w.arrival loop)
  entry_ne_exit : w.entry ≠ w.exit
  incoming : ∀ pair ∈ w.copies, ∃ source copy, q.instr? pair.1 = some source ∧
    q.instr? pair.2 = some copy ∧ copy.op.incoming.length = source.op.incoming.length ∧
    ∀ (k : Nat) (v : Value), source.op.incoming[k]? = some (v, loop.preheader) →
      ∃ u : Value, copy.op.incoming[k]? = some (u, w.arrival loop)

section EntersBy

variable {s : Setting} {p q r : Program} {w : Worker} {loop : Loop}

theorem EntersBy.grow (h : w.EntersBy loop q) (hgrows : Grows q r) : w.EntersBy loop r where
  exit_eq := h.exit_eq
  preheader_eq := h.preheader_eq
  entry_ne_exit := h.entry_ne_exit
  incoming := by
    intro pair hpair
    obtain ⟨source, copy, hsource, hcopy, hincoming⟩ := h.incoming pair hpair
    exact ⟨source, copy, hgrows.instr?_kept hsource, hgrows.instr?_kept hcopy, hincoming⟩

theorem getElem?_incoming_copied {blockMap : Std.TreeMap BlockRef BlockRef} {op : Op} {k : Nat}
    {v : Value} {pred copy : BlockRef} (hk : op.incoming[k]? = some (v, pred))
    (hcopy : blockMap[pred]? = some copy) :
    (copied s blockMap op).incoming[k]? = some (v, copy) := by
  have hchanged : Op.changed (copyOfPred s blockMap) pred = copy :=
    Op.changed_eq (copyOfPred_of_getElem? hcopy)
  simp [copied, hk, hchanged]

theorem entersBy_of_build {d : Dispatch} {thread : Nat} (hshares : Shares p p s.loop)
    (hpreheader : s.loop.preheader ∉ s.loop) (hexit : s.loop.exit ∉ s.loop)
    (h : (build s d thread).apply p = (.ok w, q)) : Grows p q ∧ w.EntersBy s.loop q := by
  obtain ⟨f, func, blocks, pairs, σ, header, stores, p₁, p₂, w₀, hfunc, hempty, -, hstages, -,
    rfl⟩ := stages_of_build hshares hpreheader hexit h
  have hgrows := hstages.grows hfunc hempty
  obtain ⟨wfunc, -, hframed, -⟩ := hstages.skeleton.layout
  refine ⟨hgrows, hstages.skeleton.exit_eq, hstages.skeleton.arrival_eq, hframed.entry_ne_exit, ?_⟩
  intro pair hpair
  obtain ⟨b, -, copy, -, hcopy⟩ := hstages.copied.copies pair hpair
  obtain ⟨source, name, hsource, -, hname⟩ := hstages.copies hpair hcopy
  refine ⟨source, _, hgrows.instr?_kept hsource, hname, ?_, ?_⟩
  · simp [Op.incoming_mapOperands, copied]
  · intro k v hk
    refine ⟨σ.rename v, ?_⟩
    rw [Op.incoming_mapOperands, List.getElem?_map,
      getElem?_incoming_copied hk hstages.skeleton.arrival_eq]
    rfl

theorem entersBy_of_mapM {d : Dispatch} {threads : List Nat} {workers : List Worker}
    (hshares : Shares p p s.loop) (hpreheader : s.loop.preheader ∉ s.loop)
    (hexit : s.loop.exit ∉ s.loop)
    (h : (threads.mapM (build s d)).apply p = (.ok workers, q)) :
    ∀ w ∈ workers, w.EntersBy s.loop q := by
  intro w hw
  obtain ⟨thread, -, before, after, hbefore, hbuild, hafter⟩ :=
    exists_of_forall₂_of_mem (Splitter.builds_of_mapM hshares hpreheader hexit h) hw
  exact (entersBy_of_build hbefore.self hpreheader hexit hbuild).2.grow hafter

end EntersBy

/-- The φs of the header that come from the preheader, and their copies in the worker. Here `σ`
has the substitutes: what the worker loads for a live-in, and its copy of another value. -/
def CopiesEntryEdges (w : Worker) (p : Program) (func : Func) (loop : Loop) (σ : Renaming)
    (q : Program) : Prop :=
  ∀ pair ∈ w.copies, p.Lists loop.header pair.1 → ∀ instr, p.instr? pair.1 = some instr →
    ∃ source copy, q.instr? pair.1 = some source ∧ q.instr? pair.2 = some copy ∧
      copy.op.incoming.length = instr.op.incoming.length ∧
      ∀ (k : Nat) (v : Value), instr.op.incoming[k]? = some (v, loop.preheader) →
        ∃ u : Value, source.op.incoming[k]? = some (u, loop.preheader) ∧
          copy.op.incoming[k]? = some (σ.rename u, w.arrival loop) ∧
          (loop.header ∈ func.blocks ∨ (∀ b ∈ func.blocks, b ∉ loop → ¬ p.Lists b pair.1) →
            u = v)

end Worker

namespace Dispatch

variable {s : Setting} {p : Program} {func : Func} {d : Dispatch}

theorem incoming_adjusted (i : InstrRef) (instr : Instr) :
    (adjusted s p func d i instr).op.incoming = instr.op.incoming.map fun (v, pred) =>
      ((outRenaming s d.workers p.instrs.size).rename^[
          (p.listedIn (func.blocks.filter (isOutside s d.block))).count i] v,
        if (p.listedIn [s.loop.exit]).count i = 0 then pred else s.loop.image d.block pred) := by
  rw [adjusted, renamed_iterate_op, Op.incoming_mapOperands, (reroute_iterate_op ..).2.2,
    (turn_iterate_op ..).2.2, List.map_map]
  rfl

/-- A φ that comes from the preheader still does, and it reads the same value if no block outside
the loop lists it. -/
theorem exists_incoming_adjusted {i : InstrRef} {instr : Instr} {k : Nat} {v : Value}
    (hpreheader : s.loop.preheader ∉ s.loop)
    (hk : instr.op.incoming[k]? = some (v, s.loop.preheader)) :
    ∃ u, (adjusted s p func d i instr).op.incoming[k]? = some (u, s.loop.preheader) ∧
      ((∀ b ∈ func.blocks, b ∉ s.loop → ¬ p.Lists b i) → u = v) := by
  have himage : s.loop.image d.block s.loop.preheader = s.loop.preheader := if_neg hpreheader
  refine ⟨(outRenaming s d.workers p.instrs.size).rename^[
    (p.listedIn (func.blocks.filter (isOutside s d.block))).count i] v, ?_, ?_⟩
  · rw [incoming_adjusted, List.getElem?_map, hk]
    simp only [Option.map_some, himage, ite_self]
  · intro hfree
    rw [count_outside_eq_zero hfree]
    rfl

end Dispatch

namespace Splitter

variable {p q : Program} {f : FuncRef} {func : Func} {loop : Loop} {deps : Dependences}
  {plan : Plan} {splitter splitter' : Splitter} {result : Split}

theorem entersBy_of_split
    (h : splitter.split p f loop deps plan = (.ok result, splitter', q)) :
    ∀ w ∈ result.workers, w.EntersBy loop q := by
  obtain ⟨hrequest, s, hsetting, hsplit⟩ := split_eq_ok h
  obtain ⟨-, -, hpreheader⟩ := checkRequest_eq_ok hrequest
  obtain ⟨rfl, rfl, rfl, rfl, -, hlive, -⟩ := setting_eq_ok hsetting
  obtain ⟨d, between, hinstall, hworkers, -⟩ := splitIn_eq_ok hsplit
  obtain ⟨func, code, hinstalled⟩ := Dispatch.installed_of_install hinstall
  exact Worker.entersBy_of_mapM
    (hinstalled.shares_self (Liveness.describes_of_ofLoop hlive)) hpreheader
    hinstalled.exit_not_mem hworkers

namespace Passes

variable {s : Setting} {d : Dispatch} {code : List (Op × Ty)} {between : Program}

/-- What a block lists before the split, it lists after it. -/
theorem lists_kept (h : Passes s p func d code between q result) {b : BlockRef} {i : InstrRef}
    (hi : p.Lists b i) : q.Lists b i := by
  obtain ⟨block, hblock, hmem⟩ := hi
  have hbetween := h.installed.block?_kept b (h.installed.ne_block (by rw [hblock]; rfl))
  exact ⟨block, h.larger.block?_kept (hbetween.trans hblock), hmem⟩

/-- If the function is well-formed after the split, then what a block of the loop lists is not
listed outside the loop, provided that the block is in the layout. -/
theorem not_lists_outside (h : Passes s p func d code between q result)
    (hcheck : q.check s.func = .ok ()) {a : BlockRef} {i : InstrRef} (ha : a ∈ func.blocks)
    (haloop : a ∈ s.loop) (hai : p.Lists a i) :
    ∀ b ∈ func.blocks, b ∉ s.loop → ¬ p.Lists b i := by
  intro b hb hbloop hbi
  obtain ⟨func', hwell⟩ := Program.wellFormed_of_check hcheck
  obtain ⟨func₁, hlayout, hmem, -⟩ := h.installed.exists_layout
  have hkept : ∀ c ∈ func.blocks, c ∈ func₁.blocks := fun c hc => (hmem c).2 (.inr hc)
  have hlookup := h.larger.func?_kept _ _ hlayout (List.ne_nil_of_mem (hkept a ha))
  obtain rfl := Option.some.inj (hwell.lookup.symm.trans hlookup)
  obtain rfl := hwell.listedOnce a (hkept a ha) b (hkept b hb) i (h.lists_kept hai)
    (h.lists_kept hbi)
  exact hbloop haloop

/-- The substitutes of the worker are put into the copies of the edges from the preheader. -/
theorem copiesEntryEdges (h : Passes s p func d code between q result)
    (hheader : s.loop.header ∈ s.loop) (hpreheader : s.loop.preheader ∉ s.loop)
    (hcheck : q.check s.func = .ok ()) {w : Worker} (henters : w.EntersBy s.loop q) {σ : Renaming}
    (hcopies : ∀ pair ∈ w.copies, ∃ source copy, q.instr? pair.1 = some source ∧
      q.instr? pair.2 = some copy ∧ copy.op.operands = source.op.operands.map σ.rename) :
    w.CopiesEntryEdges p func s.loop σ q := by
  intro pair hpair hlists instr hinstr
  obtain ⟨source, copy, hsource, hcopy, hlength, hincoming⟩ := henters.incoming pair hpair
  obtain ⟨source', copy', hsource', hcopy', hoperands⟩ := hcopies pair hpair
  obtain rfl := Option.some.inj (hsource.symm.trans hsource')
  obtain rfl := Option.some.inj (hcopy.symm.trans hcopy')
  -- the workers are built from the instruction as the installation left it
  have hadjusted := h.larger.instr?_kept (h.installed.instr?_some hinstr)
  obtain rfl := Option.some.inj (hsource.symm.trans hadjusted)
  refine ⟨_, copy, hsource, hcopy, ?_, fun k v hk => ?_⟩
  · rw [hlength, Dispatch.incoming_adjusted, List.length_map]
  obtain ⟨u, hu, hsame⟩ := Dispatch.exists_incoming_adjusted hpreheader hk
  obtain ⟨u', hu'⟩ := hincoming k u hu
  have hvalue : copy.op.operands[k]? = some (σ.rename u) := by
    rw [hoperands, List.getElem?_map, Op.getElem?_operands_of_incoming hu, Option.map_some]
  obtain rfl := Option.some.inj ((Op.getElem?_operands_of_incoming hu').symm.trans hvalue)
  refine ⟨u, hu, hu', ?_⟩
  rintro (hlayout | hfree)
  · exact hsame (h.not_lists_outside hcheck hlayout hheader hlists)
  · exact hsame hfree

end Passes

/-- In every worker the exit of the loop has the exit of the worker to stand for it, and the
preheader has the entry, unless the loop leaves for its preheader. Edges of the φs of the header
from the preheader come from there and have the substitute of their value. -/
theorem split_enters_by_arrival (hverify : splitter.config.verify) (hfunc : p.func? f = some func)
    (hsplit : splitter.split p f loop deps plan = (.ok result, splitter', q)) :
    ∀ w ∈ result.workers, w.blockMap[loop.exit]? = some w.exit ∧
      w.blockMap[loop.preheader]? = some (w.arrival loop) ∧ w.entry ≠ w.exit ∧ ∃ σ : Renaming,
        (∀ k v, result.live.liveIn[k]? = some v →
          ∃ ty, w.Receives result.exchange loop σ q k v ty) ∧
        (∀ v, v ∉ result.live.liveIn → σ[v]? = (Worker.copyRenaming w.copies)[v]?) ∧
        w.CopiesEntryEdges p func loop σ q := by
  intro w hw
  have henters := entersBy_of_split hsplit w hw
  have hcheck := check_of_split hverify hsplit
  obtain ⟨-, hheader, hpreheader⟩ := checkRequest_eq_ok (split_eq_ok hsplit).1
  obtain ⟨s, func', d, code, between, rfl, rfl, rfl, hpasses⟩ := passes_of_split hsplit
  obtain rfl := Option.some.inj (hfunc.symm.trans hpasses.installed.lookup)
  obtain ⟨σ, hloads, hothers, hcopies⟩ := hpasses.marshalsArgs.received w hw
  refine ⟨henters.exit_eq, henters.preheader_eq, henters.entry_ne_exit, σ, fun k v hv => ?_,
    hothers, hpasses.copiesEntryEdges hheader hpreheader hcheck henters hcopies⟩
  obtain ⟨ty, -, -, hreceives⟩ := hloads k v hv
  exact ⟨ty, hreceives⟩

/-- The first worker of the function that counts copies the φ; its count starts at zero, which it
gets from its entry. -/
theorem split_enters_by_arrival_counting :
    ∃ result splitter' q w copy, (ofConfig Config.standard).split Counting.program ⟨0⟩
        Counting.loop Counting.setting.deps Counting.setting.plan = (.ok result, splitter', q) ∧
      Config.standard.verify ∧ Counting.program.func? ⟨0⟩ = some Counting.func ∧
      w ∈ result.workers ∧ w.blockMap[Counting.loop.preheader]? = some w.entry ∧
      (⟨1⟩, copy) ∈ w.copies ∧ ∃ instr, q.instr? copy = some instr ∧
        instr.op.incoming[0]? = some (.i32 0, w.entry) := by
  obtain ⟨result, splitter', q, hsplit, hrun⟩ := exists_of_any (ofConfig Config.standard)
    Counting.program ⟨0⟩ Counting.loop Counting.setting.deps Counting.setting.plan
    (fun result _ => ∃ w ∈ result.workers, ∃ pair ∈ w.copies, pair.1 = ⟨1⟩ ∧
      Value.i32 0 ∉ result.live.liveIn ∧ (Worker.copyRenaming w.copies)[Value.i32 0]? = none)
    (by decide +kernel)
  obtain ⟨w, hw, ⟨_, copy⟩, hpair, rfl, hin, hnone⟩ := of_decide_eq_true hrun
  have hfunc : Counting.program.func? ⟨0⟩ = some Counting.func := rfl
  have hlists : Counting.program.Lists Counting.loop.header ⟨1⟩ := ⟨_, rfl, by decide⟩
  have harrival : w.arrival Counting.loop = w.entry := if_neg (by decide)
  obtain ⟨-, hpreheader, -, σ, -, hothers, hedges⟩ :=
    split_enters_by_arrival (by rfl) hfunc hsplit w hw
  obtain ⟨source, instr, -, hinstr, -, hincoming⟩ :=
    hedges (⟨1⟩, copy) hpair hlists _ rfl
  obtain ⟨u, -, hcopy, hsame⟩ := hincoming 0 (.i32 0) rfl
  obtain rfl := hsame (.inl (by decide))
  have hrename : σ.rename (.i32 0) = .i32 0 := by
    rw [Renaming.rename, hothers _ hin, hnone]
    rfl
  rw [hrename, harrival] at hcopy
  exact ⟨result, splitter', q, w, copy, hsplit, rfl, hfunc, hw, harrival ▸ hpreheader, hpair,
    instr, hinstr, hcopy⟩

end Splitter

/-! A function with a loop inside a loop: the inner loop is entered from the header of the outer
loop, and it leaves for this block. -/

namespace Rounds

/-- Block 0 leads to the header 1 of the outer loop, which is left for 4. The inner loop has the
header 2, goes round through 3 and leaves for 1. -/
def program : Program where
  funcs := #[
    { name := "rounds"
      params := [.i32]
      ret := .i32
      blocks := [⟨0⟩, ⟨1⟩, ⟨2⟩, ⟨3⟩, ⟨4⟩]
      external := false }]
  blocks := #[
    { name := "entry", func := ⟨0⟩, instrs := [⟨0⟩] },
    { name := "gate", func := ⟨0⟩, instrs := [⟨1⟩, ⟨2⟩, ⟨3⟩] },
    { name := "header", func := ⟨0⟩, instrs := [⟨4⟩, ⟨5⟩, ⟨6⟩] },
    { name := "latch", func := ⟨0⟩, instrs := [⟨7⟩, ⟨8⟩] },
    { name := "end", func := ⟨0⟩, instrs := [⟨9⟩] }]
  instrs := #[
    ⟨some ⟨0⟩, .br ⟨1⟩, .void, none⟩,
    ⟨some ⟨1⟩, .phi [(.i32 0, ⟨0⟩), (.instr ⟨4⟩, ⟨2⟩)], .i32, some "total"⟩,
    ⟨some ⟨1⟩, .compare .slt (.instr ⟨1⟩) (.param ⟨0⟩ 0), .i1, some "more"⟩,
    ⟨some ⟨1⟩, .condBr (.instr ⟨2⟩) ⟨2⟩ ⟨4⟩, .void, none⟩,
    ⟨some ⟨2⟩, .phi [(.instr ⟨1⟩, ⟨1⟩), (.instr ⟨7⟩, ⟨3⟩)], .i32, some "i"⟩,
    ⟨some ⟨2⟩, .compare .slt (.instr ⟨4⟩) (.param ⟨0⟩ 0), .i1, some "again"⟩,
    ⟨some ⟨2⟩, .condBr (.instr ⟨5⟩) ⟨3⟩ ⟨1⟩, .void, none⟩,
    ⟨some ⟨3⟩, .binary .add (.instr ⟨4⟩) (.i32 1), .i32, some "next"⟩,
    ⟨some ⟨3⟩, .br ⟨2⟩, .void, none⟩,
    ⟨some ⟨4⟩, .ret (some (.instr ⟨1⟩)), .void, none⟩]
  structs := #[]

def loop : Loop := ⟨⟨2⟩, ⟨1⟩, ⟨1⟩, [⟨2⟩, ⟨3⟩]⟩

def plan : Plan := ⟨1, [⟨0, [⟨4⟩, ⟨5⟩, ⟨7⟩]⟩]⟩

def config : Config := { threads := 1, verify := true }

end Rounds

/-- The copy of the φ comes from the exit of the worker and not from its entry, though the entry
is the block that goes to it. -/
theorem Splitter.split_enters_by_exit_rounds :
    Rounds.program.check ⟨0⟩ = .ok () ∧ Rounds.config.verify ∧
      ∃ result splitter' q w copy instr, (ofConfig Rounds.config).split Rounds.program ⟨0⟩
          Rounds.loop ⟨[]⟩ Rounds.plan = (.ok result, splitter', q) ∧
        w ∈ result.workers ∧ w.blockMap[Rounds.loop.preheader]? = some w.exit ∧
        Rounds.program.Lists Rounds.loop.header ⟨4⟩ ∧ (⟨4⟩, copy) ∈ w.copies ∧
        q.instr? copy = some instr ∧ w.exit ∈ instr.op.incoming.map Prod.snd ∧
        w.entry ∉ instr.op.incoming.map Prod.snd := by
  obtain ⟨result, splitter', q, hsplit, hrun⟩ := exists_of_any (ofConfig Rounds.config)
    Rounds.program ⟨0⟩ Rounds.loop ⟨[]⟩ Rounds.plan
    (fun result q => ∃ w ∈ result.workers, w.blockMap[Rounds.loop.preheader]? = some w.exit ∧
      ∃ pair ∈ w.copies, pair.1 = ⟨4⟩ ∧ ∃ instr ∈ q.instr? pair.2,
        w.exit ∈ instr.op.incoming.map Prod.snd ∧ w.entry ∉ instr.op.incoming.map Prod.snd)
    (by decide +kernel)
  obtain ⟨w, hw, hpreheader, ⟨_, copy⟩, hpair, rfl, instr, hinstr, hexit, hentry⟩ :=
    of_decide_eq_true hrun
  exact ⟨by decide +kernel, rfl, result, splitter', q, w, copy, instr, hsplit, hw, hpreheader,
    ⟨_, rfl, by decide⟩, hpair, hinstr, hexit, hentry⟩

end Decouple
