import Decouple.Proofs.Ownership

/-!
# Instructions that no thread runs

A plan may leave out instructions of the loop. Each worker looks at the instructions of the blocks
it copies, and refuses to go on at one that no thread runs. So every instruction in a block that
concerns some thread belongs to an SCC. The blocks that concern no thread are not looked at by
any worker. What is in such a block has no copy anywhere, and if the plan has left it out, the
split succeeds without it (`Splitter.split_passes_over_unowned`).
-/

namespace Decouple

open Outcome

namespace Worker

variable {s : Setting} {d : Dispatch} {w : Worker} {o p q : Program} {thread : Nat}
  {b copy : BlockRef} {blocks : List BlockRef} {i : InstrRef} {instr : Instr}
  {is : List InstrRef} {pairs : List (InstrRef × InstrRef)}

/-- Some thread runs the instruction, unless it is a terminator. -/
def Owned (plan : Plan) (p : Program) (i : InstrRef) : Prop :=
  ∀ instr, p.instr? i = some instr → ¬ instr.op.isTerminator →
    ∃ owner, plan.threadOf? i = some owner

theorem exists_owner_of_isCopied {taken : Bool} (h : isCopied p s thread b i instr = .ok taken)
    (hterm : ¬ instr.op.isTerminator) : ∃ owner, s.plan.threadOf? i = some owner := by
  unfold isCopied at h
  rw [if_neg hterm] at h
  split at h
  · next owner howner => exact ⟨owner, howner⟩
  · obtain ⟨_, -, h⟩ := bind_eq_ok_iff.1 h
    obtain ⟨_, -, h⟩ := bind_eq_ok_iff.1 h
    cases h

/-- Copying goes on past owned instructions only. -/
theorem owned_of_copyInstrs
    (hsame : ∀ i ∈ is, i.index < p.instrs.size ∧ p.instr? i = o.instr? i)
    (h : (copyInstrs s w b copy is).apply p = (.ok pairs, q)) : ∀ i ∈ is, Owned s.plan o i := by
  induction is generalizing p pairs with
  | nil => simp
  | cons i is ih =>
      obtain ⟨⟨-, hi⟩, hrest⟩ := List.forall_mem_cons.1 hsame
      obtain ⟨instr, hinstr, hcases⟩ := copyInstrs_cons_eq_ok h
      have howned : ∀ {taken}, isCopied p s w.thread b i instr = .ok taken → Owned s.plan o i := by
        intro taken htaken instr' hinstr' hterm
        rw [← hi, hinstr] at hinstr'
        obtain rfl := Option.some.inj hinstr'
        exact exists_owner_of_isCopied htaken hterm
      rcases hcases with ⟨htaken, h⟩ | ⟨htaken, op, clone, later, p₁, -, hclone, hlater, rfl⟩
      · exact List.forall_mem_cons.2 ⟨howned htaken, ih hrest h⟩
      · obtain ⟨rfl, hwrites⟩ := Writes.of_appendInstr hclone
        refine List.forall_mem_cons.2 ⟨howned htaken, ih (fun j hj => ?_) hlater⟩
        obtain ⟨hlt, hsame⟩ := hrest j hj
        rw [hwrites.instr?_old hlt, hwrites.size_eq]
        exact ⟨Nat.lt_add_right _ hlt, hsame⟩

theorem Copyable.owned (hcopyable : Copyable w o blocks p)
    (h : (copyBlocks s w blocks).apply p = (.ok pairs, q)) :
    ∀ b ∈ blocks, ∀ i, o.Lists b i → Owned s.plan o i := by
  induction blocks generalizing p pairs with
  | nil => simp
  | cons b blocks ih =>
      obtain ⟨copy, block, first, later, p₁, hcopy, hblock, hfirst, hlater, rfl⟩ :=
        copyBlocks_cons_eq_ok h
      have hhead : b ∈ b :: blocks := List.mem_cons_self ..
      have hcopyBlock := Array.getElem?_eq_getElem (hcopyable.copy b hhead copy hcopy).2
      obtain ⟨-, -, -, -, ops, -, hwrites⟩ := copyInstrs_writes
        ⟨_, _, hcopyBlock, (List.append_nil _).symm⟩ hfirst
      have hold : o.block? b = some block := hcopyable.block? b hhead ▸ hblock
      refine List.forall_mem_cons.2 ⟨?_, ih (hcopyable.of_writes hcopy hwrites) hlater⟩
      rintro i ⟨block', hblock', hi⟩
      obtain rfl := Option.some.inj (hold.symm.trans hblock')
      exact owned_of_copyInstrs (fun j hj => hcopyable.instr? b hhead j ⟨block, hold, hj⟩) hfirst
        i hi

/-- The worker of the thread was written with an eye on all that is in the blocks that concern the
thread, and on nothing else. -/
structure Overseen (s : Setting) (o : Program) (thread : Nat) (w : Worker) : Prop where
  header : s.loop.header ∈ s.loop → Concerned o s.loop s.deps s.plan thread s.loop.header
  owned : ∀ b, Concerned o s.loop s.deps s.plan thread b → ∀ i, o.Lists b i → Owned s.plan o i
  copied : ∀ i ∈ w.copyMap, ∃ b, Concerned o s.loop s.deps s.plan thread b ∧ o.Lists b i

theorem overseen_of_build (hshares : Shares o p s.loop) (hpreheader : s.loop.preheader ∉ s.loop)
    (hexit : s.loop.exit ∉ s.loop) (h : (build s d thread).apply p = (.ok w, q)) :
    Overseen s o thread w := by
  obtain ⟨f, blocks, w₀, pairs, argPtr, σ, n, stores, p₁, p₂, p₃, p₄, hvacant, hblocks, hadd,
    hcopies, -, -, -, rfl⟩ := build_eq_ok h
  obtain ⟨-, hcopyable⟩ := copyable_of_addSkeleton hshares hpreheader hexit hvacant hblocks hadd
  obtain ⟨-, hmem, hheader⟩ := concernedBlocks_eq_ok hblocks
  have hmem' : ∀ b, b ∈ blocks ↔ Concerned o s.loop s.deps s.plan thread b :=
    fun b => (hmem b).trans hshares.concerned_iff
  refine ⟨fun hin => (hmem' _).1 (hheader hin), fun b hb => ?_, fun i hi => ?_⟩
  · exact hcopyable.owned hcopies b ((hmem' b).2 hb)
  · obtain ⟨pair, hpair, rfl⟩ := List.mem_map.1 (mem_copyMap_iff.1 hi)
    obtain ⟨b, hb, hlists⟩ := hcopyable.lists_of_mem hcopies hpair
    exact ⟨b, (hmem' b).1 hb, hlists⟩

end Worker

namespace Splitter

variable {splitter splitter' : Splitter} {p q : Program} {f : FuncRef} {func : Func} {loop : Loop}
  {deps : Dependences} {plan : Plan} {result : Split}

theorem threads_pos_of_checkRequest {config : Config}
    (h : checkRequest config p f loop plan = .ok ()) : 0 < config.threads := by
  unfold checkRequest at h
  obtain ⟨func, -, h⟩ := bind_eq_ok_iff.1 h
  dsimp only at h
  obtain ⟨-, h⟩ := guard_bind_eq_ok h
  obtain ⟨hthreads, -⟩ := guard_bind_eq_ok h
  exact Nat.pos_of_ne_zero hthreads

/-- Every thread has a worker that was written with an eye on its blocks. -/
theorem overseen_of_split (hwell : p.WellFormed f func) (hloop : ∀ b ∈ loop, b ∈ func.blocks)
    (h : splitter.split p f loop deps plan = (.ok result, splitter', q)) :
    ∃ s, s.loop = loop ∧ s.deps = deps ∧ s.plan = plan ∧ s.loop.header ∈ s.loop ∧
      0 < s.plan.threads ∧
      (∀ i ∈ result.live.liveOut, ∃ thread, s.plan.threadOf? i = some thread) ∧
      List.Forall₂ (Worker.Overseen s p) (List.range s.plan.threads) result.workers := by
  obtain ⟨hrequest, s, hsetting, hrun⟩ := split_eq_ok h
  obtain ⟨hthreads, hheader, hpreheader⟩ := checkRequest_eq_ok hrequest
  have hpos := threads_pos_of_checkRequest hrequest
  obtain ⟨rfl, rfl, rfl, rfl, hcount, -, -, houts, -⟩ := setting_eq_ok hsetting
  obtain ⟨d, between, hinstall, hworkers, -, -, hlive, -⟩ := splitIn_eq_ok hrun
  obtain ⟨func', code, hinstalled⟩ := Dispatch.installed_of_install hinstall
  obtain rfl := Option.some.inj (hwell.lookup.symm.trans hinstalled.lookup)
  have hbuilds := builds_of_mapM (hinstalled.shares hwell hloop) hpreheader
    hinstalled.exit_not_mem hworkers
  rw [hcount, ← hthreads] at hbuilds
  refine ⟨s, rfl, rfl, rfl, hheader, hthreads ▸ hpos, hlive ▸ houts, hbuilds.imp ?_⟩
  rintro thread w ⟨before, after, hbefore, hbuild, -⟩
  exact Worker.overseen_of_build hbefore hpreheader hinstalled.exit_not_mem hbuild

/-- **After a split, what the plan has left out of the loop was in blocks that concern no thread.**
An instruction of the loop other than a terminator belongs to an SCC, or its block concerns none of
the threads. Then it is not in the header and no live-out, and no worker has a copy of it. -/
theorem split_passes_over_unowned
    (hsplit : splitter.split p f loop deps plan = (.ok result, splitter', q))
    (hfunc : p.func? f = some func) (hcheck : p.check f = .ok ())
    (hloop : ∀ b ∈ loop, b ∈ func.blocks) :
    ∀ b ∈ loop, ∀ i instr, p.Lists b i → p.instr? i = some instr → ¬ instr.op.isTerminator →
      (∃ scc ∈ plan.sccs, i ∈ scc.members) ∨
      (∀ thread < plan.threads, ¬ Worker.Concerned p loop deps plan thread b) ∧
        b ≠ loop.header ∧ i ∉ result.live.liveOut ∧ ∀ w ∈ result.workers, i ∉ w.copyMap := by
  obtain ⟨func', hwell⟩ := Program.wellFormed_of_check hcheck
  obtain rfl := Option.some.inj (hfunc.symm.trans hwell.lookup)
  obtain ⟨s, rfl, rfl, rfl, hheader, hpos, houts, hworkers⟩ :=
    overseen_of_split hwell hloop hsplit
  intro b hb i instr hi hinstr hterm
  refine or_iff_not_imp_left.2 fun hunowned => ?_
  have hnone : ¬ ∃ owner, s.plan.threadOf? i = some owner := by
    rintro ⟨owner, howner⟩
    obtain ⟨scc, hscc, hmem, -⟩ := Plan.exists_scc_of_threadOf? howner
    exact hunowned ⟨scc, hscc, hmem⟩
  have hskipped : ∀ thread < s.plan.threads,
      ¬ Worker.Concerned p s.loop s.deps s.plan thread b := by
    intro thread hthread hconcerned
    obtain ⟨w, -, hoverseen⟩ := exists_of_forall₂_of_mem hworkers.flip (List.mem_range.2 hthread)
    exact hnone (hoverseen.owned b hconcerned i hi instr hinstr hterm)
  refine ⟨hskipped, ?_, fun hout => hnone (houts i hout), fun w hw hcopy => ?_⟩
  · rintro rfl
    obtain ⟨w, -, hoverseen⟩ := exists_of_forall₂_of_mem hworkers.flip (List.mem_range.2 hpos)
    exact hskipped 0 hpos (hoverseen.header hheader)
  · -- a copy is made from a block that lists the instruction, and that is this block
    obtain ⟨thread, hthread, hoverseen⟩ := exists_of_forall₂_of_mem hworkers hw
    obtain ⟨c, hconcerned, hlists⟩ := hoverseen.copied i hcopy
    obtain rfl := hwell.listedOnce b (hloop b hb) c (hloop c hconcerned.1) i hi hlists
    exact hskipped thread (List.mem_range.1 hthread) hconcerned

end Splitter

namespace Counting

/-- The function that counts, but its body prints the number. -/
def printing : Program :=
  { program with
    funcs := program.funcs.push
      { name := "print", params := [.i32], ret := .void, blocks := [], external := true }
    instrs := program.instrs.setIfInBounds 4
      ⟨some ⟨2⟩, .call (.func ⟨1⟩) [.instr ⟨1⟩], .void, none⟩ }

def countingOnly : Plan := ⟨1, [⟨0, [⟨1⟩, ⟨2⟩, ⟨6⟩]⟩]⟩

end Counting

namespace Splitter

theorem split_passes_over_unowned_printing :
    ∃ result splitter' q,
      (ofConfig { Config.standard with threads := 1 }).split Counting.printing ⟨0⟩ Counting.loop
        Dependences.empty Counting.countingOnly = (.ok result, splitter', q) ∧
      (¬ Worker.Concerned Counting.printing Counting.loop Dependences.empty Counting.countingOnly
        0 ⟨2⟩) ∧
      ∀ w ∈ result.workers, (⟨4⟩ : InstrRef) ∉ w.copyMap := by
  have hok : ((ofConfig { Config.standard with threads := 1 }).split Counting.printing ⟨0⟩
      Counting.loop Dependences.empty Counting.countingOnly).1.isOk := by decide +kernel
  obtain ⟨result, splitter', q, hsplit⟩ := exists_of_isOk hok
  refine ⟨result, splitter', q, hsplit, ?_⟩
  have hfunc : Counting.printing.func? ⟨0⟩ = some Counting.func := rfl
  rcases split_passes_over_unowned hsplit hfunc (by decide +kernel) (by decide) ⟨2⟩ (by decide) ⟨4⟩
    _ ⟨_, rfl, by decide⟩ rfl (by decide) with hscc | ⟨hskipped, -, -, hdropped⟩
  · exact absurd hscc (by decide)
  · exact ⟨hskipped 0 (by decide), hdropped⟩

/-- The function passes the check and the loop is in its layout, but the call in the body belongs
to no SCC, and still the loop is split. -/
theorem split_drops_call_printing :
    Counting.printing.check ⟨0⟩ = .ok () ∧ Counting.printing.func? ⟨0⟩ = some Counting.func ∧
      (∀ b ∈ Counting.loop, b ∈ Counting.func.blocks) ∧
      Counting.printing.Lists ⟨2⟩ ⟨4⟩ ∧ Counting.printing.instr? ⟨4⟩ =
        some ⟨some ⟨2⟩, .call (.func ⟨1⟩) [.instr ⟨1⟩], .void, none⟩ ∧
      (¬ ∃ scc ∈ Counting.countingOnly.sccs, ⟨4⟩ ∈ scc.members) ∧
      ∃ result splitter' q,
        (ofConfig { Config.standard with threads := 1 }).split Counting.printing ⟨0⟩ Counting.loop
          Dependences.empty Counting.countingOnly = (.ok result, splitter', q) := by
  have hok : ((ofConfig { Config.standard with threads := 1 }).split Counting.printing ⟨0⟩
      Counting.loop Dependences.empty Counting.countingOnly).1.isOk := by decide +kernel
  exact ⟨by decide +kernel, rfl, by decide, ⟨_, rfl, by decide⟩, rfl, by decide,
    exists_of_isOk hok⟩

end Splitter

end Decouple
