import Decouple.Proofs.BorderValues
import Decouple.Proofs.FlowTrees
import Decouple.Proofs.StrictForm
import Decouple.Proofs.WorkerBody
import Decouple.Split.Splitter

/-!
# What splitting a loop leaves behind

A split that succeeds, in one statement (`splitInto_of_split`): the request was in order,
liveness and dominance were found for the program before the split, and the body of every
worker is written. Putting the dispatching block in the place of the loop comes first and
leaves the loop alone (`Installed.shares`), and the workers are written one after the other,
each leaving alone what the others wrote.
-/

namespace Decouple

open Outcome

namespace Dispatch

variable {s : Setting} {p q : Program} {func : Func} {d : Dispatch} {code : List (Op × Ty)}

theorem block_renamed (σ : Renaming) (n : Nat) (instr : Instr) :
    ((renamed σ)^[n] instr).block = instr.block := by
  refine apply_iterate_of_invariant Instr.block ?_ n instr
  exact fun _ => rfl

theorem block_adjusted (i : InstrRef) (instr : Instr) :
    (adjusted s p func d i instr).block = instr.block := by
  rw [adjusted, block_renamed]
  calc ((reroute s d.block)^[_] ((turn s d.block)^[_] instr)).block
      = ((turn s d.block)^[_] instr).block :=
        apply_iterate_of_invariant (f := reroute s d.block) Instr.block (fun _ => rfl) _ _
    _ = instr.block :=
        apply_iterate_of_invariant (f := turn s d.block) Instr.block (fun _ => rfl) _ _

/-- An instruction that no block outside the loop lists is left alone. -/
theorem adjusted_of_inside {i : InstrRef} (hexit : ¬ p.Lists s.loop.exit i)
    (hinside : ∀ b ∈ func.blocks, isOutside s d.block b → ¬ p.Lists b i) (instr : Instr) :
    adjusted s p func d i instr = instr := by
  have hends : (outsideEnds s p d.block func.blocks).count i = 0 := by
    rw [List.count_eq_zero]
    intro hmem
    obtain ⟨b, hb, hend⟩ := List.mem_filterMap.1 hmem
    obtain ⟨hb, houtside⟩ := List.mem_filter.1 hb
    exact hinside b hb houtside (Program.lists_of_endOf hend)
  have hphis : (p.listedIn [s.loop.exit]).count i = 0 := by
    rw [List.count_eq_zero, Program.mem_listedIn_iff]
    rintro ⟨b, hb, hlists⟩
    exact hexit (List.mem_singleton.1 hb ▸ hlists)
  have hreaders : (p.listedIn (func.blocks.filter (isOutside s d.block))).count i = 0 := by
    rw [List.count_eq_zero, Program.mem_listedIn_iff]
    rintro ⟨b, hb, hlists⟩
    obtain ⟨hb, houtside⟩ := List.mem_filter.1 hb
    exact hinside b hb houtside hlists
  rw [adjusted, hends, hphis, hreaders]
  rfl

/-- Putting a block in the place of the loop leaves the loop alone. -/
theorem Installed.shares (h : Installed s p func d code q) (hwell : p.WellFormed s.func func)
    (hloop : ∀ b ∈ s.loop, b ∈ func.blocks) : Worker.Shares p q s.loop where
  size_le := by
    rw [h.size_eq]
    exact Nat.le_add_right _ _
  block? := by
    intro b hb
    have hsome := hwell.block_of_mem (hloop b hb)
    obtain ⟨block, hblock⟩ := Option.isSome_iff_exists.1 hsome
    exact ⟨block, hblock, by rw [h.block?_kept b (h.ne_block hsome), hblock]⟩
  instr? := by
    intro b hb i hi
    obtain ⟨instr, hinstr⟩ := hwell.instr_of_lists (hloop b hb) hi
    have hlt := (Array.getElem?_eq_some_iff.1 hinstr.lookup).1
    have honce := hwell.listedOnce
    refine ⟨h.size_eq ▸ Nat.lt_add_right _ hlt, ?_⟩
    rw [h.instr?_some hinstr.lookup, hinstr.lookup, adjusted_of_inside]
    · intro hlists
      exact h.exit_not_mem (honce b (hloop b hb) _ h.exit_mem i hi hlists ▸ hb)
    · intro c hc houtside hlists
      obtain rfl := honce b (hloop b hb) c hc i hi hlists
      simp [isOutside, hb] at houtside
  placed := by
    intro b hb i
    by_cases hlt : i.index < p.instrs.size
    · rw [h.instr?_old i hlt]
      cases p.instr? i <;> simp [block_adjusted]
    · constructor
      · rintro ⟨instr, hinstr, hplace⟩
        obtain ⟨k, hk⟩ := Nat.exists_eq_add_of_le (Nat.le_of_not_lt hlt)
        have hklt : k < code.length := by
          have hlt' := (Array.getElem?_eq_some_iff.1 hinstr).1
          rw [h.size_eq] at hlt'
          omega
        obtain ⟨name, hname⟩ := h.instr?_new k _ _ (List.getElem?_eq_getElem hklt)
        obtain rfl : i = ⟨p.instrs.size + k⟩ := InstrRef.ext hk
        obtain rfl := Option.some.inj (hname.symm.trans hinstr)
        rw [block_renamed] at hplace
        exact absurd (Option.some.inj hplace).symm
          (h.ne_block (hwell.block_of_mem (hloop b hb)))
      · rintro ⟨instr, hinstr, -⟩
        exact absurd (Array.getElem?_eq_some_iff.1 hinstr).1 hlt

end Dispatch

namespace Splitter

variable {p q : Program} {f : FuncRef} {func : Func} {loop : Loop} {deps : Dependences}
  {plan : Plan} {config : Config}

theorem checkRequest_eq_ok (h : checkRequest config p f loop plan = .ok ()) :
    plan.threads = config.threads ∧ loop.header ∈ loop ∧ loop.preheader ∉ loop := by
  unfold checkRequest at h
  obtain ⟨func, -, h⟩ := bind_eq_ok_iff.1 h
  dsimp only at h
  obtain ⟨-, h⟩ := guard_bind_eq_ok h
  obtain ⟨-, h⟩ := guard_bind_eq_ok h
  obtain ⟨hthreads, h⟩ := require_bind_eq_ok h
  obtain ⟨-, h⟩ := require_bind_eq_ok h
  obtain ⟨⟨⟩, -, h⟩ := bind_eq_ok_iff.1 h
  obtain ⟨⟨⟩, -, h⟩ := bind_eq_ok_iff.1 h
  obtain ⟨⟨⟩, -, h⟩ := bind_eq_ok_iff.1 h
  obtain ⟨⟨⟩, -, h⟩ := bind_eq_ok_iff.1 h
  obtain ⟨hheader, h⟩ := require_bind_eq_ok h
  refine ⟨hthreads, hheader, fun hpreheader => ?_⟩
  rw [if_pos hpreheader] at h
  cases h

theorem checkOwned_eq_ok {outs : List InstrRef} (h : checkOwned p plan outs = .ok ()) :
    ∀ i ∈ outs, ∃ thread, plan.threadOf? i = some thread := by
  induction outs with
  | nil => simp
  | cons i outs ih =>
      unfold checkOwned at h
      obtain ⟨howned, hrest⟩ := guard_lookup_eq_ok h
      refine List.forall_mem_cons.2 ⟨?_, ih hrest⟩
      rwa [Bool.not_eq_true, Option.isNone_eq_false_iff, Option.isSome_iff_exists] at howned

theorem setting_eq_ok {loopId : Nat} {s : Setting}
    (h : setting config loopId p f loop deps plan = .ok s) :
    s.func = f ∧ s.loop = loop ∧ s.deps = deps ∧ s.plan = plan ∧ s.threads = config.threads ∧
      Liveness.ofLoop p loop = .ok s.live ∧ Dominance.ofFunc p f = .ok s.dominance ∧
      (∀ i ∈ s.live.liveOut, ∃ thread, plan.threadOf? i = some thread) ∧ s.config = config ∧
      ∃ func, p.func? f = some func ∧ s.climbLimit = func.blocks.length + 1 := by
  unfold setting at h
  obtain ⟨live, hlive, h⟩ := bind_eq_ok_iff.1 h
  obtain ⟨⟨⟩, howned, h⟩ := bind_eq_ok_iff.1 h
  obtain ⟨dominance, hdominance, h⟩ := bind_eq_ok_iff.1 h
  obtain ⟨func, hfunc, h⟩ := bind_eq_ok_iff.1 h
  obtain rfl := pure_eq_ok_iff.1 h
  exact ⟨rfl, rfl, rfl, rfl, rfl, hlive, hdominance, checkOwned_eq_ok howned, rfl, func,
    Program.func_eq_ok_iff.1 hfunc, rfl⟩

/-- The loop of the setting was split between the programs `p` and `q`. -/
structure SplitInto (s : Setting) (p : Program) (func : Func) (workers : List Worker)
    (q : Program) : Prop where
  header_mem : s.loop.header ∈ s.loop
  preheader_not_mem : s.loop.preheader ∉ s.loop
  exit_not_mem : s.loop.exit ∉ s.loop
  exit_mem : s.loop.exit ∈ func.blocks
  exitPhis : ∀ i, p.Lists s.loop.exit i → ∃ instr, p.instr? i = some instr ∧
    instr.op.incoming.countP (fun pair => pair.2 ∈ s.loop) ≤ 1
  live : s.live.Describes p s.loop
  dom : s.dominance.dom.Represents (p.FlowDominates func.blocks)
  postDom : s.dominance.postDom.Represents (p.FlowPostDominates func.blocks)
  bodies : List.Forall₂ (fun thread w => w.thread = thread ∧
    ∃ blocks here σ, Worker.Body s p blocks here σ w q) (List.range s.plan.threads) workers
  copies_new : ∀ w ∈ workers, ∀ i ∈ w.copies.map Prod.snd, p.instrs.size ≤ i.index
  copies_apart : workers.Pairwise fun w w' =>
    (w.copies.map Prod.snd).Disjoint (w'.copies.map Prod.snd)

theorem SplitInto.map_thread {s : Setting} {workers : List Worker}
    (h : SplitInto s p func workers q) :
    workers.map Worker.thread = List.range s.plan.threads :=
  map_eq_of_forall₂ h.bodies

theorem SplitInto.exists_body {s : Setting} {workers : List Worker} {w : Worker}
    (h : SplitInto s p func workers q) (hw : w ∈ workers) :
    ∃ blocks here σ, Worker.Body s p blocks here σ w q := by
  obtain ⟨thread, -, -, hbody⟩ := exists_of_forall₂_of_mem h.bodies hw
  exact hbody

/-- The workers are written one after the other in a program that shares the loop with the
program before the split. -/
theorem builds_of_mapM {s : Setting} {d : Dispatch} {o : Program} {threads : List Nat}
    {workers : List Worker} (hshares : Worker.Shares o p s.loop)
    (hpreheader : s.loop.preheader ∉ s.loop) (hexit : s.loop.exit ∉ s.loop)
    (h : (threads.mapM (Worker.build s d)).apply p = (.ok workers, q)) :
    List.Forall₂ (fun thread w => ∃ before after, Worker.Shares o before s.loop ∧
      (Worker.build s d thread).apply before = (.ok w, after) ∧ Grows after q)
      threads workers := by
  have hstep : ∀ thread before w after, Grows p before →
      (Worker.build s d thread).apply before = (.ok w, after) → Grows before after := by
    intro thread before w after hbefore hbuild
    exact (Worker.copies_of_build (hshares.grow hbefore) hpreheader hexit hbuild).1
  obtain ⟨-, hall⟩ := Edit.mapM_eq_ok Grows.refl (fun _ _ _ => Grows.trans) hstep h
  refine hall.imp ?_
  rintro thread w ⟨before, after, hbefore, hbuild, hafter⟩
  exact ⟨before, after, hshares.grow hbefore, hbuild, hafter⟩

theorem bodies_of_mapM {s : Setting} {d : Dispatch} {o : Program} {threads : List Nat}
    {workers : List Worker} (hshares : Worker.Shares o p s.loop) (hnodup : s.loop.blocks.Nodup)
    (hheader : s.loop.header ∈ s.loop) (hpreheader : s.loop.preheader ∉ s.loop)
    (hexit : s.loop.exit ∉ s.loop)
    (h : (threads.mapM (Worker.build s d)).apply p = (.ok workers, q)) :
    List.Forall₂ (fun thread w => w.thread = thread ∧
      ∃ blocks here σ, Worker.Body s o blocks here σ w q) threads workers := by
  refine (builds_of_mapM hshares hpreheader hexit h).imp ?_
  rintro thread w ⟨before, after, hbefore, hbuild, hafter⟩
  obtain ⟨-, hthread, blocks, here, σ, hbody⟩ :=
    Worker.body_of_build hbefore hnodup hheader hpreheader hexit hbuild
  exact ⟨hthread, blocks, here, σ, hbody.grow hafter⟩

/-- The copies of a worker are new when it is written, and so they are not those of the workers
before it. -/
theorem copies_of_mapM {s : Setting} {d : Dispatch} {o : Program} {threads : List Nat}
    {workers : List Worker} (hshares : Worker.Shares o p s.loop)
    (hpreheader : s.loop.preheader ∉ s.loop) (hexit : s.loop.exit ∉ s.loop)
    (h : (threads.mapM (Worker.build s d)).apply p = (.ok workers, q)) :
    (∀ w ∈ workers, ∀ i ∈ w.copies.map Prod.snd, p.instrs.size ≤ i.index) ∧
      workers.Pairwise fun w w' =>
        (w.copies.map Prod.snd).Disjoint (w'.copies.map Prod.snd) := by
  induction threads generalizing p workers with
  | nil =>
      rw [List.mapM_nil] at h
      obtain ⟨rfl, rfl⟩ := Edit.pure_eq_ok_iff.1 h
      exact ⟨by simp, .nil⟩
  | cons thread threads ih =>
      rw [List.mapM_cons] at h
      obtain ⟨w, p₁, hbuild, h⟩ := Edit.apply_bind_eq_ok_iff.1 h
      obtain ⟨rest, p₂, hrest, h⟩ := Edit.apply_bind_eq_ok_iff.1 h
      obtain ⟨rfl, rfl⟩ := Edit.pure_eq_ok_iff.1 h
      obtain ⟨hgrows, hcopies⟩ := Worker.copies_of_build hshares hpreheader hexit hbuild
      obtain ⟨hnew, hapart⟩ := ih (hshares.grow hgrows) hrest
      refine ⟨?_, .cons ?_ hapart⟩
      · intro w' hw' i hi
        rcases List.mem_cons.1 hw' with rfl | hw'
        · exact (hcopies i hi).1
        · exact Nat.le_trans hgrows.size_le (hnew w' hw' i hi)
      · intro w' hw' i hi hi'
        exact Nat.not_lt_of_le (hnew w' hw' i hi') (hcopies i hi).2

theorem splitIn_eq_ok {s : Setting} {result : Split}
    (h : (splitIn s).apply p = (.ok result, q)) :
    ∃ d between, (Dispatch.install s).apply p = (.ok d, between) ∧
      ((List.range s.threads).mapM (Worker.build s d)).apply between = (.ok result.workers, q) ∧
      result.block = d.block ∧ result.exchange = d.exchange ∧ result.live = s.live ∧
      (s.config.verify → q.check s.func = .ok ()) := by
  unfold splitIn at h
  obtain ⟨d, p₁, hinstall, h⟩ := Edit.apply_bind_eq_ok_iff.1 h
  obtain ⟨workers, p₂, hworkers, h⟩ := Edit.apply_bind_eq_ok_iff.1 h
  refine ⟨d, p₁, hinstall, ?_⟩
  -- the log and the check at the end change nothing
  have hlog {split : Split} {r : Program} (h : (get >>= fun p =>
      (liftM (s.log p s.func) : Edit Unit) >>= fun _ => pure split).apply r = (.ok result, q)) :
      split = result ∧ r = q := by
    rw [Edit.get_bind_eq_ok_iff] at h
    obtain ⟨_, p', hlog, h⟩ := Edit.apply_bind_eq_ok_iff.1 h
    obtain ⟨-, rfl⟩ := Edit.liftM_eq_ok_iff.1 hlog
    exact Edit.pure_eq_ok_iff.1 h
  by_cases hverify : s.config.verify
  · simp only [hverify, if_true] at h
    rw [Edit.get_bind_eq_ok_iff] at h
    obtain ⟨_, p', hchecked, h⟩ := Edit.apply_bind_eq_ok_iff.1 h
    obtain ⟨hchecks, rfl⟩ := Edit.liftM_eq_ok_iff.1 hchecked
    obtain ⟨rfl, rfl⟩ := hlog h
    exact ⟨hworkers, rfl, rfl, rfl,
      fun _ => forM_eq_ok_iff.1 hchecks s.func (List.mem_cons_self ..)⟩
  · simp only [hverify] at h
    obtain ⟨rfl, rfl⟩ := hlog h
    exact ⟨hworkers, rfl, rfl, rfl, fun h => absurd h hverify⟩

/-- How far a split gets: the request is refused, there is no number for the loop, or the loop gets
its number. -/
theorem split_cases {splitter splitter' : Splitter} {outcome : Except Failure Split}
    (h : splitter.split p f loop deps plan = (outcome, splitter', q)) :
    (∃ failure, checkRequest splitter.config p f loop plan = .error failure ∧
      outcome = .error failure ∧ splitter' = splitter ∧ q = p) ∨
    checkRequest splitter.config p f loop plan = .ok () ∧
      (numberLimit ≤ splitter.numbered + 1 ∧
        outcome = .error (.fault (.numberTooLarge (splitter.numbered + 1))) ∧
          splitter' = splitter ∧ q = p ∨
        splitter' = { splitter with numbered := splitter.numbered + 1 } ∧
        ((liftM (setting splitter.config splitter.numbered p f loop deps plan) : Edit Setting) >>=
          splitIn).apply p = (outcome, q)) := by
  unfold split at h
  split at h
  · next failure hrequest =>
      simp only [Prod.mk.injEq] at h
      obtain ⟨rfl, rfl, rfl⟩ := h
      exact .inl ⟨failure, hrequest, rfl, rfl, rfl⟩
  · next hrequest =>
      refine .inr ⟨hrequest, ?_⟩
      split at h
      · simp only [Prod.mk.injEq] at h
        obtain ⟨houtcome, rfl, hprogram⟩ := h
        exact .inr ⟨rfl, Prod.ext houtcome hprogram⟩
      · next hlimit =>
          simp only [Prod.mk.injEq] at h
          obtain ⟨rfl, rfl, rfl⟩ := h
          exact .inl ⟨Nat.not_lt.1 hlimit, rfl, rfl, rfl⟩

theorem split_eq_ok {splitter splitter' : Splitter} {result : Split}
    (h : splitter.split p f loop deps plan = (.ok result, splitter', q)) :
    checkRequest splitter.config p f loop plan = .ok () ∧
      ∃ s, setting splitter.config splitter.numbered p f loop deps plan = .ok s ∧
        (splitIn s).apply p = (.ok result, q) := by
  rcases split_cases h with ⟨_, -, hrefused, -⟩ | ⟨hrequest, ⟨-, hfault, -⟩ | ⟨-, hrun⟩⟩
  · cases hrefused
  · cases hfault
  · obtain ⟨s, p', hlookup, hsplit⟩ := Edit.apply_bind_eq_ok_iff.1 hrun
    obtain ⟨hsetting, rfl⟩ := Edit.liftM_eq_ok_iff.1 hlookup
    exact ⟨hrequest, s, hsetting, hsplit⟩

/-- If the splitter verifies, then the function passes the check after the split. -/
theorem check_of_split {splitter splitter' : Splitter} {result : Split}
    (hverify : splitter.config.verify)
    (h : splitter.split p f loop deps plan = (.ok result, splitter', q)) :
    q.check f = .ok () := by
  obtain ⟨-, s, hsetting, hsplit⟩ := split_eq_ok h
  obtain ⟨rfl, -, -, -, -, -, -, -, hconfig, -⟩ := setting_eq_ok hsetting
  obtain ⟨d, between, -, -, -, -, -, hcheck⟩ := splitIn_eq_ok hsplit
  exact hcheck (hconfig ▸ hverify)

theorem splitInto_of_split {splitter splitter' : Splitter} {result : Split}
    (hwell : p.WellFormed f func) (hnodup : loop.blocks.Nodup)
    (hloop : ∀ b ∈ loop, b ∈ func.blocks)
    (h : splitter.split p f loop deps plan = (.ok result, splitter', q)) :
    ∃ s, s.func = f ∧ s.loop = loop ∧ s.deps = deps ∧ s.plan = plan ∧
      SplitInto s p func result.workers q := by
  obtain ⟨hrequest, s, hsetting, hsplit⟩ := split_eq_ok h
  obtain ⟨hthreads, hheader, hpreheader⟩ := checkRequest_eq_ok hrequest
  obtain ⟨rfl, rfl, rfl, rfl, hcount, hlive, hdominance, -⟩ := setting_eq_ok hsetting
  obtain ⟨d, between, hinstall, hworkers, -⟩ := splitIn_eq_ok hsplit
  obtain ⟨func', code, hinstalled⟩ := Dispatch.installed_of_install hinstall
  obtain rfl := Option.some.inj (hwell.lookup.symm.trans hinstalled.lookup)
  obtain ⟨hdom, hpostDom⟩ := Dominance.represents_of_ofFunc hdominance hwell.lookup hwell.nodup
  have hshares := hinstalled.shares hwell hloop
  obtain ⟨hnew, hapart⟩ := copies_of_mapM hshares hpreheader hinstalled.exit_not_mem hworkers
  refine ⟨s, rfl, rfl, rfl, rfl, hheader, hpreheader, hinstalled.exit_not_mem,
    hinstalled.exit_mem, ?_, Liveness.describes_of_ofLoop hlive, hdom, hpostDom, ?_,
    fun w hw i hi => Nat.le_trans hshares.size_le (hnew w hw i hi), hapart⟩
  · intro i hi
    exact hinstalled.exitPhis i (Program.mem_listedIn_iff.2 ⟨_, List.mem_singleton_self _, hi⟩)
  · rw [hthreads, ← hcount]
    exact bodies_of_mapM hshares hnodup hheader hpreheader hinstalled.exit_not_mem hworkers

end Splitter

end Decouple
