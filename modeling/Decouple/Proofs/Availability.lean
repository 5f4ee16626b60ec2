import Decouple.Proofs.Replacement
import Decouple.Proofs.WorkerFlow

/-!
# Definitions stay available in the workers

A worker has copies of some blocks of the loop, and its branches jump over the others. Still
every path of the worker to a copied block can be filled in to a path through the loop that
meets no further copied block that one cares to avoid (`OfGated.exists_run`). So what lay on
every path to a block of the loop has a copy on every path of the worker
(`OfGated.onEveryPath_copy`), and with it the definitions that are read there.

Three kinds of readers are looked at: copied instructions other than φs, which read in their
own block; copied φs, which read in the nearest copied block above the incoming one; and the
instructions of the exit, which read what the loop defines for readers behind it.
-/

namespace Decouple

theorem eq_of_countP_le_one {α : Type} {good : α → Bool} {xs : List α} {x y : α}
    (h : xs.countP good ≤ 1) (hx : x ∈ xs) (hy : y ∈ xs) (hgx : good x) (hgy : good y) :
    x = y := by
  have hx : x ∈ xs.filter good := List.mem_filter.2 ⟨hx, hgx⟩
  have hy : y ∈ xs.filter good := List.mem_filter.2 ⟨hy, hgy⟩
  rw [List.countP_eq_length_filter] at h
  cases hfilter : xs.filter good with
  | nil =>
      rw [hfilter] at hx
      exact absurd hx List.not_mem_nil
  | cons z rest =>
      rw [hfilter] at h hx hy
      obtain rfl : rest = [] := List.length_eq_zero_iff.1 (by simpa using h)
      rw [List.mem_singleton.1 hx, List.mem_singleton.1 hy]

namespace Worker

variable {s : Setting} {p q : Program} {func wfunc : Func} {workers : List Worker}
  {blocks : List BlockRef} {here : BlockRef → List (InstrRef × InstrRef)} {σ : Renaming}
  {w : Worker} {entry a b c copy copy' : BlockRef}

/-- A φ comes from the copy of the nearest block above in the tree of dominators. -/
theorem copyOfPred_eq_ok {blockMap : Std.TreeMap BlockRef BlockRef} {layout : List BlockRef}
    (hdom : s.dominance.dom.Represents (p.FlowDominates layout)) {entry : BlockRef}
    (hentry : layout.head? = some entry) (h : copyOfPred s blockMap b = .ok copy) :
    ∃ c, blockMap[c]? = some copy ∧ p.FlowDominates layout c b ∧
      ∀ a, p.FlowDominates layout a b → (blockMap[a]?).isSome → p.FlowDominates layout a c := by
  unfold copyOfPred at h
  split at h
  · next found hclimb =>
      obtain rfl := Except.ok.inj h
      refine hdom.climb (fun b => ⟨entry, hentry, .refl _ _ _⟩) ?_ hclimb
      rintro a b c ⟨root, hroot, hab⟩ ⟨root', hroot', hbc⟩
      obtain rfl := Option.some.inj (hroot.symm.trans hroot')
      exact ⟨root, hroot, hab.trans hbc⟩
  · cases h

/-- If the block stands for a block of the loop in the worker, no instruction is listed twice in
that. -/
def StandsForNodup (w : Worker) (loop : Loop) (p : Program) (copy : BlockRef) : Prop :=
  ∀ b ∈ loop, w.blockMap[b]? = some copy → ∀ block ∈ p.block? b, block.instrs.Nodup

/-- The worker was written, in the program `q`, for a loop of the program `p` that control
enters and leaves as it should, and that is in reach. -/
structure OfGated (s : Setting) (p : Program) (func : Func) (workers : List Worker)
    (blocks : List BlockRef) (here : BlockRef → List (InstrRef × InstrRef)) (σ : Renaming)
    (w : Worker) (q : Program) (wfunc : Func) (entry : BlockRef) : Prop where
  into : Splitter.SplitInto s p func workers q
  body : Body s p blocks here σ w q
  wellFormed : p.WellFormed s.func func
  inside : ∀ b ∈ s.loop, b ∈ func.blocks
  entry_eq : func.blocks.head? = some entry
  entry_not_mem : entry ∉ s.loop
  gated : s.loop.Gated (p.FlowEdge func.blocks)
  reachable : ∀ b ∈ s.loop, p.FlowReachable func.blocks b
  lookup : q.func? w.func = some wfunc

namespace OfGated

theorem arranged (h : OfGated s p func workers blocks here σ w q wfunc entry) :
    Arranged blocks w wfunc.blocks := by
  obtain ⟨wfunc', hlookup, harranged⟩ := h.body.layout
  obtain rfl := Option.some.inj (h.lookup.symm.trans hlookup)
  exact harranged

theorem reaches (h : OfGated s p func workers blocks here σ w q wfunc entry) (hb : b ∈ s.loop) :
    Reaches (p.FlowEdge func.blocks) entry b := by
  obtain ⟨root, hroot, hreach⟩ := h.reachable b hb
  obtain rfl := Option.some.inj (h.entry_eq.symm.trans hroot)
  exact hreach

theorem copy_mem (h : OfGated s p func workers blocks here σ w q wfunc entry)
    (hb : b ∈ blocks) (hcopy : w.blockMap[b]? = some copy) :
    copy ∈ wfunc.blocks ∧ copy ≠ w.entry ∧ copy ≠ w.exit := by
  obtain ⟨c, hc, hmem⟩ := h.arranged.exists_copy hb
  obtain rfl := Option.some.inj (hc.symm.trans hcopy)
  exact hmem

/-- A block of the worker, other than its entry, stands for one block. -/
theorem eq_of_copy (h : OfGated s p func workers blocks here σ w q wfunc entry)
    (hb : b ∈ blocks ∨ b = s.loop.exit) (hc : c ∈ blocks ∨ c = s.loop.exit)
    (hcopy : w.blockMap[b]? = some copy) (hcopy' : w.blockMap[c]? = some copy) : b = c := by
  have hexit := h.body.exit_eq
  rcases hb with hb | rfl <;> rcases hc with hc | rfl
  · exact h.arranged.inj hb hc (hcopy.trans hcopy'.symm)
  · exact absurd (Option.some.inj (hcopy'.symm.trans hexit)) (h.copy_mem hb hcopy).2.2
  · exact absurd (Option.some.inj (hcopy.symm.trans hexit)) (h.copy_mem hc hcopy').2.2
  · rfl

theorem ne_entry (h : OfGated s p func workers blocks here σ w q wfunc entry)
    (hb : b ∈ blocks ∨ b = s.loop.exit) (hcopy : w.blockMap[b]? = some copy) :
    copy ≠ w.entry := by
  rcases hb with hb | rfl
  · exact (h.copy_mem hb hcopy).2.1
  · rw [← Option.some.inj (h.body.exit_eq.symm.trans hcopy)]
    exact h.arranged.entry_ne_exit.symm

/-- A branch never goes back to the entry of the worker: control would have to leave the loop
for the preheader past the exit. -/
theorem target_cases (h : OfGated s p func workers blocks here σ w q wfunc entry)
    (hb : b ∈ s.loop ∨ b = s.loop.exit) (hcopy : w.blockMap[c]? = some copy)
    (hpost : p.FlowPostDominates func.blocks c b)
    (hnearest : ∀ a, p.FlowPostDominates func.blocks a b → (w.blockMap[a]?).isSome →
      p.FlowPostDominates func.blocks a c) : c ∈ blocks ∨ c = s.loop.exit := by
  rcases h.body.cases_of_blockMap hcopy with hc | hc | rfl
  · exact .inl hc
  · exact .inr hc
  · right
    by_contra hne
    have hexit : (w.blockMap[s.loop.exit]?).isSome := h.body.isSome_blockMap (.inr rfl)
    obtain ⟨visited, hvisited, hnot⟩ := hpost.exists_avoiding hnearest hexit (Ne.symm hne)
    have hbloop : b ∈ s.loop := by
      refine hb.resolve_right ?_
      rintro rfl
      exact hnot hvisited.start_mem
    have houtside : ∃ x ∈ visited, (fun x => x ∉ s.loop) x :=
      ⟨s.loop.preheader, hvisited.end_mem, h.into.preheader_not_mem⟩
    obtain ⟨d, before, after, hd, hinside, hfirst, -, rfl⟩ := hvisited.cut_first houtside
    obtain ⟨rfl, -⟩ | ⟨x, before', hbefore, hedge, heq⟩ := hfirst.last_cases
    · exact hd hbloop
    · obtain rfl : before = before' := List.append_cancel_right heq
      have hx : x ∈ s.loop := not_not.1 (hinside x hbefore.end_mem)
      obtain rfl := h.gated.leaving x d hedge hx hd
      exact hnot (by simp)

/-- An edge of the worker is a path of the loop, past any copied block but its ends. -/
theorem exists_walk (h : OfGated s p func workers blocks here σ w q wfunc entry)
    (ha : a ∈ blocks) (hb : b ∈ blocks) (hcopy : w.blockMap[b]? = some copy)
    (hedge : q.FlowEdge wfunc.blocks copy copy') (hne : a ≠ b)
    (hne' : w.blockMap[a]? ≠ some copy') :
    ∃ c visited, (c ∈ blocks ∨ c = s.loop.exit) ∧ w.blockMap[c]? = some copy' ∧
      Walk (p.FlowEdge func.blocks) b c visited ∧ a ∉ visited := by
  have hbmem : b ∈ func.blocks := h.inside b (h.body.mem_loop hb)
  obtain ⟨targets, htargets, hcopied, hok⟩ := h.body.successors_copy h.wellFormed hbmem hb hcopy
  obtain ⟨-, -, targets', htargets', hmem⟩ := hedge
  obtain rfl := Except.ok.inj (hcopied.symm.trans htargets')
  obtain ⟨t, ht, rfl⟩ := List.mem_map.1 hmem
  obtain ⟨htloop, c, hc, hpost, hnearest⟩ := copyOfTarget_eq_ok h.into.postDom (hok t ht)
  have hcases := h.target_cases htloop hc hpost hnearest
  have hac : a ≠ c := by
    rintro rfl
    exact hne' hc
  obtain ⟨visited, hvisited, hnot⟩ :=
    hpost.exists_avoiding hnearest (h.body.isSome_blockMap (.inl ha)) hac
  have htmem : t ∈ func.blocks := by
    rcases htloop with htloop | rfl
    · exact h.inside t htloop
    · exact h.into.exit_mem
  refine ⟨c, b :: visited, hcases, hc, .step ⟨hbmem, htmem, _, htargets, ht⟩ hvisited, ?_⟩
  rw [List.mem_cons, not_or]
  exact ⟨hne, hnot⟩

/-- A path of the worker that does not meet a copy is a path of the loop that does not meet
the copied block. -/
theorem exists_run (h : OfGated s p func workers blocks here σ w q wfunc entry)
    (ha : a ∈ blocks) (hb : b ∈ blocks ∨ b = s.loop.exit) (hcopy : w.blockMap[b]? = some copy)
    {others : List BlockRef} (hwalk : Walk (q.FlowEdge wfunc.blocks) copy copy' others)
    (havoid : ∀ x ∈ others, w.blockMap[a]? ≠ some x) :
    ∃ c run, (c ∈ blocks ∨ c = s.loop.exit) ∧ w.blockMap[c]? = some copy' ∧
      Walk (p.FlowEdge func.blocks) b c run ∧ a ∉ run := by
  induction hwalk generalizing b with
  | stay copy =>
      refine ⟨b, [b], hb, hcopy, .stay b, ?_⟩
      rw [List.mem_singleton]
      rintro rfl
      exact havoid copy (List.mem_singleton_self copy) hcopy
  | @step copy next copy' others hedge hwalk ih =>
      have hne : a ≠ b := by
        rintro rfl
        exact havoid copy (List.mem_cons_self ..) hcopy
      have hblocks : b ∈ blocks := by
        refine hb.resolve_right ?_
        rintro rfl
        -- nothing leads on from the exit of the worker
        obtain rfl := Option.some.inj (h.body.exit_eq.symm.trans hcopy)
        obtain ⟨-, -, targets, htargets, hmem⟩ := hedge
        obtain rfl := Except.ok.inj (h.body.successors_exit.symm.trans htargets)
        exact absurd hmem List.not_mem_nil
      obtain ⟨d, visited, hd, hdcopy, hvisited, hnot⟩ := h.exists_walk ha hblocks hcopy hedge hne
        (havoid next (List.mem_cons_of_mem _ hwalk.start_mem))
      obtain ⟨c, run, hc, hccopy, hrun, hnot'⟩ :=
        ih hd hdcopy fun x hx => havoid x (List.mem_cons_of_mem _ hx)
      refine ⟨c, _, hc, hccopy, hvisited.join hrun, ?_⟩
      rw [List.mem_append, not_or]
      exact ⟨hnot, fun hmem => hnot' (List.mem_of_mem_tail hmem)⟩

/-- What control meets on every path from the header to a block has a copy on every path of
the worker to what stands for the block. -/
theorem onEveryPath_copy (h : OfGated s p func workers blocks here σ w q wfunc entry)
    (ha : a ∈ blocks) (hacopy : w.blockMap[a]? = some copy)
    (hb : b ∈ blocks ∨ b = s.loop.exit) (hbcopy : w.blockMap[b]? = some copy')
    (hall : ∀ run, Walk (p.FlowEdge func.blocks) s.loop.header b run → a ∈ run) :
    q.OnEveryPath wfunc.blocks copy copy' := by
  intro start visited hstart hwalk
  obtain rfl := Option.some.inj (h.arranged.head?_eq.symm.trans hstart)
  by_contra hnot
  cases hwalk with
  | stay => exact h.ne_entry hb hbcopy rfl
  | @step _ next _ others hedge hothers =>
      obtain ⟨header, hheader, hsuccs⟩ := h.body.successors_entry
      obtain ⟨-, -, targets, htargets, hmem⟩ := hedge
      obtain rfl := Except.ok.inj (hsuccs.symm.trans htargets)
      obtain rfl := List.mem_singleton.1 hmem
      have havoid : ∀ x ∈ others, w.blockMap[a]? ≠ some x := by
        intro x hx heq
        rw [hacopy] at heq
        exact hnot (Option.some.inj heq ▸ List.mem_cons_of_mem _ hx)
      obtain ⟨c, run, hc, hccopy, hrun, hnotrun⟩ :=
        h.exists_run ha (.inl h.body.header_mem) hheader hothers havoid
      obtain rfl := h.eq_of_copy hc hb hccopy hbcopy
      exact hnotrun (hall run hrun)

theorem onEveryPath_entry (h : OfGated s p func workers blocks here σ w q wfunc entry)
    (b : BlockRef) : q.OnEveryPath wfunc.blocks w.entry b := by
  intro start visited hstart hwalk
  obtain rfl := Option.some.inj (h.arranged.head?_eq.symm.trans hstart)
  exact hwalk.start_mem

/-- Dominance between blocks of the loop carries over to their copies, also where the one
below is the exit. -/
theorem onEveryPath_of_dominates (h : OfGated s p func workers blocks here σ w q wfunc entry)
    (ha : a ∈ blocks) (hacopy : w.blockMap[a]? = some copy)
    (hb : b ∈ blocks ∨ b = s.loop.exit) (hbcopy : w.blockMap[b]? = some copy')
    (hdom : p.FlowDominates func.blocks a b) : q.OnEveryPath wfunc.blocks copy copy' := by
  refine h.onEveryPath_copy ha hacopy hb hbcopy fun run hrun => ?_
  exact h.gated.mem_run h.entry_not_mem h.into.header_mem (h.reaches h.into.header_mem)
    (h.body.mem_loop ha) (fun visited => hdom.onEveryPath entry visited h.entry_eq) hrun

/-- Copied instructions are listed in the block of the loop, and their copies in the copy of
the block. -/
theorem lists_of_here (h : OfGated s p func workers blocks here σ w q wfunc entry)
    (hb : b ∈ blocks) (hcopy : w.blockMap[b]? = some copy) {pair : InstrRef × InstrRef}
    (hpair : pair ∈ here b) : p.Lists b pair.1 ∧ q.Lists copy pair.2 := by
  obtain ⟨block, hblock⟩ := h.wellFormed.blocks b (h.inside b (h.body.mem_loop hb))
  have hsource : pair.1 ∈ (here b).map Prod.fst := List.mem_map_of_mem hpair
  rw [h.body.sources b hb block hblock.lookup] at hsource
  obtain ⟨block', hblock', hlist⟩ := h.body.listed b hb copy hcopy
  exact ⟨⟨block, hblock.lookup, List.mem_of_mem_filter hsource⟩,
    ⟨block', hblock', hlist ▸ List.mem_map_of_mem hpair⟩⟩

/-- An operand of a copy that names an instruction of the worker names a load of the entry
or the copy of what the original reads. -/
theorem exists_definition (h : OfGated s p func workers blocks here σ w q wfunc entry)
    {v : Value} {d : InstrRef} (hv : ∀ e, v = .instr e → ∃ c ∈ func.blocks, p.Lists c e)
    (hd : σ.rename v = .instr d) (hlisted : ∃ c ∈ wfunc.blocks, q.Lists c d) :
    q.Lists w.entry d ∨ ∃ c ∈ blocks, ∃ e, (e, d) ∈ here c ∧ v = .instr e := by
  obtain ⟨_, start, code, _, _, _, _, -, hentry, -, -, -, hloads⟩ := h.body.ends
  cases hlookup : σ[v]? with
  | none =>
      -- an instruction of the program before the split is none of the worker
      rw [Renaming.rename, hlookup] at hd
      obtain ⟨c, hc, hce⟩ := hv d hd
      obtain ⟨instr, hinstr⟩ := h.wellFormed.instr_of_lists hc hce
      obtain ⟨hlt, -⟩ := Array.getElem?_eq_some_iff.1 hinstr.lookup
      obtain ⟨c', hc', hlists⟩ := hlisted
      exact absurd hlt (Nat.not_lt.2 (h.body.fresh wfunc h.lookup c' hc' d hlists))
  | some u =>
      rw [Renaming.rename, hlookup] at hd
      obtain rfl : u = .instr d := hd
      by_cases hin : v ∈ s.live.liveIn
      · left
        obtain ⟨e, he, heq⟩ := hloads v hin
        obtain rfl : d = e := Value.instr.inj (Option.some.inj (hlookup.symm.trans heq))
        obtain ⟨block, hblock, hlist⟩ := hentry.listed
        exact ⟨block, hblock, by rw [hlist]; exact List.mem_append_left _ he⟩
      · right
        obtain ⟨c, hc, ⟨e, d'⟩, hpair, rfl, heq⟩ := h.body.renamed v _ hin hlookup
        obtain rfl : d = d' := Value.instr.inj heq
        exact ⟨c, hc, e, hpair, rfl⟩

/-- The originals of the copies in front of a copy stand in front of its original. -/
theorem exists_split (h : OfGated s p func workers blocks here σ w q wfunc entry)
    (hb : b ∈ blocks) {block : Block} (hblock : p.block? b = some block)
    {front back : List (InstrRef × InstrRef)} {pair : InstrRef × InstrRef}
    (hhere : here b = front ++ pair :: back) :
    ∃ before after, block.instrs = before ++ pair.1 :: after ∧
      before.filter (takes s p w.thread) = front.map Prod.fst := by
  have hsources := h.body.sources b hb block hblock
  rw [hhere, List.map_append, List.map_cons] at hsources
  obtain ⟨before, rest, hlist, hbefore, hrest⟩ := List.filter_eq_append_iff.1 hsources.symm
  obtain ⟨skipped, after, rfl, hskipped, -, -⟩ := List.filter_eq_cons_iff.1 hrest
  refine ⟨before ++ skipped, after, by rw [hlist, List.append_assoc], ?_⟩
  rw [List.filter_append, hbefore, List.filter_eq_nil_iff.2 hskipped, List.append_nil]

/-- A copy of an instruction that stands in front of another one stands in front of the copy
of that one, if no instruction is listed twice. -/
theorem mem_front (h : OfGated s p func workers blocks here σ w q wfunc entry)
    (hb : b ∈ blocks) {block : Block} (hblock : p.block? b = some block)
    (hsingle : block.instrs.Nodup) {front back : List (InstrRef × InstrRef)}
    {pair : InstrRef × InstrRef} (hhere : here b = front ++ pair :: back)
    {before : List InstrRef}
    (hbefore : before.filter (takes s p w.thread) = front.map Prod.fst) {e d : InstrRef}
    (he : e ∈ before) (hpair : (e, d) ∈ here b) : d ∈ front.map Prod.snd := by
  have hsources := h.body.sources b hb block hblock
  have hnodup : ((here b).map Prod.fst).Nodup := by
    rw [hsources]
    exact hsingle.filter _
  have htaken : takes s p w.thread e := by
    have hmem : e ∈ (here b).map Prod.fst := List.mem_map.2 ⟨(e, d), hpair, rfl⟩
    rw [hsources] at hmem
    exact (List.mem_filter.1 hmem).2
  have hfront : e ∈ front.map Prod.fst := by
    rw [← hbefore]
    exact List.mem_filter.2 ⟨he, htaken⟩
  obtain ⟨other, hother, heq⟩ := List.mem_map.1 hfront
  have hother' : other ∈ here b := by
    rw [hhere]
    exact List.mem_append_left _ hother
  obtain rfl : other = (e, d) := List.inj_on_of_nodup_map hnodup hother' hpair heq
  exact List.mem_map.2 ⟨(e, d), hother, rfl⟩

/-- Copies other than φs find what they read, in front of them if the loop lists nothing twice
there. -/
theorem uses_copy (h : OfGated s p func workers blocks here σ w q wfunc entry)
    (hstrict : p.StrictForm func.blocks)
    (hb : b ∈ blocks) (hcopy : w.blockMap[b]? = some copy) {block : Block}
    {before after : List InstrRef} {i d : InstrRef} {instr : Instr}
    (hblock : q.block? copy = some block) (hlist : block.instrs = before ++ i :: after)
    (hinstr : q.instr? i = some instr) (hphi : ¬ instr.op.isPhi)
    (hd : .instr d ∈ instr.op.operands) (hlisted : ∃ c ∈ wfunc.blocks, q.Lists c d) :
    (d ∈ block.instrs ∧ ((∀ old ∈ p.block? b, old.instrs.Nodup) → d ∈ before)) ∨
      ∃ c ∈ wfunc.blocks, c ≠ copy ∧ q.Lists c d ∧ q.OnEveryPath wfunc.blocks c copy := by
  have hbloop := h.body.mem_loop hb
  obtain ⟨copied', hcopied', hcopies⟩ := h.body.listed b hb copy hcopy
  obtain rfl := Option.some.inj (hblock.symm.trans hcopied')
  rw [hlist] at hcopies
  obtain ⟨front, rest, hhere, rfl, hrest⟩ := List.map_eq_append_iff.1 hcopies.symm
  obtain ⟨pair, back, rfl, rfl, -⟩ := List.map_eq_cons_iff.1 hrest
  have hpair : pair ∈ here b := by simp [hhere]
  obtain ⟨old, name, hold, -, hnew⟩ := h.body.copies b hb copy hcopy pair hpair
  obtain rfl := Option.some.inj (hinstr.symm.trans hnew)
  obtain ⟨v, hv, hrename⟩ : ∃ v ∈ old.op.operands, σ.rename v = .instr d := by
    simpa [copied] using hd
  have hphi' : ¬ old.op.isPhi := by
    rwa [Op.isPhi_mapOperands, copied, Op.isPhi_mapIncoming, Op.isPhi_mapSuccessors] at hphi
  obtain ⟨oldBlock, hwell⟩ := h.wellFormed.blocks b (h.inside b hbloop)
  obtain ⟨before, after, hsplit, hbefore⟩ := h.exists_split hb hwell.lookup hhere
  have hreads : ∀ e, v = .instr e → e ∈ before ∨ ∃ c ∈ func.blocks, c ≠ b ∧ p.Lists c e ∧
      p.FlowDominates func.blocks c b := by
    rintro e rfl
    exact hstrict.uses b oldBlock before pair.1 after old e (h.reachable b hbloop) hwell.lookup
      hsplit hold hphi' hv
  have hdefined : ∀ e, v = .instr e → ∃ c ∈ func.blocks, p.Lists c e := by
    intro e he
    rcases hreads e he with hmem | ⟨c, hc, -, hce, -⟩
    · exact ⟨b, h.inside b hbloop, oldBlock, hwell.lookup, by simp [hsplit, hmem]⟩
    · exact ⟨c, hc, hce⟩
  rcases h.exists_definition hdefined hrename hlisted with hentry | ⟨a, ha, e, hea, rfl⟩
  · exact .inr ⟨w.entry, List.mem_of_head? h.arranged.head?_eq, (h.copy_mem hb hcopy).2.1.symm,
      hentry, h.onEveryPath_entry copy⟩
  · obtain ⟨acopy, hacopy⟩ := h.body.exists_copy ha
    obtain ⟨hae, had⟩ := h.lists_of_here ha hacopy hea
    have hamem := h.inside a (h.body.mem_loop ha)
    rcases hreads e rfl with hmem | ⟨c, hc, hne, hce, hdom⟩
    · left
      have hbe : p.Lists b e := ⟨oldBlock, hwell.lookup, by simp [hsplit, hmem]⟩
      obtain rfl := h.wellFormed.listedOnce a hamem b (h.inside b hbloop) e hae hbe
      obtain rfl := Option.some.inj (hcopy.symm.trans hacopy)
      obtain ⟨block', hblock', hmem'⟩ := had
      obtain rfl := Option.some.inj (hblock.symm.trans hblock')
      exact ⟨hmem', fun hsingle =>
        h.mem_front hb hwell.lookup (hsingle _ hwell.lookup) hhere hbefore hmem hea⟩
    · right
      obtain rfl := h.wellFormed.listedOnce a hamem c hc e hae hce
      refine ⟨acopy, (h.copy_mem ha hacopy).1, ?_, had,
        h.onEveryPath_of_dominates ha hacopy (.inl hb) hcopy hdom⟩
      rintro rfl
      exact hne (h.eq_of_copy (.inl ha) (.inl hb) hacopy hcopy)

/-- No block of the loop dominates the preheader. -/
theorem not_dominates_preheader (h : OfGated s p func workers blocks here σ w q wfunc entry)
    (ha : a ∈ s.loop) : ¬ p.FlowDominates func.blocks a s.loop.preheader := by
  intro hdom
  obtain ⟨visited, hvisited⟩ := h.reaches h.into.header_mem
  obtain ⟨before, -, -, houtside, hbefore, -⟩ :=
    h.gated.exists_entering h.entry_not_mem hvisited ⟨_, hvisited.end_mem, h.into.header_mem⟩
  exact houtside a (hdom.onEveryPath entry before h.entry_eq hbefore) ha

/-- Copied φs find what they read, in the block that they come from. -/
theorem phis_copy (h : OfGated s p func workers blocks here σ w q wfunc entry)
    (hstrict : p.StrictForm func.blocks) (hb : b ∈ blocks) (hcopy : w.blockMap[b]? = some copy)
    {i d : InstrRef} {instr : Instr} {pred : BlockRef} (hi : q.Lists copy i)
    (hinstr : q.instr? i = some instr) (hd : (.instr d, pred) ∈ instr.op.incoming)
    (hlisted : ∃ c ∈ wfunc.blocks, q.Lists c d) :
    ∃ c ∈ wfunc.blocks, q.Lists c d ∧ q.OnEveryPath wfunc.blocks c pred := by
  obtain ⟨block, hblock, hmem⟩ := hi
  obtain ⟨block', hblock', hcopies⟩ := h.body.listed b hb copy hcopy
  obtain rfl := Option.some.inj (hblock.symm.trans hblock')
  rw [hcopies] at hmem
  obtain ⟨pair, hpair, rfl⟩ := List.mem_map.1 hmem
  obtain ⟨old, name, hold, hplaced, hnew⟩ := h.body.copies b hb copy hcopy pair hpair
  obtain rfl := Option.some.inj (hinstr.symm.trans hnew)
  simp only [Op.incoming_mapOperands, copied, Op.incoming_mapIncoming, Op.incoming_mapSuccessors,
    List.map_map, List.mem_map, Function.comp_apply, Prod.mk.injEq] at hd
  obtain ⟨⟨v, oldPred⟩, hv, hrename, rfl⟩ := hd
  obtain ⟨c, hc, hcpred, hnearest⟩ :=
    copyOfPred_eq_ok h.into.dom h.entry_eq (hplaced.preds _ hv)
  have hreads : ∀ e, v = .instr e → ∃ c ∈ func.blocks, p.Lists c e ∧
      p.FlowDominates func.blocks c oldPred := by
    rintro e rfl
    exact hstrict.phis b pair.1 old e oldPred (h.reachable b (h.body.mem_loop hb))
      (h.lists_of_here hb hcopy hpair).1 hold hv
  have hdefined : ∀ e, v = .instr e → ∃ c ∈ func.blocks, p.Lists c e := by
    intro e he
    obtain ⟨c, hc, hce, -⟩ := hreads e he
    exact ⟨c, hc, hce⟩
  rcases h.exists_definition hdefined hrename hlisted with hentry | ⟨a, ha, e, hea, rfl⟩
  · exact ⟨w.entry, List.mem_of_head? h.arranged.head?_eq, hentry, h.onEveryPath_entry _⟩
  · obtain ⟨acopy, hacopy⟩ := h.body.exists_copy ha
    obtain ⟨hae, had⟩ := h.lists_of_here ha hacopy hea
    have hamem := h.inside a (h.body.mem_loop ha)
    refine ⟨acopy, (h.copy_mem ha hacopy).1, had, ?_⟩
    obtain ⟨a', ha', ha'e, hdom⟩ := hreads e rfl
    obtain rfl := h.wellFormed.listedOnce a hamem a' ha' e hae ha'e
    -- the nearest copied block above the incoming one lies below the definition
    have hac := hnearest a hdom (h.body.isSome_blockMap (.inl ha))
    have hcases : c ∈ blocks ∨ c = s.loop.exit := by
      rcases h.body.cases_of_blockMap hc with hmem | hexit | rfl
      · exact .inl hmem
      · exact .inr hexit
      · exact absurd hac (h.not_dominates_preheader (h.body.mem_loop ha))
    exact h.onEveryPath_of_dominates ha hacopy hcases hc hac

/-- A block with a definition that is read behind the loop lies on all paths to the exit. -/
theorem onEveryPath_exit (h : OfGated s p func workers blocks here σ w q wfunc entry)
    (hstrict : p.StrictForm func.blocks) {i : InstrRef} (ha : a ∈ blocks)
    (hacopy : w.blockMap[a]? = some copy) (hai : p.Lists a i)
    (husers : ∀ reader instr, p.instr? reader = some instr → .instr i ∈ instr.op.operands →
      ∃ b, p.FlowReachable func.blocks b ∧ p.Lists b reader)
    (hescapes : p.Escapes s.loop i) : q.OnEveryPath wfunc.blocks copy w.exit := by
  have haloop := h.body.mem_loop ha
  have hamem := h.inside a haloop
  have hheader := h.into.header_mem
  refine h.onEveryPath_copy ha hacopy (.inr rfl) h.body.exit_eq fun run hrun => ?_
  have hbehind : ∀ b, b ∉ s.loop → p.FlowDominates func.blocks a b → a ∈ run := by
    intro b hb hdom
    obtain ⟨root, hroot, hdom'⟩ := hdom
    obtain rfl := Option.some.inj (h.entry_eq.symm.trans hroot)
    refine h.gated.mem_run_exit h.entry_not_mem hheader (h.reaches hheader) haloop hb
      (hdom'.reaches_of_ne fun heq => hb (heq ▸ haloop)) (fun visited => hdom'.mem_of_walk) hrun
  obtain ⟨reader, instr, b, hreader, hoperand, hplace, hb⟩ := hescapes
  obtain ⟨b', hreach, hlists⟩ := husers reader instr hreader hoperand
  obtain ⟨instr', hwell⟩ := h.wellFormed.instr_of_lists hreach.mem hlists
  obtain rfl := Option.some.inj (hreader.symm.trans hwell.lookup)
  obtain rfl := Option.some.inj (hplace.symm.trans hwell.placed)
  by_cases hphi : instr.op.isPhi
  · obtain ⟨pred, hpair⟩ := Op.exists_mem_incoming hphi hoperand
    obtain ⟨c, hc, hci, hdom⟩ := hstrict.phis b reader instr i pred hreach hlists hreader hpair
    obtain rfl := h.wellFormed.listedOnce a hamem c hc i hai hci
    by_cases hpred : pred ∈ s.loop
    · -- a φ of the exit, and the loop has no other way to it
      have hpreds := hstrict.preds b reader instr hreach hlists hreader hphi
      obtain rfl := h.gated.leaving pred b ((hpreds pred).1 ⟨_, hpair⟩) hpred hb
      obtain ⟨instr', hreader', hcount⟩ := h.into.exitPhis reader hlists
      obtain rfl := Option.some.inj (hreader.symm.trans hreader')
      refine h.gated.mem_run_exit_of_last h.entry_not_mem hheader (h.reaches hheader) haloop
        h.into.exit_not_mem ?_ (fun visited => hdom.onEveryPath entry visited h.entry_eq) hrun
      intro c hc hedge
      obtain ⟨v, hv⟩ := (hpreds c).2 hedge
      have heq := eq_of_countP_le_one hcount hv hpair (by simpa using hc) (by simpa using hpred)
      exact congrArg Prod.snd heq
    · exact hbehind pred hpred hdom
  · obtain ⟨block, hblock, hmem⟩ := hlists
    obtain ⟨before, after, hlist⟩ := List.append_of_mem hmem
    rcases hstrict.uses b block before reader after instr i hreach hblock hlist hreader hphi
      hoperand with hbefore | ⟨c, hc, -, hci, hdom⟩
    · have hbi : p.Lists b i := ⟨block, hblock, by simp [hlist, hbefore]⟩
      exact absurd (h.wellFormed.listedOnce a hamem b hreach.mem i hai hbi ▸ haloop) hb
    · obtain rfl := h.wellFormed.listedOnce a hamem c hc i hai hci
      exact hbehind b hb hdom

/-- The instructions of the exit find what they read. -/
theorem available_out (h : OfGated s p func workers blocks here σ w q wfunc entry)
    (hstrict : p.StrictForm func.blocks)
    (husers : ∀ i, (∃ b ∈ s.loop, p.Lists b i) → ∀ reader instr, p.instr? reader = some instr →
      .instr i ∈ instr.op.operands → ∃ b, p.FlowReachable func.blocks b ∧ p.Lists b reader)
    {out : InstrRef × Nat} {d : InstrRef} (hout : out ∈ ownedOuts s w.thread)
    (hd : σ[Value.instr out.1]? = some (.instr d)) (hlisted : ∃ c ∈ wfunc.blocks, q.Lists c d) :
    ∃ c ∈ wfunc.blocks, c ≠ w.exit ∧ q.Lists c d ∧ q.OnEveryPath wfunc.blocks c w.exit := by
  have hmem : out.1 ∈ s.live.liveOut :=
    List.fst_mem_of_mem_zipIdx (List.mem_of_mem_filter hout)
  obtain ⟨hinside, hescapes⟩ := (h.into.live.mem_liveOut_iff out.1).1 hmem
  obtain ⟨c, hc, hci⟩ := Program.mem_listedIn_iff.1 hinside
  have hdefined : ∀ e, Value.instr out.1 = .instr e → ∃ c ∈ func.blocks, p.Lists c e := by
    intro e he
    exact ⟨c, h.inside c hc, Value.instr.inj he ▸ hci⟩
  have hrename : σ.rename (.instr out.1) = .instr d := by
    rw [Renaming.rename, hd]
    rfl
  rcases h.exists_definition hdefined hrename hlisted with hentry | ⟨a, ha, e, hea, he⟩
  · exact ⟨w.entry, List.mem_of_head? h.arranged.head?_eq, h.arranged.entry_ne_exit, hentry,
      h.onEveryPath_entry _⟩
  · obtain rfl : out.1 = e := Value.instr.inj he
    obtain ⟨acopy, hacopy⟩ := h.body.exists_copy ha
    obtain ⟨hae, had⟩ := h.lists_of_here ha hacopy hea
    obtain ⟨hacopymem, -, hne⟩ := h.copy_mem ha hacopy
    exact ⟨acopy, hacopymem, hne, had, h.onEveryPath_exit hstrict ha hacopy hae
      (husers out.1 ⟨c, hc, hci⟩) hescapes⟩

/-- Definitions of the worker are available where they are read in it. -/
theorem availableWithin (h : OfGated s p func workers blocks here σ w q wfunc entry)
    (hstrict : p.StrictForm func.blocks)
    (husers : ∀ i, (∃ b ∈ s.loop, p.Lists b i) → ∀ reader instr, p.instr? reader = some instr →
      .instr i ∈ instr.op.operands → ∃ b, p.FlowReachable func.blocks b ∧ p.Lists b reader) :
    q.AvailableWithin wfunc.blocks (w.StandsForNodup s.loop p) := by
  obtain ⟨header, start, code, last, start', code', last', -, hentry, hexit, hcode, hcode', -⟩ :=
    h.body.ends
  have hentryMem : w.entry ∈ wfunc.blocks := List.mem_of_head? h.arranged.head?_eq
  constructor
  · intro b hb block before i after instr d hblock hlist hinstr hphi hd hlisted
    rcases h.arranged.cases hb with rfl | rfl | ⟨a, ha, hcopy⟩
    · obtain ⟨-, hreads⟩ := hentry.reads hcode (by simp [Op.isPhi]) (by simp [Op.operands])
        hblock hlist hinstr
      have hbefore := (hreads d hd).resolve_right id
      exact .inl ⟨by simp [hlist, hbefore], fun _ => hbefore⟩
    · obtain ⟨-, hreads⟩ := hexit.reads hcode' (by simp [Op.isPhi]) (by simp [Op.operands])
        hblock hlist hinstr
      rcases hreads d hd with hbefore | hargs | ⟨out, hout, hrenamed⟩
      · exact .inl ⟨by simp [hlist, hbefore], fun _ => hbefore⟩
      · obtain ⟨block', hblock', hlist'⟩ := hentry.listed
        have hlists : q.Lists w.entry d :=
          ⟨block', hblock', by rw [hlist']; exact List.mem_append_left _ hargs⟩
        exact .inr ⟨w.entry, hentryMem, h.arranged.entry_ne_exit, hlists, h.onEveryPath_entry _⟩
      · exact .inr (h.available_out hstrict husers hout hrenamed hlisted)
    · refine (h.uses_copy hstrict ha hcopy hblock hlist hinstr hphi hd hlisted).imp_left ?_
      exact fun hhere => ⟨hhere.1, fun hordered => hhere.2 (hordered a (h.body.mem_loop ha) hcopy)⟩
  · intro b hb i instr d pred hi hinstr hd hlisted
    obtain ⟨block, hblock, hmem⟩ := hi
    obtain ⟨before, after, hlist⟩ := List.append_of_mem hmem
    rcases h.arranged.cases hb with rfl | rfl | ⟨a, ha, hcopy⟩
    · obtain ⟨hphi, -⟩ := hentry.reads hcode (by simp [Op.isPhi]) (by simp [Op.operands])
        hblock hlist hinstr
      exact absurd (Op.isPhi_of_mem_incoming hd) hphi
    · obtain ⟨hphi, -⟩ := hexit.reads hcode' (by simp [Op.isPhi]) (by simp [Op.operands])
        hblock hlist hinstr
      exact absurd (Op.isPhi_of_mem_incoming hd) hphi
    · exact h.phis_copy hstrict ha hcopy ⟨block, hblock, hmem⟩ hinstr hd hlisted

end OfGated

end Worker

namespace Splitter

/-- The workers of a split keep definitions available. Let the function be in strict form, let
control enter the loop from the preheader to the header only and leave it for its exit only, let
all blocks of the loop be in reach, and all readers of what it defines. Then in every worker an
operand that names an instruction of the worker is defined in the same block or in another block
on every path from the entry; for an operand of a φ the definition lies on every path to the
incoming block.

In the same block the definition comes first, unless the block is a copy of one that lists an
instruction twice: the worker copies that instruction twice, and all its readers, also those in
between, read the second copy. -/
theorem split_keeps_available {splitter splitter' : Splitter} {p q : Program} {f : FuncRef}
    {func : Func} {loop : Loop} {deps : Dependences} {plan : Plan} {result : Split}
    {entry : BlockRef}
    (hsplit : splitter.split p f loop deps plan = (.ok result, splitter', q))
    (hfunc : p.func? f = some func) (hcheck : p.check f = .ok ())
    (hstrict : p.StrictForm func.blocks)
    (husers : ∀ i, (∃ b ∈ loop, p.Lists b i) → ∀ reader instr, p.instr? reader = some instr →
      .instr i ∈ instr.op.operands → ∃ b, p.FlowReachable func.blocks b ∧ p.Lists b reader)
    (hnodup : loop.blocks.Nodup) (hloop : ∀ b ∈ loop, b ∈ func.blocks)
    (hentry : func.entry? = some entry) (hentryLoop : entry ∉ loop)
    (hgated : loop.Gated (p.FlowEdge func.blocks))
    (hinside : ∀ b ∈ loop, p.FlowReachable func.blocks b) :
    result.workers.length = plan.threads ∧ ∀ worker ∈ result.workers,
      ∃ wfunc, q.func? worker.func = some wfunc ∧ wfunc.blocks.head? = some worker.entry ∧
        worker.exit ∈ wfunc.blocks ∧
        q.AvailableWithin wfunc.blocks (worker.StandsForNodup loop p) := by
  obtain ⟨func', hwell⟩ := Program.wellFormed_of_check hcheck
  obtain rfl := Option.some.inj (hfunc.symm.trans hwell.lookup)
  obtain ⟨s, rfl, rfl, rfl, rfl, hinto⟩ := splitInto_of_split hwell hnodup hloop hsplit
  refine ⟨by rw [← hinto.bodies.length_eq, List.length_range], ?_⟩
  intro worker hworker
  obtain ⟨k, hlt, rfl⟩ := List.getElem_of_mem hworker
  have hlt' : k < (List.range s.plan.threads).length := by rwa [hinto.bodies.length_eq]
  obtain ⟨-, blocks, here, σ, hbody⟩ := hinto.bodies.get hlt' hlt
  obtain ⟨wfunc, hwfunc, harranged⟩ := hbody.layout
  have h : Worker.OfGated s p func result.workers blocks here σ _ q wfunc entry :=
    ⟨hinto, hbody, hwell, hloop, hentry, hentryLoop, hgated, hinside, hwfunc⟩
  exact ⟨wfunc, hwfunc, harranged.head?_eq, harranged.exit_mem,
    h.availableWithin hstrict husers⟩

end Splitter

namespace Counting

theorem nodup_instrs : ∀ b ∈ loop, ∀ block ∈ program.block? b, block.instrs.Nodup := by
  decide

/-- In a program that lists all its instructions in the function, all readers are in reach. -/
theorem exists_listing {p : Program} (hflow : p.FlowEdge func.blocks = program.FlowEdge func.blocks)
    (hlisted : ∀ k < p.instrs.size, ⟨k⟩ ∈ p.listedIn func.blocks) (i : InstrRef) (instr : Instr)
    (h : p.instr? i = some instr) : ∃ b, p.FlowReachable func.blocks b ∧ p.Lists b i := by
  obtain ⟨hlt, -⟩ := Array.getElem?_eq_some_iff.1 h
  obtain ⟨b, hb, hi⟩ := Program.mem_listedIn_iff.1 (hlisted i.index hlt)
  refine ⟨b, ?_, hi⟩
  rw [Program.FlowReachable, hflow]
  exact reachable b hb

/-- The program with a body that squares, adds one to the square, and squares again by the same
instruction. -/
def rereading : Program where
  __ := program
  blocks := program.blocks.setIfInBounds 2 ⟨"body", ⟨0⟩, [⟨4⟩, ⟨9⟩, ⟨4⟩, ⟨5⟩]⟩
  instrs := program.instrs.push ⟨some ⟨2⟩, .binary .add (.instr ⟨4⟩) (.i32 1), .i32, some "above"⟩

/-- The second thread runs the new instruction as well. -/
def rereadingPlan : Plan := ⟨2, [⟨0, [⟨1⟩, ⟨2⟩, ⟨3⟩, ⟨6⟩, ⟨7⟩]⟩, ⟨1, [⟨4⟩, ⟨5⟩, ⟨9⟩]⟩]⟩

theorem flowEdge_rereading : rereading.FlowEdge func.blocks = program.FlowEdge func.blocks := by
  have hall : ∀ a ∈ func.blocks, ∀ b ∈ func.blocks,
      (rereading.FlowEdge func.blocks a b ↔ program.FlowEdge func.blocks a b) := by decide
  funext a b
  refine propext ⟨fun h => ?_, fun h => ?_⟩
  · exact (hall a h.source_mem b h.target_mem).1 h
  · exact (hall a h.source_mem b h.target_mem).2 h

end Counting

namespace Splitter

theorem split_keeps_available_counting :
    ∃ result splitter' q,
      (ofConfig Config.standard).split Counting.program ⟨0⟩ Counting.loop Counting.setting.deps
        Counting.setting.plan = (.ok result, splitter', q) ∧
      result.workers.length = 2 ∧ ∀ worker ∈ result.workers, ∃ wfunc,
        q.func? worker.func = some wfunc ∧ q.AvailableWithin wfunc.blocks fun _ => True := by
  have hok : ((ofConfig Config.standard).split Counting.program ⟨0⟩ Counting.loop
      Counting.setting.deps Counting.setting.plan).1.isOk := by decide +kernel
  obtain ⟨result, splitter', q, hsplit⟩ := exists_of_isOk hok
  have hfunc : Counting.program.func? ⟨0⟩ = some Counting.func := rfl
  have hentry : Counting.func.entry? = some ⟨0⟩ := rfl
  obtain ⟨hlength, hworkers⟩ := split_keeps_available hsplit hfunc (by decide) Counting.strictForm
    (fun _ _ reader instr hreader _ => Counting.exists_listing rfl (by decide) reader instr hreader)
    (by decide) (by decide) hentry (by decide) Counting.gated Counting.reachable_inside
  refine ⟨result, splitter', q, hsplit, hlength, fun worker hworker => ?_⟩
  obtain ⟨wfunc, hwfunc, -, -, havailable⟩ := hworkers worker hworker
  exact ⟨wfunc, hwfunc, havailable.imp fun copy _ b hb _ => Counting.nodup_instrs b hb⟩

/-- The function is in strict form and passes the check, and its body lists the square twice and
reads it in between. The second worker lists the reader before the copy that it reads. -/
theorem split_reads_later_copy_rereading :
    Counting.rereading.func? ⟨0⟩ = some Counting.func ∧
      Counting.rereading.check ⟨0⟩ = .ok () ∧
      Counting.rereading.StrictForm Counting.func.blocks ∧
      (∀ i instr e read, Counting.rereading.instr? i = some instr → .instr e ∈ instr.op.operands →
        Counting.rereading.instr? e = some read → read.hasResult) ∧
      (∀ reader instr, Counting.rereading.instr? reader = some instr →
        ∃ b, Counting.rereading.FlowReachable Counting.func.blocks b ∧
          Counting.rereading.Lists b reader) ∧
      Counting.loop.blocks.Nodup ∧ (∀ b ∈ Counting.loop, b ∈ Counting.func.blocks) ∧
      Counting.func.entry? = some ⟨0⟩ ∧ ⟨0⟩ ∉ Counting.loop ∧
      Counting.loop.Gated (Counting.rereading.FlowEdge Counting.func.blocks) ∧
      (∀ b ∈ Counting.loop, Counting.rereading.FlowReachable Counting.func.blocks b) ∧
      ∃ result splitter' q, (ofConfig Config.standard).split Counting.rereading ⟨0⟩ Counting.loop
          Counting.setting.deps Counting.rereadingPlan = (.ok result, splitter', q) ∧
        ∃ worker ∈ result.workers, ∃ wfunc, q.func? worker.func = some wfunc ∧
          ¬ q.AvailableWithin wfunc.blocks fun _ => True := by
  obtain ⟨result, splitter', q, hsplit, hrun⟩ := exists_of_any (ofConfig Config.standard)
    Counting.rereading ⟨0⟩ Counting.loop Counting.setting.deps Counting.rereadingPlan
    (fun result q => ∃ worker ∈ result.workers, ∃ wfunc ∈ q.func? worker.func,
      (⟨12⟩ : BlockRef) ∈ wfunc.blocks ∧
      (∃ block ∈ q.block? ⟨12⟩, block.instrs = [⟨38⟩, ⟨39⟩, ⟨40⟩, ⟨41⟩]) ∧
      (∃ instr ∈ q.instr? ⟨39⟩, instr.op = .binary .add (.instr ⟨40⟩) (.i32 1)) ∧
      ∀ c ∈ wfunc.blocks, (⟨40⟩ : InstrRef) ∈ q.listedIn [c] → c = ⟨12⟩) (by decide +kernel)
  obtain ⟨worker, hworker, wfunc, hwfunc, hmem, ⟨block, hblock, hlist⟩, ⟨instr, hinstr, hop⟩,
    hothers⟩ := of_decide_eq_true hrun
  have hflow := Counting.flowEdge_rereading
  have hinside : ∀ b ∈ Counting.loop,
      Counting.rereading.FlowReachable Counting.func.blocks b := by
    simpa only [Program.FlowReachable, hflow] using Counting.reachable_inside
  have hreads : ∀ instr ∈ Counting.rereading.instrs, ∀ v ∈ instr.op.operands, ∀ e ∈ v.instr?,
      ∀ read ∈ Counting.rereading.instr? e, read.hasResult := by decide
  refine ⟨rfl, by decide, Counting.strictForm_of_flow hflow (by decide) (by decide) (by decide),
    fun i instr e read hi he hread => hreads instr (Array.mem_of_getElem? hi) _ he e rfl read hread,
    Counting.exists_listing hflow (by decide), by decide, by decide, rfl, by decide,
    hflow ▸ Counting.gated, hinside, result, splitter', q, hsplit, worker, hworker, wfunc, hwfunc,
    fun havailable => ?_⟩
  have hlists : q.Lists ⟨12⟩ ⟨40⟩ := ⟨block, hblock, by simp [hlist]⟩
  rcases havailable.uses ⟨12⟩ hmem block [⟨38⟩] ⟨39⟩ [⟨40⟩, ⟨41⟩] instr ⟨40⟩ hblock hlist hinstr
    (by simp [hop, Op.isPhi]) (by simp [hop, Op.operands]) ⟨⟨12⟩, hmem, hlists⟩ with
    ⟨-, hbefore⟩ | ⟨c, hc, hne, hlists, -⟩
  · exact absurd (hbefore trivial) (by decide)
  · exact hne (hothers c hc (Program.mem_listedIn_iff.2 ⟨c, List.mem_singleton_self c, hlists⟩))

end Splitter

end Decouple
