import Decouple.Proofs.ArgTypes
import Decouple.Proofs.Changes

/-!
# Splits that stop before the first change

A split of a loop first asks whether the request is in order, then what crosses the border of the
loop, whether some thread runs each live-out, and whether a block can be put in the place of the
loop. Five refusals belong to these questions (`Failure.isEarly`). Once there is a place for the new
block no step is refused for one of them (`Splitter.not_isEarly_of_splitIn`), so a split that is
refused for one of them has changed nothing.

Only the first question comes before the loop gets its number. Together this is
`Splitter.split_stops_early`: what a split that fails leaves behind, by the reason for which it
fails.
-/

namespace Decouple

open Outcome Edit

namespace Splitter

variable {splitter splitter' : Splitter} {p q : Program} {f : FuncRef} {loop : Loop}
  {deps : Dependences} {plan : Plan} {outcome : Except Failure Split} {s : Setting}
  {failure : Failure}

theorem apply_splitIn_of_error (h : Dispatch.exitPosition p s = .error failure) :
    (splitIn s).apply p = (.error failure, p) := by
  have hinstall : (Dispatch.install s).apply p = (.error failure, p) := by
    rw [Dispatch.install, Edit.apply_bind, apply_get]
    simp only [h, Edit.apply_bind, apply_liftM]
  rw [splitIn, Edit.apply_bind, hinstall]

/-- Once there is a place for the new block, no early reason is left. -/
theorem not_isEarly_of_splitIn {position : Nat} (h : Dispatch.exitPosition p s = .ok position)
    (hrun : (splitIn s).apply p = (.error failure, q)) : ¬ failure.isEarly := by
  have hposition : Calm (·.isAstray) (Dispatch.exitPosition p s) := by
    rw [h]
    exact FailsOnly.ok position
  rcases (steady_splitIn_of_exitPosition hposition fun _ => id).calm failure q hrun with
    hcommon | hastray
  · exact (Failure.not_of_isCommon hcommon).1
  · exact (Failure.not_of_isAstray hastray).1

/-- A split that changes the program has found a place for the new block. -/
theorem exists_setting_of_ne (h : splitter.split p f loop deps plan = (outcome, splitter', q))
    (hne : q ≠ p) :
    ∃ s position, setting splitter.config splitter.numbered p f loop deps plan = .ok s ∧
      Dispatch.exitPosition p s = .ok position ∧ (splitIn s).apply p = (outcome, q) := by
  rcases split_cases h with ⟨_, -, -, -, hsame⟩ | ⟨-, ⟨-, -, -, hsame⟩ | ⟨-, hrun⟩⟩
  · exact absurd hsame hne
  · exact absurd hsame hne
  · rw [Edit.apply_bind, apply_liftM] at hrun
    cases hsetting : setting splitter.config splitter.numbered p f loop deps plan with
    | error failure =>
        rw [hsetting] at hrun
        exact absurd (Prod.mk.inj hrun).2.symm hne
    | ok s =>
        rw [hsetting] at hrun
        have hrun : (splitIn s).apply p = (outcome, q) := hrun
        cases hposition : Dispatch.exitPosition p s with
        | ok position => exact ⟨s, position, rfl, hposition, hrun⟩
        | error failure =>
            rw [apply_splitIn_of_error hposition] at hrun
            exact absurd (Prod.mk.inj hrun).2.symm hne

/-- **Splits that stop early.** If the request is refused, the program and the splitter are as they
were; otherwise a split that is not broken off takes the next loop number. If the border of the
loop, a live-out that no thread runs or the exit of the loop is the reason to refuse it, the
program is as it was. So a split that changes the program has found the exit in the layout and
outside the loop, a thread for every live-out, and no φ at the exit with two pairs from the
loop. -/
theorem split_stops_early (h : splitter.split p f loop deps plan = (outcome, splitter', q)) :
    (∀ failure, checkRequest splitter.config p f loop plan = .error failure →
      outcome = .error failure ∧ splitter' = splitter ∧ q = p) ∧
    (checkRequest splitter.config p f loop plan = .ok () → IsAnswer outcome →
      splitter' = { splitter with numbered := splitter.numbered + 1 }) ∧
    (∀ failure, outcome = .error failure → failure.isEarly → q = p) ∧
    (q ≠ p → loop.exit ∉ loop ∧ (∃ func, p.func? f = some func ∧ loop.exit ∈ func.blocks) ∧
      (∃ live, Liveness.ofLoop p loop = .ok live ∧
        ∀ i ∈ live.liveOut, ∃ thread, plan.threadOf? i = some thread) ∧
      ∀ i, p.Lists loop.exit i → ∃ instr, p.instr? i = some instr ∧
        instr.op.incoming.countP (fun pair => pair.2 ∈ loop) ≤ 1) := by
  refine ⟨fun failure hrefused => ?_, fun hrequest hanswer => ?_, fun failure hfails hearly => ?_,
    fun hne => ?_⟩
  · rcases split_cases h with ⟨failure', hrefused', hoccurs⟩ | ⟨hrequest, -⟩
    · rwa [Except.error.inj (hrefused.symm.trans hrefused')]
    · cases hrequest.symm.trans hrefused
  · rcases split_cases h with ⟨failure, hrefused, -⟩ | ⟨-, ⟨-, hfault, -⟩ | ⟨hnext, -⟩⟩
    · cases hrequest.symm.trans hrefused
    · exact absurd hfault (hanswer _)
    · exact hnext
  · by_contra hne
    obtain ⟨s, position, -, hposition, hrun⟩ := exists_setting_of_ne h hne
    exact not_isEarly_of_splitIn hposition (hfails ▸ hrun) hearly
  · obtain ⟨s, position, hsetting, hposition, -⟩ := exists_setting_of_ne h hne
    obtain ⟨rfl, rfl, -, -, -, hlive, -, howned, -⟩ := setting_eq_ok hsetting
    obtain ⟨hexit, func, block, hfunc, hindex, hblock, hphis⟩ :=
      Dispatch.exitPosition_eq_ok hposition
    refine ⟨hexit, ⟨func, hfunc, ?_⟩, ⟨s.live, hlive, howned⟩, ?_⟩
    · exact List.isSome_idxOf?.1 (Option.isSome_iff_exists.2 ⟨position, hindex⟩)
    · rintro i ⟨block', hblock', hi⟩
      obtain rfl := Option.some.inj (hblock.symm.trans hblock')
      exact hphis i hi

/-- A plan without SCCs leaves the live-out of the loop to nobody. The request is in order, so the
loop gets its number, and the program is as it was. -/
theorem split_stops_early_counting :
    ∃ splitter' q, (ofConfig Config.standard).split Counting.program ⟨0⟩ Counting.loop
        Counting.setting.deps (Plan.empty 2) =
          (.error (.violated (.liveOutUnowned "i")), splitter', q) ∧
      splitter' = { config := Config.standard, numbered := 1 } ∧ q = Counting.program := by
  rcases hrun : (ofConfig Config.standard).split Counting.program ⟨0⟩ Counting.loop
      Counting.setting.deps (Plan.empty 2) with ⟨outcome, splitter', q⟩
  have heval : (((ofConfig Config.standard).split Counting.program ⟨0⟩ Counting.loop
      Counting.setting.deps (Plan.empty 2)).1.map fun _ => ()) =
        .error (.violated (.liveOutUnowned "i")) := by
    decide +kernel
  have hrequest : checkRequest Config.standard Counting.program ⟨0⟩ Counting.loop (Plan.empty 2) =
      .ok () := by
    decide +kernel
  rw [hrun] at heval
  obtain ⟨-, hnext, hsame, -⟩ := split_stops_early hrun
  cases outcome with
  | ok result => cases heval
  | error failure =>
      obtain rfl := Except.error.inj heval
      have hanswer : IsAnswer (.error (.violated (.liveOutUnowned "i")) : Except Failure Split) :=
        fun fault hfault => by cases hfault
      exact ⟨splitter', q, rfl, hnext hrequest hanswer, hsame _ rfl rfl⟩

end Splitter

end Decouple
