import Decouple.Program.Slots

/-!
# Readers and writers of slots

An operation is what stands in its slots together with what is left when the slots are emptied
(`Op.eq_of_slots_eq`), so the readers pass over no slot. To say what a writer does it is enough to
say what each reader lists afterwards and that the emptied operation is the same (`Op.Refilled`).

`Op.changeSuccessors` visits the successor slots in the order in which `Op.successors` lists them,
so it does to the slots what `List.mapM` does to that list (`Op.refilled_traverseSuccessors`). In
the list a refusal only has to be carried past the rest.
-/

namespace Decouple

namespace Op

def preds (op : Op) : List BlockRef := op.incoming.map Prod.snd

/-- The operation with its slots emptied: the null pointer stands for each value, and block number
zero for each block. -/
def blank : Op → Op
  | .binary op _ _ => .binary op .null .null
  | .compare cmp _ _ => .compare cmp .null .null
  | .phi incoming => .phi (incoming.map fun _ => (.null, ⟨0⟩))
  | .alloca ty => .alloca ty
  | .load _ => .load .null
  | .store _ _ => .store .null .null
  | .fieldAddr _ layout field => .fieldAddr .null layout field
  | .cast _ => .cast .null
  | .call _ args => .call .null (args.map fun _ => .null)
  | .br _ => .br ⟨0⟩
  | .condBr _ _ _ => .condBr .null ⟨0⟩ ⟨0⟩
  | .switch _ cases _ => .switch .null (cases.map fun (n, _) => (n, ⟨0⟩)) ⟨0⟩
  | .ret value => .ret (value.map fun _ => .null)
  | .unreachable => .unreachable

/-- `op'` is `op` with these values and blocks in its slots, in the order of the readers. -/
structure Refilled (op : Op) (operands : List Value) (successors preds : List BlockRef)
    (op' : Op) : Prop where
  blank_eq : op'.blank = op.blank
  operands_eq : op'.operands = operands
  successors_eq : op'.successors = successors
  preds_eq : op'.preds = preds

variable {op op₁ op₂ : Op}

/-- Pairs are the same if their halves are. -/
theorem pairs_eq {α β : Type} {pairs pairs' : List (α × β)}
    (hfst : pairs.map Prod.fst = pairs'.map Prod.fst)
    (hsnd : pairs.map Prod.snd = pairs'.map Prod.snd) : pairs = pairs' := by
  rw [List.zip_of_prod hfst hsnd, ← List.zip_of_prod rfl rfl]

/-- Two operations are the same if they differ in nothing but their slots, and not in those. -/
theorem eq_of_slots_eq (hblank : op₁.blank = op₂.blank) (hoperands : op₁.operands = op₂.operands)
    (hsuccessors : op₁.successors = op₂.successors) (hpreds : op₁.preds = op₂.preds) :
    op₁ = op₂ := by
  -- An emptied operation is of the same kind, so only one kind is left for `op₂`.
  cases op₁ with
  | phi pairs =>
      cases op₂ with
      | phi pairs' => exact congrArg phi (pairs_eq hoperands hpreds)
      | _ => cases hblank
  | call callee args =>
      cases op₂ with
      | call callee' args' =>
          cases hoperands
          rfl
      | _ => cases hblank
  | switch value pairs otherwise =>
      cases op₂ with
      | switch value' pairs' otherwise' =>
          cases hoperands
          obtain ⟨htargets, hlast⟩ := List.append_inj' hsuccessors rfl
          cases hlast
          have hlabels := congrArg (List.map Prod.fst) (switch.inj hblank).2.1
          rw [List.map_map, List.map_map] at hlabels
          rw [pairs_eq hlabels htargets]
      | _ => cases hblank
  | ret value =>
      cases op₂ with
      | ret value' => cases value <;> cases value' <;> cases hoperands <;> rfl
      | _ => cases hblank
  | _ =>
      cases op₂ <;> cases hblank
      cases hoperands
      cases hsuccessors
      rfl

theorem Refilled.unique {operands : List Value} {successors preds : List BlockRef}
    (h₁ : op.Refilled operands successors preds op₁)
    (h₂ : op.Refilled operands successors preds op₂) : op₁ = op₂ :=
  eq_of_slots_eq (h₁.blank_eq.trans h₂.blank_eq.symm)
    (h₁.operands_eq.trans h₂.operands_eq.symm) (h₁.successors_eq.trans h₂.successors_eq.symm)
    (h₁.preds_eq.trans h₂.preds_eq.symm)

theorem refilled_mapOperands (op : Op) (f : Value → Value) :
    op.Refilled (op.operands.map f) op.successors op.preds (op.mapOperands f) where
  blank_eq := by
    cases op with
    | phi pairs => exact congrArg phi List.map_map
    | call callee args => exact congrArg (call .null) List.map_map
    | ret value => cases value <;> rfl
    | _ => rfl
  operands_eq := operands_mapOperands f op
  successors_eq := successors_mapOperands f op
  preds_eq := preds_mapOperands f op

theorem refilled_mapSuccessors (op : Op) (f : BlockRef → BlockRef) :
    op.Refilled op.operands (op.successors.map f) op.preds (op.mapSuccessors f) where
  blank_eq := by
    cases op with
    | switch value pairs otherwise => exact congrArg (switch .null · ⟨0⟩) List.map_map
    | _ => rfl
  operands_eq := operands_mapSuccessors f op
  successors_eq := successors_mapSuccessors f op
  preds_eq := congrArg (List.map Prod.snd) (incoming_mapSuccessors f op)

section Visits

variable {σ ε : Type} {visit : BlockRef → StateM σ BlockRef} {s t u : σ}

theorem run_mapM_cons {target c : BlockRef} {targets cs : List BlockRef}
    (hfirst : (visit target).run s = (c, t)) (hrest : (targets.mapM visit).run t = (cs, u)) :
    ((target :: targets).mapM visit).run s = (c :: cs, u) := by
  rw [List.mapM_cons, StateT.run_bind, hfirst]
  exact congrArg (fun rest => (c :: rest.1, rest.2)) hrest

theorem run_mapM_append {before after cs ds : List BlockRef}
    (hfirst : (before.mapM visit).run s = (cs, t)) (hrest : (after.mapM visit).run t = (ds, u)) :
    ((before ++ after).mapM visit).run s = (cs ++ ds, u) := by
  rw [List.mapM_append, StateT.run_bind, hfirst]
  exact congrArg (fun rest => (cs ++ rest.1, rest.2)) hrest

/-- To visit the blocks of labelled pairs is to visit the blocks; the labels stay. -/
theorem run_mapM_pairs {α : Type} (visit : BlockRef → StateM σ BlockRef)
    (pairs : List (α × BlockRef)) (s : σ) :
    ∃ pairs' t, (pairs.mapM fun ((n, target) : α × BlockRef) =>
        (return (n, ← visit target) : StateM σ _)).run s = (pairs', t) ∧
      pairs'.map Prod.fst = pairs.map Prod.fst ∧
      ((pairs.map Prod.snd).mapM visit).run s = (pairs'.map Prod.snd, t) := by
  induction pairs generalizing s with
  | nil => exact ⟨[], s, rfl, rfl, rfl⟩
  | cons pair pairs ih =>
      obtain ⟨n, target⟩ := pair
      obtain ⟨pairs', t, hpairs, hlabels, htargets⟩ := ih ((visit target).run s).2
      refine ⟨(n, ((visit target).run s).1) :: pairs', t, ?_, congrArg (n :: ·) hlabels,
        run_mapM_cons rfl htargets⟩
      rw [List.mapM_cons]
      exact congrArg (fun rest => ((n, ((visit target).run s).1) :: rest.1, rest.2)) hpairs

/-- To visit the successor slots is to visit the list of the successors. -/
theorem refilled_traverseSuccessors {targets : List BlockRef}
    (h : (op.successors.mapM visit).run s = (targets, t)) :
    ∃ op', (op.traverseSuccessors visit).run s = (op', t) ∧
      op.Refilled op.operands targets op.preds op' := by
  cases op with
  | switch value pairs otherwise =>
      obtain ⟨pairs', between, hpairs, hlabels, htargets⟩ := run_mapM_pairs visit pairs s
      obtain ⟨rfl, rfl⟩ := Prod.mk.inj ((run_mapM_append htargets rfl).symm.trans h)
      refine ⟨.switch value pairs' ((visit otherwise).run between).1, ?_, ?_, rfl, rfl, rfl⟩
      · rw [traverseSuccessors, StateT.run_bind, hpairs]
        rfl
      · have hcases := congrArg (List.map fun n => (n, (⟨0⟩ : BlockRef))) hlabels
        rw [List.map_map, List.map_map] at hcases
        exact congrArg (switch .null · ⟨0⟩) hcases
  | _ =>
      obtain ⟨rfl, rfl⟩ := Prod.mk.inj h
      exact ⟨_, rfl, rfl, rfl, rfl, rfl⟩

variable {f : BlockRef → Except ε BlockRef} {g : BlockRef → BlockRef} {target c : BlockRef}
  {before after targets : List BlockRef} {refusal : ε}

theorem run_visit_ok (h : f target = .ok c) :
    (changeSuccessors.visit f target).run none = (c, none) := by
  simp only [changeSuccessors.visit, h]
  rfl

theorem run_visit_error (h : f target = .error refusal) :
    (changeSuccessors.visit f target).run none = (target, some refusal) := by
  simp only [changeSuccessors.visit, h]
  rfl

theorem run_mapM_visit_ok (h : ∀ b ∈ targets, f b = .ok (g b)) :
    (targets.mapM (changeSuccessors.visit f)).run none = (targets.map g, none) := by
  induction targets with
  | nil => rfl
  | cons target targets ih =>
      obtain ⟨htarget, hrest⟩ := List.forall_mem_cons.1 h
      exact run_mapM_cons (run_visit_ok htarget) (ih hrest)

/-- After a refusal the blocks stay. -/
theorem run_mapM_visit_refused (targets : List BlockRef) (refusal : ε) :
    (targets.mapM (changeSuccessors.visit f)).run (some refusal) = (targets, some refusal) := by
  induction targets with
  | nil => rfl
  | cons target targets ih => exact run_mapM_cons rfl ih

/-- A change that refuses no successor. -/
theorem changeSuccessors_of_ok (h : ∀ b ∈ op.successors, f b = .ok (g b)) :
    op.changeSuccessors f = (op.mapSuccessors g, none) := by
  obtain ⟨op', hrun, hop'⟩ := refilled_traverseSuccessors (run_mapM_visit_ok h)
  rw [changeSuccessors, hrun, hop'.unique (op.refilled_mapSuccessors g)]

/-- A change that refuses a successor and none before it. -/
theorem changeSuccessors_of_error (hsplit : op.successors = before ++ target :: after)
    (hbefore : ∀ b ∈ before, f b = .ok (g b)) (htarget : f target = .error refusal) :
    ∃ op', op.changeSuccessors f = (op', some refusal) ∧
      op.Refilled op.operands (before.map g ++ target :: after) op.preds op' := by
  have hvisits : (op.successors.mapM (changeSuccessors.visit f)).run none =
      (before.map g ++ target :: after, some refusal) := by
    rw [hsplit]
    exact run_mapM_append (run_mapM_visit_ok hbefore)
      (run_mapM_cons (run_visit_error htarget) (run_mapM_visit_refused after refusal))
  exact refilled_traverseSuccessors hvisits

end Visits

/-- **Readers and writers of slots agree.** A writer changes its slots as `List.map` changes the
list of its reader, and nothing else of the operation. Writers of one kind compose as functions do,
and writers of the two kinds commute. A change of the successors that may be refused stops at the
first slot for which it is: the slots before it are changed and the others are not. If it is
refused for no slot, it is a change of all of them. -/
theorem writers_agree_with_readers {ε : Type} (op : Op) (f f' : Value → Value)
    (g g' : BlockRef → BlockRef) (attempt : BlockRef → Except ε BlockRef) :
    op.Refilled (op.operands.map f) op.successors op.preds (op.mapOperands f) ∧
    op.Refilled op.operands (op.successors.map g) op.preds (op.mapSuccessors g) ∧
    op.mapOperands id = op ∧ op.mapSuccessors id = op ∧
    (op.mapOperands f).mapOperands f' = op.mapOperands (f' ∘ f) ∧
    (op.mapSuccessors g).mapSuccessors g' = op.mapSuccessors (g' ∘ g) ∧
    (op.mapOperands f).mapSuccessors g = (op.mapSuccessors g).mapOperands f ∧
    (∀ before target after refusal, op.successors = before ++ target :: after →
      (∀ b ∈ before, attempt b = .ok (g b)) → attempt target = .error refusal →
      ∃ op', op.changeSuccessors attempt = (op', some refusal) ∧
        op.Refilled op.operands (before.map g ++ target :: after) op.preds op') ∧
    ((∀ b ∈ op.successors, attempt b = .ok (g b)) →
      op.changeSuccessors attempt = (op.mapSuccessors g, none)) :=
  ⟨op.refilled_mapOperands f, op.refilled_mapSuccessors g, op.mapOperands_id, op.mapSuccessors_id,
    op.mapOperands_mapOperands f f', op.mapSuccessors_mapSuccessors g g',
    op.mapSuccessors_mapOperands f g, fun _ _ _ _ => changeSuccessors_of_error,
    changeSuccessors_of_ok⟩

/-- The second case of a switch is refused: the first is changed, the default is not. With a change
that is not refused all three are. -/
theorem writers_agree_with_readers_switch :
    let op : Op := .switch (.param ⟨0⟩ 0) [(3, ⟨1⟩), (5, ⟨2⟩)] ⟨3⟩
    let g (b : BlockRef) : BlockRef := ⟨b.index + 10⟩
    let attempt (b : BlockRef) : Except BlockRef BlockRef :=
      if b = ⟨2⟩ then .error b else .ok (g b)
    op.successors = [⟨1⟩] ++ ⟨2⟩ :: [⟨3⟩] ∧ attempt ⟨1⟩ = .ok ⟨11⟩ ∧ attempt ⟨2⟩ = .error ⟨2⟩ ∧
      (∃ op', op.changeSuccessors attempt = (op', some ⟨2⟩) ∧
        op.Refilled [.param ⟨0⟩ 0] [⟨11⟩, ⟨2⟩, ⟨3⟩] [] op') ∧
      op.changeSuccessors (fun b => (.ok (g b) : Except BlockRef BlockRef)) =
        (.switch (.param ⟨0⟩ 0) [(3, ⟨11⟩), (5, ⟨12⟩)] ⟨13⟩, none) := by
  intro op g attempt
  obtain ⟨-, -, -, -, -, -, -, hstops, -⟩ := writers_agree_with_readers op id id g id attempt
  obtain ⟨-, -, -, -, -, -, -, -, hends⟩ := writers_agree_with_readers op id id g id
    fun b => (.ok (g b) : Except BlockRef BlockRef)
  refine ⟨rfl, rfl, rfl, hstops [⟨1⟩] ⟨2⟩ [⟨3⟩] ⟨2⟩ rfl ?_ rfl, hends fun _ _ => rfl⟩
  intro b hb
  cases List.mem_singleton.1 hb
  rfl

end Op

end Decouple
