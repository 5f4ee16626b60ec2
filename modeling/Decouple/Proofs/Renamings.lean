import Decouple.Proofs.LiveLists
import Decouple.Proofs.SlotLaws

/-!
# Renaming at once

A renaming is applied to one instruction after the other, and yet what it does can be said in one
step: each operand slot of the listed instructions gets what the table has for the value that stood
there before (`Renaming.Renames`). A new value is not looked up, even if it has an entry, so the
order of the list makes no difference as long as no instruction is listed twice.

What becomes of the program is known from `Rewrites.of_apply`, where an instruction is renamed as
often as it is listed. To this the module adds that the renaming comes to its end, and how many
slots it counts on the way.
-/

namespace Decouple

namespace Renaming

variable {σ : Renaming} {p q : Program} {is js : List InstrRef} {n : Nat}

/-- `w` is what stands in a slot after the renaming if `v` stood there before: the entry of `v`,
or `v` where there is none. -/
def Puts (σ : Renaming) (v w : Value) : Prop := σ[v]? = some w ∨ v ∉ σ ∧ w = v

/-- `q` is `p` with the operands of the listed instructions renamed. The slots are compared with
what stood in them in `p`; nothing but these slots is different. -/
structure Renames (σ : Renaming) (is : List InstrRef) (p q : Program) : Prop where
  funcs_eq : q.funcs = p.funcs
  blocks_eq : q.blocks = p.blocks
  structs_eq : q.structs = p.structs
  size_eq : q.instrs.size = p.instrs.size
  unlisted : ∀ i, i ∉ is → q.instr? i = p.instr? i
  listed : ∀ i ∈ is, ∀ instr, p.instr? i = some instr →
    ∃ operands op, List.Forall₂ σ.Puts instr.op.operands operands ∧
      instr.op.Refilled operands instr.op.successors instr.op.preds op ∧
      q.instr? i = some { instr with op }

/-- No value of the table has an entry itself. -/
def Final (σ : Renaming) : Prop := ∀ v w : Value, σ[v]? = some w → w ∉ σ

def renameInstr (σ : Renaming) (instr : Instr) : Instr :=
  { instr with op := instr.op.mapOperands σ.rename }

theorem puts_rename (σ : Renaming) (v : Value) : σ.Puts v (σ.rename v) := by
  unfold Puts rename
  cases hv : σ[v]? with
  | none => exact .inr ⟨by simp [Std.TreeMap.mem_iff_isSome_getElem?, hv], rfl⟩
  | some w => exact .inl rfl

theorem forall₂_puts (σ : Renaming) (values : List Value) :
    List.Forall₂ σ.Puts values (values.map σ.rename) := by
  rw [List.forall₂_map_right_iff, List.forall₂_same]
  exact fun v _ => σ.puts_rename v

def hitsOf (σ : Renaming) (p : Program) (is : List InstrRef) : Nat :=
  (p.operandsOf is).countP fun v => σ.contains v

theorem hitsOf_cons {i : InstrRef} {instr : Instr} (hi : p.instr? i = some instr)
    (is : List InstrRef) : σ.hitsOf p (i :: is) = σ.hits instr.op + σ.hitsOf p is := by
  simp [hitsOf, hits, Program.operandsOf, hi]

theorem hitsOf_congr (h : ∀ i ∈ is, q.instr? i = p.instr? i) : σ.hitsOf q is = σ.hitsOf p is := by
  have hoperands : q.operandsOf is = p.operandsOf is :=
    List.flatMap_congr fun i hi => by rw [h i hi]
  rw [hitsOf, hitsOf, hoperands]

theorem hitsOf_perm (h : js.Perm is) : σ.hitsOf p js = σ.hitsOf p is :=
  (h.flatMap_right _).countP_eq _

/-- The renaming of a list of instructions comes to its end if they are all there. -/
theorem exists_applyEach (hnodup : is.Nodup)
    (hthere : ∀ i ∈ is, ∃ instr, p.instr? i = some instr) :
    ∃ q, (σ.applyEach is).apply p = (.ok (σ.hitsOf p is), q) := by
  induction is generalizing p with
  | nil => exact ⟨p, rfl⟩
  | cons i is ih =>
      obtain ⟨hnot, hnodup⟩ := List.nodup_cons.1 hnodup
      obtain ⟨⟨instr, hi⟩, hthere⟩ := List.forall_mem_cons.1 hthere
      obtain ⟨p₁, hset⟩ : ∃ p₁, (Edit.setInstr i (σ.renameInstr instr)).apply p = (.ok (), p₁) :=
        ⟨_, rfl⟩
      -- The rest of the list finds its instructions as they were, and counts what stood in `p`.
      have hkept : ∀ j ∈ is, p₁.instr? j = p.instr? j := by
        intro j hj
        have hne : j ∉ [i] := fun h => hnot (List.mem_singleton.1 h ▸ hj)
        have hchange := (Rewrites.of_setInstr σ.renameInstr hi hset).instr? j
        rwa [List.count_eq_zero_of_not_mem hne, Function.iterate_zero, Option.map_id] at hchange
      obtain ⟨q, hrest⟩ := ih hnodup fun j hj => hkept j hj ▸ hthere j hj
      refine ⟨q, ?_⟩
      rw [hitsOf_cons hi, ← hitsOf_congr hkept]
      unfold applyEach
      rw [Edit.get_bind_eq_ok_iff]
      refine Edit.apply_bind_eq_ok_iff.2 ⟨instr, p, ?_, ?_⟩
      · exact Edit.liftM_eq_ok_iff.2 ⟨Program.instr_eq_ok_iff.2 hi, rfl⟩
      · refine Edit.apply_bind_eq_ok_iff.2 ⟨(), p₁, hset, ?_⟩
        exact Edit.apply_bind_eq_ok_iff.2 ⟨_, q, hrest, rfl⟩

theorem exists_apply (hnodup : is.Nodup) (hthere : ∀ i ∈ is, ∃ instr, p.instr? i = some instr) :
    ∃ q, (σ.apply is).apply p = (.ok (σ.hitsOf p is), q) := by
  unfold Renaming.apply
  split
  · next hempty =>
      have hzero : σ.hitsOf p is = 0 := by
        rw [hitsOf, List.countP_eq_zero]
        intro v _
        simp [Std.TreeMap.contains_of_isEmpty hempty]
      exact ⟨p, by rw [hzero]; rfl⟩
  · exact exists_applyEach hnodup hthere

/-- All listed instructions are renamed, and no other. -/
theorem rewrites_of_apply (hnodup : is.Nodup) (h : (σ.apply is).apply p = (.ok n, q)) :
    Rewrites (fun i instr => if i ∈ is then σ.renameInstr instr else instr) p q := by
  refine (Rewrites.of_apply h).congr ?_
  intro i instr _
  split
  · next hi =>
      rw [List.count_eq_one_of_mem hnodup hi]
      rfl
  · next hi =>
      rw [List.count_eq_zero_of_not_mem hi]
      rfl

theorem renames_of_apply (hnodup : is.Nodup) (h : (σ.apply is).apply p = (.ok n, q)) :
    σ.Renames is p q := by
  have hchange := rewrites_of_apply hnodup h
  refine ⟨hchange.funcs_eq, hchange.blocks_eq, hchange.structs_eq, hchange.size_eq, ?_, ?_⟩
  · intro i hi
    simp [hchange.instr?, hi]
  · intro i hi instr hinstr
    refine ⟨_, _, σ.forall₂_puts _, instr.op.refilled_mapOperands σ.rename, ?_⟩
    rw [hchange.instr?, hinstr, Option.map_some, if_pos hi]
    rfl

theorem apply_perm (hperm : js.Perm is) (hnodup : is.Nodup)
    (hthere : ∀ i ∈ is, ∃ instr, p.instr? i = some instr) :
    (σ.apply js).apply p = (σ.apply is).apply p := by
  have hnodup' : js.Nodup := hperm.nodup_iff.2 hnodup
  obtain ⟨q, hq⟩ := exists_apply (σ := σ) hnodup hthere
  obtain ⟨r, hr⟩ := exists_apply (σ := σ) hnodup' fun j hj => hthere j (hperm.mem_iff.1 hj)
  have hsame : r = q := by
    refine (rewrites_of_apply hnodup' hr).unique ((rewrites_of_apply hnodup hq).congr ?_)
    intro i instr _
    simp only [hperm.mem_iff]
  rw [hq, hr, hitsOf_perm hperm, hsame]

theorem Final.rename_not_mem (hσ : σ.Final) (v : Value) : σ.rename v ∉ σ := by
  rcases σ.puts_rename v with hentry | ⟨hnot, heq⟩
  · exact hσ v _ hentry
  · rwa [heq]

theorem Final.renameInstr_renameInstr (hσ : σ.Final) (instr : Instr) :
    σ.renameInstr (σ.renameInstr instr) = σ.renameInstr instr := by
  have hrename : σ.rename ∘ σ.rename = σ.rename := by
    funext v
    have hnone := Std.TreeMap.getElem?_eq_none (hσ.rename_not_mem v)
    rw [Function.comp_apply, rename, hnone, Option.getD_none]
  rw [renameInstr, renameInstr, Op.mapOperands_mapOperands, hrename]

/-- Where no new value has an entry, nothing is left to rename. -/
theorem Final.apply_again (hσ : σ.Final) (hnodup : is.Nodup)
    (hthere : ∀ i ∈ is, ∃ instr, p.instr? i = some instr)
    (h : (σ.apply is).apply p = (.ok n, q)) : (σ.apply is).apply q = (.ok 0, q) := by
  have hlisted : ∀ i ∈ is, ∃ instr, q.instr? i = some (σ.renameInstr instr) := by
    intro i hi
    obtain ⟨instr, hinstr⟩ := hthere i hi
    refine ⟨instr, ?_⟩
    rw [(rewrites_of_apply hnodup h).instr?, hinstr, Option.map_some, if_pos hi]
  have hzero : σ.hitsOf q is = 0 := by
    rw [hitsOf, List.countP_eq_zero]
    intro v hv hcontains
    obtain ⟨i, hi, hv⟩ := List.mem_flatMap.1 hv
    obtain ⟨instr, hinstr⟩ := hlisted i hi
    rw [hinstr, Option.map_some, Option.getD_some, renameInstr, Op.operands_mapOperands] at hv
    obtain ⟨u, -, rfl⟩ := List.mem_map.1 hv
    exact hσ.rename_not_mem u (Std.TreeMap.contains_iff_mem.1 hcontains)
  have hstill : ∀ i ∈ is, ∃ instr, q.instr? i = some instr := fun i hi =>
    (hlisted i hi).elim fun _ hinstr => ⟨_, hinstr⟩
  obtain ⟨r, hr⟩ := exists_apply (σ := σ) hnodup hstill
  have hsame : r = q := by
    refine (rewrites_of_apply hnodup hr).unique ((Rewrites.refl q).congr ?_)
    intro i instr hinstr
    split
    · next hi =>
        obtain ⟨old, hold⟩ := hlisted i hi
        obtain rfl := Option.some.inj (hinstr.symm.trans hold)
        exact (hσ.renameInstr_renameInstr old).symm
    · rfl
  rw [hr, hzero, hsame]

/-- **A renaming acts at once.** Let the listed instructions be there, each listed once. Then the
renaming comes to its end. Each operand slot of theirs gets the entry of the value that stood
there before, or keeps it, and nothing else of the program is changed; the number that is returned
counts the slots with an entry. The order of the list makes no difference. If no new value has an
entry, a second time changes nothing. -/
theorem apply_renames_at_once (σ : Renaming) (p : Program) (is : List InstrRef)
    (hnodup : is.Nodup) (hthere : ∀ i ∈ is, i.index < p.instrs.size) :
    ∃ q, (σ.apply is).apply p = (.ok ((p.operandsOf is).countP fun v => σ.contains v), q) ∧
      σ.Renames is p q ∧
      (∀ js, js.Perm is → (σ.apply js).apply p = (σ.apply is).apply p) ∧
      (σ.Final → (σ.apply is).apply q = (.ok 0, q)) := by
  have hfound : ∀ i ∈ is, ∃ instr, p.instr? i = some instr := fun i hi =>
    ⟨_, Array.getElem?_eq_getElem (hthere i hi)⟩
  obtain ⟨q, hq⟩ := exists_apply (σ := σ) hnodup hfound
  exact ⟨q, hq, renames_of_apply hnodup hq, fun _ hperm => apply_perm hperm hnodup hfound,
    fun hσ => hσ.apply_again hnodup hfound hq⟩

/-- Two results change places in a sum and a φ, with three slots to count. If the first result is
replaced by the null pointer instead, two slots are found, and none the second time. -/
theorem apply_renames_at_once_swap :
    let a : Value := .instr ⟨0⟩
    let b : Value := .instr ⟨1⟩
    let p : Program := { Program.empty with instrs := #[
      ⟨some ⟨0⟩, .load .null, .i32, none⟩, ⟨some ⟨0⟩, .load .null, .i32, none⟩,
      ⟨some ⟨0⟩, .binary .add a b, .i32, none⟩,
      ⟨none, .phi [(a, ⟨0⟩), (.null, ⟨1⟩)], .i32, none⟩] }
    let swap : Renaming := ((∅ : Renaming).insert a b).insert b a
    let drop : Renaming := (∅ : Renaming).insert a .null
    let is : List InstrRef := [⟨3⟩, ⟨2⟩]
    is.Nodup ∧ (∀ i ∈ is, i.index < p.instrs.size) ∧ ¬ swap.Final ∧ drop.Final ∧
      (∃ q, (swap.apply is).apply p = (.ok 3, q) ∧ swap.Renames is p q ∧
        (swap.apply is.reverse).apply p = (.ok 3, q)) ∧
      ∃ q, (drop.apply is).apply p = (.ok 2, q) ∧ (drop.apply is).apply q = (.ok 0, q) := by
  intro a b p swap drop is
  have hnodup : is.Nodup := by decide
  have hthere : ∀ i ∈ is, i.index < p.instrs.size := by decide
  have hdrop : drop.Final := by
    intro v w hentry
    rw [Std.TreeMap.getElem?_insert] at hentry
    split at hentry
    · rw [← Option.some.inj hentry]
      decide +kernel
    · simp at hentry
  obtain ⟨q, hswap, hrenames, hperm, -⟩ := apply_renames_at_once swap p is hnodup hthere
  obtain ⟨r, hr, -, -, hagain⟩ := apply_renames_at_once drop p is hnodup hthere
  have hthree : ((p.operandsOf is).countP fun v => swap.contains v) = 3 := by decide +kernel
  have htwo : ((p.operandsOf is).countP fun v => drop.contains v) = 2 := by decide +kernel
  rw [hthree] at hswap
  rw [htwo] at hr
  refine ⟨hnodup, hthere, ?_, hdrop, ⟨q, hswap, hrenames, ?_⟩, r, hr, hagain hdrop⟩
  · intro hfinal
    exact hfinal b a (by simp [swap]) (by decide +kernel)
  · rw [hperm is.reverse is.reverse_perm, hswap]

end Renaming

end Decouple
