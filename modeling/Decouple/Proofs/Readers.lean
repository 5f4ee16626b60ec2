import Decouple.Proofs.BorderValues

/-!
# The use map is exact

The use map is made in one pass over the instruction table, and a reader is entered unless it is
the last one of its list. This leaves no reader out and enters none twice, because instructions
are entered by rising numbers: at instruction `k` the lists rise and hold nothing beyond `k`
(`UseMap.Rising`), so `k` can only be the last of a list that has it.

What the lists hold is `UseMap.mem_readers_ofProgram_iff`; here they are seen to rise, which leaves
one list for each value (`UseMap.readers_list_users`).
-/

namespace Decouple

/-- `users` are the instructions of the table that have `v` as an operand, by rising numbers. -/
structure Program.ListsUsers (p : Program) (v : Value) (users : List InstrRef) : Prop where
  rising : users.Pairwise fun i j => i.index < j.index
  mem_iff : ∀ i, i ∈ users ↔ ∃ instr, p.instr? i = some instr ∧ v ∈ instr.op.operands

namespace UseMap

variable {uses : UseMap} {i j : InstrRef} {v w : Value} {k : Nat}

/-- The lists rise, and only instructions with a number below `k` are entered. -/
structure Rising (uses : UseMap) (k : Nat) : Prop where
  pairwise : ∀ w, (uses.readers w).Pairwise fun i j => i.index < j.index
  lt : ∀ w, ∀ j ∈ uses.readers w, j.index < k

namespace Rising

theorem empty : Rising ∅ 0 where
  pairwise := by simp [readers]
  lt := by simp [readers]

theorem mono {n : Nat} (h : Rising uses k) (hle : k ≤ n) : Rising uses n where
  pairwise := h.pairwise
  lt := fun w j hj => Nat.lt_of_lt_of_le (h.lt w j hj) hle

/-- An instruction that is not the last of a list comes after all of it. -/
theorem lt_of_getLast?_ne (h : Rising uses (i.index + 1))
    (hlast : (uses.readers v).getLast? ≠ some i) : ∀ j ∈ uses.readers v, j.index < i.index := by
  have hpairwise := h.pairwise v
  have hlt := h.lt v
  rcases List.eq_nil_or_concat (uses.readers v) with hnil | ⟨init, last, hconcat⟩
  · simp [hnil]
  · rw [hconcat, List.concat_eq_append] at hlast hpairwise hlt ⊢
    have hne : last.index ≠ i.index := by
      intro heq
      exact hlast (by simp [InstrRef.ext heq])
    have hle : last.index < i.index + 1 := hlt last (by simp)
    -- The last one is the largest, so it is enough that it lies below.
    intro j hj
    rcases List.mem_append.1 hj with hj | hj
    · have hrise := (List.pairwise_append.1 hpairwise).2.2 j hj last (by simp)
      omega
    · rw [List.mem_singleton.1 hj]
      omega

theorem enter (h : Rising uses (i.index + 1)) (v : Value) :
    Rising (uses.enter i v) (i.index + 1) where
  pairwise := by
    intro w
    rw [readers_enter]
    split
    · next hnew =>
        obtain ⟨-, rfl, hlast⟩ := hnew
        rw [List.pairwise_append]
        refine ⟨h.pairwise w, List.pairwise_singleton .., ?_⟩
        intro j hj i' hi'
        rw [List.mem_singleton.1 hi']
        exact h.lt_of_getLast?_ne hlast j hj
    · exact h.pairwise w
  lt := by
    intro w j hj
    rcases mem_readers_enter_iff.1 hj with hj | ⟨-, -, rfl⟩
    · exact h.lt w j hj
    · exact Nat.lt_succ_self _

theorem enterInstr (h : Rising uses (i.index + 1)) (instr : Instr) :
    Rising (uses.enterInstr i instr) (i.index + 1) := by
  unfold UseMap.enterInstr
  induction instr.op.operands generalizing uses with
  | nil => exact h
  | cons v operands ih => exact ih (h.enter v)

/-- The pass over a table whose first entry has the number `k`. -/
theorem foldl (h : Rising uses k) (instrs : List Instr) :
    Rising ((instrs.zipIdx k).foldl (fun uses (instr, k) => uses.enterInstr ⟨k⟩ instr) uses)
      (k + instrs.length) := by
  induction instrs generalizing uses k with
  | nil => exact h
  | cons instr instrs ih =>
      have hfirst : Rising (uses.enterInstr ⟨k⟩ instr) (k + 1) :=
        enterInstr (h.mono (Nat.le_succ k)) instr
      rw [List.zipIdx_cons, List.foldl_cons, List.length_cons, ← Nat.add_assoc, Nat.add_right_comm]
      exact ih hfirst

theorem ofProgram (p : Program) : Rising (ofProgram p) p.instrs.size := by
  have hall := Rising.empty.foldl p.instrs.toList
  rwa [Nat.zero_add, Array.length_toList] at hall

end Rising

theorem listsUsers_readers (p : Program) (hv : v.isVariable) :
    p.ListsUsers v ((ofProgram p).readers v) where
  rising := (Rising.ofProgram p).pairwise v
  mem_iff := by
    intro i
    rw [mem_readers_ofProgram_iff, and_iff_right hv]

theorem readers_eq_nil (p : Program) (hv : ¬ v.isVariable) : (ofProgram p).readers v = [] := by
  rw [List.eq_nil_iff_forall_not_mem]
  intro i hi
  exact hv (mem_readers_ofProgram_iff.1 hi).1

/-- **The use map is exact.** The readers of a result and of a parameter are the instructions of
the table that have it as an operand, whether a block holds them or not, each once and by rising
numbers. No readers are kept for a constant, the null pointer and the address of a function. -/
theorem readers_list_users (p : Program) :
    (∀ i, p.ListsUsers (.instr i) ((ofProgram p).readers (.instr i))) ∧
    (∀ f index, p.ListsUsers (.param f index) ((ofProgram p).readers (.param f index))) ∧
    (∀ n ty, (ofProgram p).readers (.int n ty) = []) ∧
    (ofProgram p).readers .null = [] ∧
    ∀ f, (ofProgram p).readers (.func f) = [] :=
  ⟨fun _ => listsUsers_readers p rfl, fun _ _ => listsUsers_readers p rfl,
    fun _ _ => readers_eq_nil p Bool.false_ne_true, readers_eq_nil p Bool.false_ne_true,
    fun _ => readers_eq_nil p Bool.false_ne_true⟩

end UseMap

end Decouple
