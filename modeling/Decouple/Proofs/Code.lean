import Decouple.Exchange
import Decouple.Renaming

/-!
# Code that passes values through structures

The code that is written when a loop is split, as lists of operations. Instructions get
the next free references, so a list that starts at the reference `next` says which of its
instructions read which. Storing and loading put two instructions for each value: one for
the address of its field and one for the access.

Such code is self-contained (`SelfContained`): it reads its own earlier instructions and,
beside them, only values that are named for it.
-/

namespace Decouple

theorem Exchange.field_eq_ok {k n : Nat} (h : Exchange.field k = .ok n) : n = k := by
  unfold Exchange.field at h
  split at h
  · exact (Except.ok.inj h).symm
  · cases h

/-- Stores values, each into the field beside it. The first instruction gets the
reference `next`. -/
def storeCode (layout : StructRef) (base : InstrRef) : Nat → List (Value × Nat) → List (Op × Ty)
  | _, [] => []
  | next, (v, k) :: rest =>
      (.fieldAddr (.instr base) layout k, .ptr) :: (.store v (.instr ⟨next⟩), .void) ::
        storeCode layout base (next + 2) rest

def storeRefs : Nat → List (Value × Nat) → List InstrRef
  | _, [] => []
  | next, _ :: rest => ⟨next + 1⟩ :: storeRefs (next + 2) rest

/-- Loads values of the given types, the first one from field `k`. The first
instruction gets the reference `next`. -/
def loadCode (layout : StructRef) (base : InstrRef) : Nat → Nat → List Ty → List (Op × Ty)
  | _, _, [] => []
  | next, k, ty :: rest =>
      (.fieldAddr (.instr base) layout k, .ptr) :: (.load (.instr ⟨next⟩), ty) ::
        loadCode layout base (next + 2) (k + 1) rest

def loadRenaming (σ : Renaming) : Nat → List Value → Renaming
  | _, [] => σ
  | next, v :: rest => loadRenaming (σ.insert v (.instr ⟨next + 1⟩)) (next + 2) rest

def callCode (dispatch : FuncRef) (shared : InstrRef) : Nat → List FuncRef → List (Op × Ty)
  | _, [] => []
  | thread, worker :: rest =>
      (.call (.func dispatch) [.i32 thread, .func worker, .instr shared], .void) ::
        callCode dispatch shared (thread + 1) rest

/-- Starts the workers and waits for them. The first instruction gets the reference
`next`. -/
def runCode (init dispatch join : FuncRef) (argPtr : InstrRef) (next : Nat)
    (workers : List FuncRef) : List (Op × Ty) :=
  (.call (.func init) [], .void) :: (.cast (.instr argPtr), .ptr) ::
    callCode dispatch ⟨next + 1⟩ 0 workers ++ [(.call (.func join) [], .void)]

@[simp] theorem length_storeCode (layout : StructRef) (base : InstrRef) (next : Nat)
    (fields : List (Value × Nat)) :
    (storeCode layout base next fields).length = 2 * fields.length := by
  induction fields generalizing next with
  | nil => rfl
  | cons field fields ih =>
      rw [storeCode, List.length_cons, List.length_cons, ih, List.length_cons]
      omega

@[simp] theorem length_storeRefs (next : Nat) (fields : List (Value × Nat)) :
    (storeRefs next fields).length = fields.length := by
  induction fields generalizing next with
  | nil => rfl
  | cons field fields ih => rw [storeRefs, List.length_cons, ih, List.length_cons]

@[simp] theorem length_loadCode (layout : StructRef) (base : InstrRef) (next k : Nat)
    (types : List Ty) : (loadCode layout base next k types).length = 2 * types.length := by
  induction types generalizing next k with
  | nil => rfl
  | cons ty types ih =>
      rw [loadCode, List.length_cons, List.length_cons, ih, List.length_cons]
      omega

@[simp] theorem length_callCode (dispatch : FuncRef) (shared : InstrRef) (thread : Nat)
    (workers : List FuncRef) :
    (callCode dispatch shared thread workers).length = workers.length := by
  induction workers generalizing thread with
  | nil => rfl
  | cons worker workers ih => rw [callCode, List.length_cons, ih, List.length_cons]

@[simp] theorem length_runCode (init dispatch join : FuncRef) (argPtr : InstrRef) (next : Nat)
    (workers : List FuncRef) :
    (runCode init dispatch join argPtr next workers).length = workers.length + 3 := by
  simp [runCode]

section Positions

variable {layout : StructRef} {base : InstrRef} {next : Nat}

/-- The instruction for the address of a field, and the one that stores into it. -/
theorem getElem?_storeCode {fields : List (Value × Nat)} {j : Nat} {field : Value × Nat}
    (h : fields[j]? = some field) :
    (storeCode layout base next fields)[2 * j]? =
        some (.fieldAddr (.instr base) layout field.2, .ptr) ∧
      (storeCode layout base next fields)[2 * j + 1]? =
        some (.store field.1 (.instr ⟨next + 2 * j⟩), .void) := by
  induction fields generalizing next j with
  | nil => cases h
  | cons first fields ih =>
      cases j with
      | zero =>
          obtain rfl := Option.some.inj h
          exact ⟨rfl, rfl⟩
      | succ j =>
          obtain ⟨haddr, hstore⟩ := @ih (next + 2) j h
          refine ⟨haddr, hstore.trans ?_⟩
          rw [Nat.add_assoc, Nat.mul_succ, Nat.add_comm 2]

theorem getElem?_storeRefs {fields : List (Value × Nat)} {j : Nat} {field : Value × Nat}
    (h : fields[j]? = some field) : (storeRefs next fields)[j]? = some ⟨next + 2 * j + 1⟩ := by
  induction fields generalizing next j with
  | nil => cases h
  | cons first fields ih =>
      cases j with
      | zero => rfl
      | succ j =>
          refine (@ih (next + 2) j h).trans ?_
          rw [Nat.add_assoc next, Nat.mul_succ, Nat.add_comm 2]

/-- The instruction for the address of a field, and the one that loads from it. -/
theorem getElem?_loadCode {k : Nat} {types : List Ty} {j : Nat} {ty : Ty}
    (h : types[j]? = some ty) :
    (loadCode layout base next k types)[2 * j]? =
        some (.fieldAddr (.instr base) layout (k + j), .ptr) ∧
      (loadCode layout base next k types)[2 * j + 1]? =
        some (.load (.instr ⟨next + 2 * j⟩), ty) := by
  induction types generalizing next k j with
  | nil => cases h
  | cons first types ih =>
      cases j with
      | zero =>
          obtain rfl := Option.some.inj h
          exact ⟨rfl, rfl⟩
      | succ j =>
          obtain ⟨haddr, hload⟩ := @ih (next + 2) (k + 1) j h
          refine ⟨haddr.trans ?_, hload.trans ?_⟩
          · rw [Nat.add_assoc, Nat.add_comm 1]
          · rw [Nat.add_assoc, Nat.mul_succ, Nat.add_comm 2]

end Positions

/-- What the outputs of the workers are loaded with: nothing if there are none. -/
def unpackCode (exchange : Exchange) (argPtr : InstrRef) (next : Nat) : List Ty → List (Op × Ty)
  | [] => []
  | types => (.fieldAddr (.instr argPtr) exchange.args exchange.outField, .ptr) ::
      loadCode exchange.outs ⟨next⟩ (next + 1) 0 types

def replacementCode (exchange : Exchange) (init dispatch join : FuncRef) (workers : List FuncRef)
    (liveIn : List Value) (types : List Ty) (exit : BlockRef) (next : Nat) : List (Op × Ty) :=
  (.alloca (.struct exchange.args), .ptr) ::
    storeCode exchange.args ⟨next⟩ (next + 1) liveIn.zipIdx ++
    runCode init dispatch join ⟨next⟩ (next + 1 + 2 * liveIn.length) workers ++
    unpackCode exchange ⟨next⟩ (next + 1 + 2 * liveIn.length + (workers.length + 3)) types ++
    [(.br exit, .void)]

def hookCode (hook? : Option FuncRef) : List (Op × Ty) :=
  hook?.toList.map fun hook => (.call (.func hook) [], .void)

/-- The pointer to the arguments in a worker whose code starts at the reference `next`. -/
def argPtrAt (hook? : Option FuncRef) (next : Nat) : InstrRef := ⟨next + (hookCode hook?).length⟩

def entryCode (exchange : Exchange) (hook? : Option FuncRef) (func : FuncRef) (next : Nat)
    (types : List Ty) : List (Op × Ty) :=
  hookCode hook? ++ (.cast (.param func 0), .ptr) ::
    loadCode exchange.args (argPtrAt hook? next) ((argPtrAt hook? next).index + 1) 0 types

theorem length_entryCode (exchange : Exchange) (hook? : Option FuncRef) (func : FuncRef)
    (next : Nat) (types : List Ty) : (entryCode exchange hook? func next types).length =
      (hookCode hook?).length + 1 + 2 * types.length := by
  rw [entryCode, List.length_append, List.length_cons, length_loadCode]
  omega

def exitCode (exchange : Exchange) (argPtr : InstrRef) (next : Nat) :
    List (Value × Nat) → List (Op × Ty)
  | [] => []
  | fields => (.fieldAddr (.instr argPtr) exchange.args exchange.outField, .ptr) ::
      storeCode exchange.outs ⟨next⟩ (next + 1) fields

section Positions

variable {exchange : Exchange} {next : Nat} {types : List Ty}

/-- The entry of a worker finds the pointer to its arguments behind the hook. -/
theorem getElem?_entryCode_argPtr (hook? : Option FuncRef) (func : FuncRef) :
    (entryCode exchange hook? func next types)[(hookCode hook?).length]? =
      some (.cast (.param func 0), .ptr) := by
  rw [entryCode, List.getElem?_append_right (Nat.le_refl _), Nat.sub_self]
  rfl

theorem getElem?_entryCode_load {hook? : Option FuncRef} {func : FuncRef} {j : Nat} {ty : Ty}
    (h : types[j]? = some ty) :
    (entryCode exchange hook? func next types)[(hookCode hook?).length + 1 + 2 * j]? =
        some (.fieldAddr (.instr (argPtrAt hook? next)) exchange.args j, .ptr) ∧
      (entryCode exchange hook? func next types)[(hookCode hook?).length + 2 + 2 * j]? =
        some (.load (.instr ⟨(argPtrAt hook? next).index + 1 + 2 * j⟩), ty) := by
  have hbehind (m : Nat) :
      (entryCode exchange hook? func next types)[(hookCode hook?).length + 1 + m]? =
        (loadCode exchange.args (argPtrAt hook? next) ((argPtrAt hook? next).index + 1) 0
          types)[m]? := by
    rw [entryCode, List.getElem?_append_right (by omega), Nat.add_assoc,
      Nat.add_sub_cancel_left, Nat.add_comm 1, List.getElem?_cons_succ]
  obtain ⟨haddr, hload⟩ := @getElem?_loadCode exchange.args (argPtrAt hook? next)
    ((argPtrAt hook? next).index + 1) 0 types j ty h
  rw [Nat.zero_add] at haddr
  refine ⟨(hbehind _).trans haddr, ?_⟩
  rw [← hload, ← hbehind]
  congr 1
  omega

/-- The exit of a worker finds the outputs first, if there are any, and then stores. -/
theorem getElem?_exitCode {argPtr : InstrRef} {fields : List (Value × Nat)} {j : Nat}
    {field : Value × Nat} (h : fields[j]? = some field) :
    (exitCode exchange argPtr next fields)[0]? =
        some (.fieldAddr (.instr argPtr) exchange.args exchange.outField, .ptr) ∧
      (exitCode exchange argPtr next fields)[2 * j + 1]? =
        some (.fieldAddr (.instr ⟨next⟩) exchange.outs field.2, .ptr) ∧
      (exitCode exchange argPtr next fields)[2 * j + 2]? =
        some (.store field.1 (.instr ⟨next + 1 + 2 * j⟩), .void) := by
  cases fields with
  | nil => cases h
  | cons first fields => exact ⟨rfl, getElem?_storeCode h⟩

section Replacement

variable {init dispatch join : FuncRef} {workers : List FuncRef} {liveIn : List Value}
  {exit : BlockRef}

/-- The block in the place of a loop stores the live-ins right behind the structure. -/
theorem getElem?_replacementCode_store {k : Nat} {v : Value} (h : liveIn[k]? = some v) :
    (replacementCode exchange init dispatch join workers liveIn types exit next)[2 * k + 1]? =
        some (.fieldAddr (.instr ⟨next⟩) exchange.args k, .ptr) ∧
      (replacementCode exchange init dispatch join workers liveIn types exit next)[2 * k + 2]? =
        some (.store v (.instr ⟨next + 1 + 2 * k⟩), .void) := by
  have hzip : liveIn.zipIdx[k]? = some (v, k) := by simp [h]
  obtain ⟨haddr, hstore⟩ := @getElem?_storeCode exchange.args ⟨next⟩ (next + 1) _ _ _ hzip
  have hlt : k < liveIn.length := (List.getElem?_eq_some_iff.1 h).1
  have hbehind {m : Nat} (hm : m < 2 * liveIn.length) :
      (replacementCode exchange init dispatch join workers liveIn types exit next)[m + 1]? =
        (storeCode exchange.args ⟨next⟩ (next + 1) liveIn.zipIdx)[m]? := by
    rw [replacementCode, List.append_assoc, List.append_assoc, List.getElem?_append_left,
      List.getElem?_cons_succ]
    simpa using hm
  exact ⟨(hbehind (by omega)).trans haddr, (hbehind (by omega)).trans hstore⟩

/-- It loads the live-outs right before it goes to the exit. -/
theorem getElem?_replacementCode_load {j : Nat} {ty : Ty} (h : types[j]? = some ty) {unpack : Nat}
    (hunpack : unpack = 2 * liveIn.length + workers.length + 4) :
    (replacementCode exchange init dispatch join workers liveIn types exit next)[unpack]? =
        some (.fieldAddr (.instr ⟨next⟩) exchange.args exchange.outField, .ptr) ∧
      (replacementCode exchange init dispatch join workers liveIn types exit next)[
          unpack + 2 * j + 1]? =
        some (.fieldAddr (.instr ⟨next + unpack⟩) exchange.outs j, .ptr) ∧
      (replacementCode exchange init dispatch join workers liveIn types exit next)[
          unpack + 2 * j + 2]? =
        some (.load (.instr ⟨next + unpack + 1 + 2 * j⟩), ty) := by
  obtain ⟨hlt, -⟩ := List.getElem?_eq_some_iff.1 h
  have hcode : unpackCode exchange ⟨next⟩ (next + unpack) types =
      (.fieldAddr (.instr ⟨next⟩) exchange.args exchange.outField, .ptr) ::
        loadCode exchange.outs ⟨next + unpack⟩ (next + unpack + 1) 0 types := by
    cases types with
    | nil => cases h
    | cons => rfl
  have hbehind (m : Nat) (hm : m < 2 * types.length + 1) :
      (replacementCode exchange init dispatch join workers liveIn types exit next)[unpack + m]? =
        (unpackCode exchange ⟨next⟩ (next + unpack) types)[m]? := by
    have hstart : next + 1 + 2 * liveIn.length + (workers.length + 3) = next + unpack := by omega
    rw [replacementCode, hstart, List.getElem?_append_left, List.getElem?_append_right]
    · congr 1
      simp only [List.length_append, List.length_cons, length_storeCode, length_runCode,
        List.length_zipIdx]
      omega
    · simp only [List.length_append, List.length_cons, length_storeCode, length_runCode,
        List.length_zipIdx]
      omega
    · simp only [List.length_append, List.length_cons, length_storeCode, length_runCode,
        List.length_zipIdx, hcode, length_loadCode]
      omega
  obtain ⟨haddr, hload⟩ := @getElem?_loadCode exchange.outs ⟨next + unpack⟩ (next + unpack + 1) 0
    types j ty h
  rw [Nat.zero_add] at haddr
  rw [hcode] at hbehind
  exact ⟨hbehind 0 (Nat.succ_pos _), (hbehind (2 * j + 1) (by omega)).trans haddr,
    (hbehind (2 * j + 2) (by omega)).trans hload⟩

end Replacement

end Positions

section Renaming

variable {σ : Renaming} {next : Nat} {values : List Value} {v : Value}

theorem loadRenaming_of_not_mem (hv : v ∉ values) :
    (loadRenaming σ next values)[v]? = σ[v]? := by
  induction values generalizing σ next with
  | nil => rfl
  | cons u values ih =>
      have hrest : v ∉ values := fun hmem => hv (List.mem_cons_of_mem _ hmem)
      have hcompare : compare u v ≠ .eq := by
        intro h
        obtain rfl := Std.LawfulEqOrd.eq_of_compare h
        exact hv (List.mem_cons_self ..)
      rw [loadRenaming, ih hrest, Std.TreeMap.getElem?_insert, if_neg hcompare]

/-- A loaded value is renamed to the access for one of its places in the list. -/
theorem loadRenaming_of_mem (hv : v ∈ values) :
    ∃ k, values[k]? = some v ∧
      (loadRenaming σ next values)[v]? = some (.instr ⟨next + 2 * k + 1⟩) := by
  induction values generalizing σ next with
  | nil => exact absurd hv List.not_mem_nil
  | cons u values ih =>
      rw [loadRenaming]
      by_cases hlater : v ∈ values
      · obtain ⟨k, hk, hlookup⟩ := ih hlater
        refine ⟨k + 1, hk, ?_⟩
        rw [hlookup]
        congr 3
        omega
      · obtain rfl : v = u := (List.mem_cons.1 hv).resolve_right hlater
        refine ⟨0, rfl, ?_⟩
        rw [loadRenaming_of_not_mem hlater, Std.TreeMap.getElem?_insert_self]

/-- It is renamed to the access for the last of its places. -/
theorem loadRenaming_of_last {k : Nat} (hv : values[k]? = some v)
    (hlast : ∀ k' : Nat, values[k']? = some v → k' ≤ k) :
    (loadRenaming σ next values)[v]? = some (.instr ⟨next + 2 * k + 1⟩) := by
  induction values generalizing σ next k with
  | nil => cases hv
  | cons u values ih =>
      rw [loadRenaming]
      cases k with
      | zero =>
          obtain rfl := Option.some.inj hv
          have hlater : u ∉ values := by
            intro hmem
            obtain ⟨k', hk'⟩ := List.getElem?_of_mem hmem
            exact Nat.not_succ_le_zero k' (hlast (k' + 1) hk')
          rw [loadRenaming_of_not_mem hlater, Std.TreeMap.getElem?_insert_self]
      | succ k =>
          rw [ih hv fun k' hk' => Nat.le_of_succ_le_succ (hlast (k' + 1) hk')]
          congr 3
          omega

theorem loadRenaming_of_nodup (hnodup : values.Nodup) {k : Nat} (hv : values[k]? = some v) :
    (loadRenaming σ next values)[v]? = some (.instr ⟨next + 2 * k + 1⟩) := by
  obtain ⟨k', hv', hlookup⟩ := @loadRenaming_of_mem σ next _ _ (List.mem_of_getElem? hv)
  obtain ⟨hlt, -⟩ := List.getElem?_eq_some_iff.1 hv
  obtain rfl := (List.getElem?_inj hlt hnodup).1 (hv.trans hv'.symm)
  exact hlookup

end Renaming

def Op.isPhi : Op → Bool
  | .phi _ => true
  | _ => false

theorem Op.incoming_of_not_isPhi {op : Op} (h : ¬ op.isPhi) : op.incoming = [] := by
  cases op with
  | phi => exact absurd rfl h
  | _ => rfl

/-- The code, which starts at the reference `start`, has no φ and reads instructions only
that come before in the code, from the reference `first` on, or that are allowed to it. -/
def SelfContained (first : Nat) (allowed : InstrRef → Prop) (start : Nat)
    (code : List (Op × Ty)) : Prop :=
  ∀ k op ty, code[k]? = some (op, ty) → ¬ op.isPhi ∧ ∀ d, .instr d ∈ op.operands →
    first ≤ d.index ∧ d.index < start + k ∨ allowed d

namespace SelfContained

variable {first start : Nat} {allowed : InstrRef → Prop} {code more : List (Op × Ty)}
  {layout : StructRef} {base : InstrRef}

theorem nil : SelfContained first allowed start [] := by
  intro k op ty hk
  cases hk

theorem cons {op : Op} {ty : Ty} (hphi : ¬ op.isPhi)
    (hop : ∀ d, .instr d ∈ op.operands → first ≤ d.index ∧ d.index < start ∨ allowed d)
    (hcode : SelfContained first allowed (start + 1) code) :
    SelfContained first allowed start ((op, ty) :: code) := by
  intro k op' ty' hk
  cases k with
  | zero =>
      obtain ⟨rfl, rfl⟩ := Prod.mk.inj (Option.some.inj hk)
      exact ⟨hphi, hop⟩
  | succ k =>
      obtain ⟨hphi', hop'⟩ := hcode k op' ty' hk
      refine ⟨hphi', fun d hd => (hop' d hd).imp_left fun hlt => ?_⟩
      omega

theorem append (h : SelfContained first allowed start code)
    (h' : SelfContained first allowed (start + code.length) more) :
    SelfContained first allowed start (code ++ more) := by
  intro k op ty hk
  by_cases hlt : k < code.length
  · rw [List.getElem?_append_left hlt] at hk
    exact h k op ty hk
  · rw [List.getElem?_append_right (Nat.le_of_not_lt hlt)] at hk
    obtain ⟨hphi, hop⟩ := h' _ op ty hk
    refine ⟨hphi, fun d hd => (hop d hd).imp_left fun hbound => ?_⟩
    omega

theorem storeCode {fields : List (Value × Nat)} (hfirst : first ≤ base.index)
    (hbase : base.index < start)
    (hfields : ∀ field ∈ fields, ∀ d, field.1 = .instr d →
      first ≤ d.index ∧ d.index < start ∨ allowed d) :
    SelfContained first allowed start (storeCode layout base start fields) := by
  induction fields generalizing start with
  | nil => exact nil
  | cons field fields ih =>
      obtain ⟨v, k⟩ := field
      refine cons (by simp [Op.isPhi]) ?_ (cons (by simp [Op.isPhi]) ?_ (ih (by omega) ?_))
      · intro d hd
        obtain rfl : d = base := by simpa [Op.operands] using hd
        exact .inl ⟨hfirst, hbase⟩
      · intro d hd
        rcases List.mem_cons.1 hd with hv | haddr
        · refine (hfields _ (List.mem_cons_self ..) d hv.symm).imp_left fun hbound => ?_
          omega
        · obtain rfl : d = ⟨start⟩ := by simpa using haddr
          exact .inl ⟨by simp only; omega, by simp only; omega⟩
      · intro field hfield d hd
        refine (hfields field (List.mem_cons_of_mem _ hfield) d hd).imp_left fun hbound => ?_
        omega

theorem loadCode {k : Nat} {types : List Ty} (hfirst : first ≤ base.index)
    (hbase : base.index < start) :
    SelfContained first allowed start (loadCode layout base start k types) := by
  induction types generalizing start k with
  | nil => exact nil
  | cons ty types ih =>
      refine cons (by simp [Op.isPhi]) ?_ (cons (by simp [Op.isPhi]) ?_ (ih (by omega)))
      · intro d hd
        obtain rfl : d = base := by simpa [Op.operands] using hd
        exact .inl ⟨hfirst, hbase⟩
      · intro d hd
        obtain rfl : d = ⟨start⟩ := by simpa [Op.operands] using hd
        exact .inl ⟨by simp only; omega, by simp only; omega⟩

theorem callCode {dispatch : FuncRef} {thread : Nat} {workers : List FuncRef}
    (hfirst : first ≤ base.index) (hbase : base.index < start) :
    SelfContained first allowed start (callCode dispatch base thread workers) := by
  induction workers generalizing start thread with
  | nil => exact nil
  | cons worker workers ih =>
      refine cons (by simp [Op.isPhi]) ?_ (ih (by omega))
      intro d hd
      obtain rfl : d = base := by simpa [Op.operands, Value.i32] using hd
      exact .inl ⟨hfirst, hbase⟩

theorem runCode {init dispatch join : FuncRef} {workers : List FuncRef}
    (hfirst : first ≤ base.index) (hbase : base.index < start) :
    SelfContained first allowed start (runCode init dispatch join base start workers) := by
  refine append (cons (by simp [Op.isPhi]) (by simp [Op.operands])
    (cons (by simp [Op.isPhi]) ?_ (callCode (by simp only; omega) (by simp only; omega))))
    (cons (by simp [Op.isPhi]) (by simp [Op.operands]) nil)
  intro d hd
  obtain rfl : d = base := by simpa [Op.operands] using hd
  exact .inl ⟨hfirst, by omega⟩

/-- The block in the place of a loop reads the live-ins and nothing else. -/
theorem replacementCode {exchange : Exchange} {init dispatch join : FuncRef}
    {workers : List FuncRef} {liveIn : List Value} {types : List Ty} {exit : BlockRef} :
    SelfContained start (fun d => .instr d ∈ liveIn) start
      (replacementCode exchange init dispatch join workers liveIn types exit start) := by
  refine append (append (append (cons (by simp [Op.isPhi]) (by simp [Op.operands])
    (storeCode (Nat.le_refl _) (Nat.lt_succ_self _) ?_)) ?_) ?_) ?_
  · intro field hfield d hd
    exact .inr (hd ▸ List.fst_mem_of_mem_zipIdx hfield)
  · have hstart : start + (Prod.mk (Op.alloca (.struct exchange.args)) Ty.ptr ::
        Decouple.storeCode exchange.args ⟨start⟩ (start + 1) liveIn.zipIdx).length =
        start + 1 + 2 * liveIn.length := by
      rw [List.length_cons, length_storeCode, List.length_zipIdx]
      omega
    rw [hstart]
    exact runCode (Nat.le_refl _) (by simp only; omega)
  · rw [List.length_append, List.length_cons, length_storeCode, List.length_zipIdx,
      length_runCode]
    cases types with
    | nil => exact nil
    | cons ty types =>
        have hstart : start + (2 * liveIn.length + 1 + (workers.length + 3)) =
            start + 1 + 2 * liveIn.length + (workers.length + 3) := by omega
        rw [hstart]
        refine cons (by simp [Op.isPhi]) ?_ (loadCode (by simp only; omega) (by simp only; omega))
        intro d hd
        obtain rfl : d = ⟨start⟩ := by simpa [Op.operands] using hd
        exact .inl ⟨Nat.le_refl _, by simp only; omega⟩
  · exact cons (by simp [Op.isPhi]) (by simp [Op.operands]) nil

/-- The entry of a worker reads its own instructions only. -/
theorem entryCode {exchange : Exchange} {hook? : Option FuncRef} {func : FuncRef}
    {types : List Ty} :
    SelfContained start allowed start (entryCode exchange hook? func start types) := by
  have hhook : SelfContained start allowed start (hookCode hook?) := by
    cases hook? with
    | none => exact nil
    | some hook => exact cons (by simp [Op.isPhi]) (by simp [Op.operands]) nil
  refine append hhook (cons (by simp [Op.isPhi]) (by simp [Op.operands]) (loadCode ?_ ?_))
  · exact Nat.le_add_right _ _
  · exact Nat.lt_succ_self _

/-- The exit of a worker reads the pointer to the arguments and what it stores. -/
theorem exitCode {exchange : Exchange} {argPtr : InstrRef} {fields : List (Value × Nat)}
    (hargPtr : allowed argPtr)
    (hfields : ∀ field ∈ fields, ∀ d, field.1 = .instr d → allowed d) :
    SelfContained start allowed start (exitCode exchange argPtr start fields) := by
  cases fields with
  | nil => exact nil
  | cons field fields =>
      refine cons (by simp [Op.isPhi]) ?_ (storeCode (Nat.le_refl _) (Nat.lt_succ_self _) ?_)
      · intro d hd
        obtain rfl : d = argPtr := by simpa [Op.operands] using hd
        exact .inr hargPtr
      · intro field hfield d hd
        exact .inr (hfields field hfield d hd)

end SelfContained

end Decouple
