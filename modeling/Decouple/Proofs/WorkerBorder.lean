import Decouple.Proofs.Code
import Decouple.Proofs.Stability
import Decouple.Split.Worker

/-!
# The entry and the exit of a worker

What is written into the first and the last block of a worker, whose copies are there by then
(`Bordered`): the entry loads the live-ins, with the types that they have, the copies read what
is loaded, and the exit stores the live-outs of the thread. Both blocks hold their code and one
instruction behind it (`Runs`).
-/

namespace Decouple

open Outcome

theorem map_eq_of_forall₂ {α β : Type} {f : β → α} {R : α → β → Prop} {xs : List α} {ys : List β}
    (h : List.Forall₂ (fun x y => f y = x ∧ R x y) xs ys) : ys.map f = xs := by
  rw [← List.forall₂_eq_eq_eq, List.forall₂_map_left_iff]
  exact h.flip.imp fun _ _ hxy => hxy.1

namespace Worker

section Border

variable {s : Setting} {w : Worker} {p q : Program} {b : BlockRef} {last : InstrRef}

/-- A live-in is loaded with the type that it has, before the others are. -/
theorem loadArgs_cons_eq_ok {exchange : Exchange} {argPtr : InstrRef} {k : Nat} {v : Value}
    {values : List Value} {σ σ' : Renaming}
    (h : (loadArgs exchange b argPtr k (v :: values) σ).apply p = (.ok σ', q)) :
    ∃ name ty addr loaded p₁ p₂, p.valueName v = .ok name ∧ p₂.valueType v = .ok ty ∧
      (Edit.insertBeforeEnd b (.fieldAddr (.instr argPtr) exchange.args k) .ptr
        (name ++ "_arg")).apply p = (.ok addr, p₁) ∧
      (Edit.insertBeforeEnd b (.load (.instr addr)) ty (name ++ "_val")).apply p₁ =
        (.ok loaded, p₂) ∧
      (loadArgs exchange b argPtr (k + 1) values (σ.insert v (.instr loaded))).apply p₂ =
        (.ok σ', q) := by
  unfold loadArgs at h
  rw [Edit.get_bind_eq_ok_iff] at h
  obtain ⟨name, p', hlookup, h⟩ := Edit.apply_bind_eq_ok_iff.1 h
  obtain ⟨hname, rfl⟩ := Edit.liftM_eq_ok_iff.1 hlookup
  obtain ⟨structTy, p', hlookup, h⟩ := Edit.apply_bind_eq_ok_iff.1 h
  obtain ⟨-, rfl⟩ := Edit.liftM_eq_ok_iff.1 hlookup
  split at h
  · exact absurd h Edit.throw_ne_ok
  · next ty hty =>
      obtain ⟨n, p', hfield, h⟩ := Edit.apply_bind_eq_ok_iff.1 h
      obtain ⟨hn, rfl⟩ := Edit.liftM_eq_ok_iff.1 hfield
      obtain rfl := Exchange.field_eq_ok hn
      obtain ⟨addr, p₁, haddr, h⟩ := Edit.apply_bind_eq_ok_iff.1 h
      obtain ⟨loaded, p₂, hload, h⟩ := Edit.apply_bind_eq_ok_iff.1 h
      rw [Edit.get_bind_eq_ok_iff] at h
      obtain ⟨declared, p', hlookup, h⟩ := Edit.apply_bind_eq_ok_iff.1 h
      obtain ⟨hdeclared, rfl⟩ := Edit.liftM_eq_ok_iff.1 hlookup
      split at h
      · exact absurd h Edit.throw_ne_ok
      · next hsame =>
          obtain rfl := Decidable.not_not.1 hsame
          exact ⟨name, ty, addr, loaded, p₁, p₂, hname, hdeclared, haddr, hload, h⟩

/-- Loading the live-ins in front of the last instruction of a block. -/
theorem loadArgs_writes {exchange : Exchange} {argPtr : InstrRef} {k : Nat} {values : List Value}
    {σ σ' : Renaming} (hend : EndsWith p b [last]) (hlast : Closes p last)
    (h : (loadArgs exchange b argPtr k values σ).apply p = (.ok σ', q)) :
    ∃ types, q.valueTypes values = .ok types ∧
      Writes b [last] (loadCode exchange.args argPtr p.instrs.size k types) p q ∧
      σ' = loadRenaming σ p.instrs.size values := by
  induction values generalizing p k σ with
  | nil =>
      obtain ⟨rfl, rfl⟩ := Edit.pure_eq_ok_iff.1 h
      exact ⟨[], rfl, .refl hend, rfl⟩
  | cons v values ih =>
      obtain ⟨name, ty, addr, loaded, p₁, p₂, -, hdeclared, haddr, hload, h⟩ :=
        loadArgs_cons_eq_ok h
      obtain ⟨rfl, hwrites⟩ := Writes.of_insertBeforeEnd hend hlast haddr
      have hlast₁ := hwrites.closes hlast
      obtain ⟨rfl, hwrites'⟩ := Writes.of_insertBeforeEnd hwrites.endsWith hlast₁ hload
      obtain ⟨types, htypes, hrest, rfl⟩ := ih hwrites'.endsWith (hwrites'.closes hlast₁) h
      have hty := (Program.KeepsTypes.of_writes hrest).valueType_eq_ok hdeclared
      have hsize₁ : p₁.instrs.size = p.instrs.size + 1 := hwrites.size_eq
      have hsize₂ : p₂.instrs.size = p.instrs.size + 2 := by
        rw [hwrites'.size_eq, hsize₁]
        rfl
      rw [hsize₂] at hrest
      refine ⟨ty :: types, mapM_eq_ok_iff.2 (.cons hty (mapM_eq_ok_iff.1 htypes)),
        (hwrites.trans hwrites').trans hrest, ?_⟩
      rw [hsize₁, hsize₂]
      rfl

/-- The first function of the name that is to be called, if there is one. -/
def IsHook (q : Program) (name? : Option String) (hook? : Option FuncRef) : Prop :=
  name?.map q.funcNamed? = hook?.map some

theorem IsHook.keep {name? : Option String} {hook? : Option FuncRef} (h : IsHook p name? hook?)
    (hkeeps : ∀ name f, p.funcNamed? name = some f → q.funcNamed? name = some f) :
    IsHook q name? hook? := by
  cases name? with
  | none => exact h
  | some name =>
      obtain ⟨f, rfl, hf⟩ := Option.map_eq_some_iff.1 h.symm
      exact congrArg some (hkeeps name f hf.symm)

def CallsHook (name? : Option String) (b : BlockRef) (p q : Program) : Prop :=
  name? = none ∧ q = p ∨ ∃ name hook call between, name? = some name ∧
    (Edit.requireFunc name [] .void).apply p = (.ok hook, between) ∧
    (Edit.insertBeforeEnd b (.call (.func hook) []) .void none).apply between = (.ok call, q)

/-- Calling the hook, if there is one, before the edits that follow. -/
theorem callsHook_of_eq_ok {β : Type} {name? : Option String} {next : Edit β} {result : β}
    (h : (match name? with
      | none => next
      | some name => do
          let hook ← Edit.requireFunc name [] .void
          let _ ← Edit.insertBeforeEnd b (.call (.func hook) []) .void none
          next : Edit β).apply p = (.ok result, q)) :
    ∃ between, CallsHook name? b p between ∧ next.apply between = (.ok result, q) := by
  cases name? with
  | none => exact ⟨p, .inl ⟨rfl, rfl⟩, h⟩
  | some name =>
      obtain ⟨hook, p₁, hhook, h⟩ := Edit.apply_bind_eq_ok_iff.1 h
      obtain ⟨call, p₂, hcall, h⟩ := Edit.apply_bind_eq_ok_iff.1 h
      exact ⟨p₂, .inr ⟨name, hook, call, p₁, rfl, hhook, hcall⟩, h⟩

theorem CallsHook.writes {name? : Option String} (h : CallsHook name? b p q)
    (hend : EndsWith p b [last]) (hlast : Closes p last) :
    ∃ hook?, IsHook q name? hook? ∧ Writes b [last] (hookCode hook?) p q := by
  obtain ⟨rfl, rfl⟩ | ⟨name, hook, call, p₁, rfl, hhook, hcall⟩ := h
  · exact ⟨none, rfl, .refl hend⟩
  · have h₁ := Writes.of_requireFunc hend hhook
    obtain ⟨-, h₂⟩ := Writes.of_insertBeforeEnd h₁.endsWith (h₁.closes hlast) hcall
    have hnamed := h₂.funcNamed?_kept (Edit.funcNamed?_of_requireFunc hhook)
    exact ⟨some hook, congrArg some hnamed, h₁.trans h₂⟩

theorem unpackArgs_eq_ok {exchange : Exchange} {σ σ' : Renaming} {argPtr : InstrRef}
    (h : (unpackArgs s exchange w σ).apply p = (.ok (argPtr, σ'), q)) :
    ∃ p₁ p₂, CallsHook s.config.traceHook w.entry p p₁ ∧
      (Edit.insertBeforeEnd w.entry (.cast (.param w.func 0)) .ptr "args").apply p₁ =
        (.ok argPtr, p₂) ∧
      (loadArgs exchange w.entry argPtr 0 s.live.liveIn σ).apply p₂ = (.ok σ', q) := by
  unfold unpackArgs at h
  dsimp only at h
  obtain ⟨p₁, hhook, h⟩ := callsHook_of_eq_ok h
  rw [Edit.get_bind_eq_ok_iff] at h
  obtain ⟨param, p', hlookup, h⟩ := Edit.apply_bind_eq_ok_iff.1 h
  obtain ⟨hparam, rfl⟩ := Edit.liftM_eq_ok_iff.1 hlookup
  obtain rfl : param = .param w.func 0 := by
    obtain ⟨func, -, hparam⟩ := bind_eq_ok_iff.1 hparam
    split at hparam
    · exact (pure_eq_ok_iff.1 hparam).symm
    · cases hparam
  obtain ⟨argPtr', p₂, hcast, h⟩ := Edit.apply_bind_eq_ok_iff.1 h
  obtain ⟨σ'', p₃, hload, h⟩ := Edit.apply_bind_eq_ok_iff.1 h
  obtain ⟨heq, rfl⟩ := Edit.pure_eq_ok_iff.1 h
  obtain ⟨rfl, rfl⟩ := Prod.mk.inj heq
  exact ⟨p₁, p₂, hhook, hcast, hload⟩

theorem unpackArgs_writes {exchange : Exchange} {σ σ' : Renaming} {argPtr : InstrRef}
    (hend : EndsWith p w.entry [last]) (hlast : Closes p last)
    (h : (unpackArgs s exchange w σ).apply p = (.ok (argPtr, σ'), q)) :
    ∃ hook? types, IsHook q s.config.traceHook hook? ∧ q.valueTypes s.live.liveIn = .ok types ∧
      Writes w.entry [last] (entryCode exchange hook? w.func p.instrs.size types) p q ∧
      argPtr = argPtrAt hook? p.instrs.size ∧
      σ' = loadRenaming σ (argPtr.index + 1) s.live.liveIn := by
  obtain ⟨p₁, p₂, hcalls, hcast, hload⟩ := unpackArgs_eq_ok h
  obtain ⟨hook?, hnamed, hhook⟩ := hcalls.writes hend hlast
  have hlast₁ := hhook.closes hlast
  obtain ⟨hargPtr, hwrites⟩ := Writes.of_insertBeforeEnd hhook.endsWith hlast₁ hcast
  obtain ⟨types, htypes, hloads, rfl⟩ :=
    loadArgs_writes hwrites.endsWith (hwrites.closes hlast₁) hload
  have hptr : argPtr = argPtrAt hook? p.instrs.size := by rw [hargPtr, hhook.size_eq, argPtrAt]
  have hsize : p₂.instrs.size = argPtr.index + 1 := by rw [hwrites.size_eq, hargPtr]; rfl
  rw [hsize] at hloads ⊢
  have hcode := hwrites.trans hloads
  refine ⟨hook?, types, hnamed.keep fun _ _ => hcode.funcNamed?_kept, htypes, ?_, hptr, rfl⟩
  rw [entryCode, ← hptr]
  exact hhook.trans hcode

def Stored (σ : Renaming) (out : InstrRef × Nat) (field : Value × Nat) : Prop :=
  σ[Value.instr out.1]? = some field.1 ∧ field.2 = out.2

theorem storeEach_cons_eq_ok {exchange : Exchange} {σ : Renaming} {outPtr : InstrRef}
    {out : InstrRef × Nat} {owned : List (InstrRef × Nat)} {stores : List InstrRef}
    (h : (storeEach exchange w σ outPtr (out :: owned)).apply p = (.ok stores, q)) :
    ∃ name v addr store later p₁ p₂, p.valueName (.instr out.1) = .ok name ∧
      σ[Value.instr out.1]? = some v ∧
      (Edit.insertBeforeEnd w.exit (.fieldAddr (.instr outPtr) exchange.outs out.2) .ptr
        (name ++ "_outptr")).apply p = (.ok addr, p₁) ∧
      (Edit.insertBeforeEnd w.exit (.store v (.instr addr)) .void none).apply p₁ =
        (.ok store, p₂) ∧
      (storeEach exchange w σ outPtr owned).apply p₂ = (.ok later, q) ∧
      stores = store :: later := by
  obtain ⟨i, k⟩ := out
  unfold storeEach at h
  rw [Edit.get_bind_eq_ok_iff] at h
  obtain ⟨name, p', hlookup, h⟩ := Edit.apply_bind_eq_ok_iff.1 h
  obtain ⟨hname, rfl⟩ := Edit.liftM_eq_ok_iff.1 hlookup
  split at h
  · exact absurd h Edit.throw_ne_ok
  · next v hv =>
      obtain ⟨n, p', hfield, hnext⟩ := Edit.apply_bind_eq_ok_iff.1 h
      obtain ⟨hn, rfl⟩ := Edit.liftM_eq_ok_iff.1 hfield
      obtain rfl := Exchange.field_eq_ok hn
      obtain ⟨addr, p₁, haddr, h⟩ := Edit.apply_bind_eq_ok_iff.1 hnext
      obtain ⟨store, p₂, hstore, h⟩ := Edit.apply_bind_eq_ok_iff.1 h
      obtain ⟨later, p₃, hlater, h⟩ := Edit.apply_bind_eq_ok_iff.1 h
      obtain ⟨rfl, rfl⟩ := Edit.pure_eq_ok_iff.1 h
      exact ⟨name, v, addr, store, later, p₁, p₂, hname, hv, haddr, hstore, hlater, rfl⟩

theorem storeEach_writes {exchange : Exchange} {σ : Renaming} {outPtr : InstrRef}
    {owned : List (InstrRef × Nat)} {stores : List InstrRef} (hend : EndsWith p w.exit [last])
    (hlast : Closes p last)
    (h : (storeEach exchange w σ outPtr owned).apply p = (.ok stores, q)) :
    ∃ fields, List.Forall₂ (Stored σ) owned fields ∧
      stores = storeRefs p.instrs.size fields ∧
      Writes w.exit [last] (storeCode exchange.outs outPtr p.instrs.size fields) p q := by
  induction owned generalizing p stores with
  | nil =>
      obtain ⟨rfl, rfl⟩ := Edit.pure_eq_ok_iff.1 h
      exact ⟨[], .nil, rfl, .refl hend⟩
  | cons out owned ih =>
      obtain ⟨name, v, addr, store, later, p₁, p₂, -, hv, haddr, hstore, hlater, rfl⟩ :=
        storeEach_cons_eq_ok h
      obtain ⟨rfl, hwrites⟩ := Writes.of_insertBeforeEnd hend hlast haddr
      have hlast₁ := hwrites.closes hlast
      obtain ⟨hstoreref, hwrites'⟩ := Writes.of_insertBeforeEnd hwrites.endsWith hlast₁ hstore
      obtain ⟨fields, hfields, rfl, hcode⟩ := ih hwrites'.endsWith (hwrites'.closes hlast₁) hlater
      have hsize : p₂.instrs.size = p.instrs.size + 2 := by
        rw [hwrites'.size_eq, hwrites.size_eq]
        rfl
      rw [hsize] at hcode ⊢
      rw [hwrites.size_eq] at hstoreref
      exact ⟨(v, out.2) :: fields, .cons ⟨hv, rfl⟩ hfields, hstoreref ▸ rfl,
        (hwrites.trans hwrites').trans hcode⟩

theorem storeOuts_writes {exchange : Exchange} {σ : Renaming} {argPtr : InstrRef}
    {stores : List InstrRef} (hend : EndsWith p w.exit [last]) (hlast : Closes p last)
    (h : (storeOuts s exchange w σ argPtr).apply p = (.ok stores, q)) :
    ∃ fields, List.Forall₂ (Stored σ) (ownedOuts s w.thread) fields ∧
      stores = storeRefs (p.instrs.size + 1) fields ∧
      Writes w.exit [last] (exitCode exchange argPtr p.instrs.size fields) p q := by
  unfold storeOuts at h
  split at h
  · next hnone =>
      obtain ⟨rfl, rfl⟩ := Edit.pure_eq_ok_iff.1 h
      exact ⟨[], hnone ▸ .nil, rfl, .refl hend⟩
  · next owned hsome =>
      obtain ⟨outPtr, p₁, hout, h⟩ := Edit.apply_bind_eq_ok_iff.1 h
      obtain ⟨rfl, hwrites⟩ := Writes.of_insertBeforeEnd hend hlast hout
      obtain ⟨fields, hfields, hstores, hcode⟩ :=
        storeEach_writes hwrites.endsWith (hwrites.closes hlast) h
      rw [hwrites.size_eq] at hstores hcode
      refine ⟨fields, hfields, hstores, ?_⟩
      cases fields with
      | nil => exact absurd (List.forall₂_nil_right_iff.1 hfields) hsome
      | cons field fields => exact hwrites.trans hcode

end Border

section Runs

variable {p q : Program}

/-- The block runs `code`, whose first instruction has the reference `start`, and then the
operation `final`. -/
structure Runs (q : Program) (b : BlockRef) (start : Nat) (code : List (Op × Ty))
    (last : InstrRef) (final : Op) : Prop where
  listed : ∃ block, q.block? b = some block ∧
    block.instrs = newRefs start code.length ++ [last]
  code : ∀ k op ty, code[k]? = some (op, ty) →
    ∃ name, q.instr? ⟨start + k⟩ = some { block := some b, op, ty, name }
  final : ∃ name, q.instr? last = some { block := some b, op := final, ty := .void, name }

namespace Runs

variable {b : BlockRef} {start : Nat} {code : List (Op × Ty)} {last : InstrRef} {final : Op}
  {r : Program}

theorem mono (h : Runs q b start code last final) (hblock : r.block? b = q.block? b)
    (hinstr : ∀ i, q.Lists b i → r.instr? i = q.instr? i) : Runs r b start code last final := by
  obtain ⟨block, hlookup, hlist⟩ := h.listed
  constructor
  · exact ⟨block, hblock.trans hlookup, hlist⟩
  · intro k op ty hk
    have hlt : k < code.length := (List.getElem?_eq_some_iff.1 hk).1
    have hmem : (⟨start + k⟩ : InstrRef) ∈ block.instrs := by
      rw [hlist, List.mem_append, mem_newRefs_iff]
      exact .inl ⟨Nat.le_add_right _ _, Nat.add_lt_add_left hlt _⟩
    rw [hinstr _ ⟨block, hlookup, hmem⟩]
    exact h.code k op ty hk
  · rw [hinstr last ⟨block, hlookup, by simp [hlist]⟩]
    exact h.final

theorem mem_of_lists {i : InstrRef} (h : Runs q b start code last final) (hi : q.Lists b i) :
    i ∈ newRefs start code.length ∨ i = last := by
  obtain ⟨block, hlookup, hlist⟩ := h.listed
  obtain ⟨block', hlookup', hmem⟩ := hi
  obtain rfl := Option.some.inj (hlookup.symm.trans hlookup')
  rw [hlist, List.mem_append, List.mem_singleton] at hmem
  exact hmem

theorem lt_of_lists {i : InstrRef} (h : Runs q b start code last final) (hi : q.Lists b i) :
    i.index < q.instrs.size := by
  rcases h.mem_of_lists hi with hmem | rfl
  · obtain ⟨hle, hlt⟩ := mem_newRefs_iff.1 hmem
    obtain ⟨k, hk⟩ := Nat.exists_eq_add_of_le hle
    have hklt : k < code.length := by omega
    obtain ⟨name, hname⟩ := h.code k _ _ (List.getElem?_eq_getElem hklt)
    rw [hk]
    exact (Array.getElem?_eq_some_iff.1 hname).1
  · obtain ⟨name, hname⟩ := h.final
    exact (Array.getElem?_eq_some_iff.1 hname).1

theorem grow (h : Runs q b start code last final) (hgrows : Grows q r) :
    Runs r b start code last final := by
  obtain ⟨block, hlookup, -⟩ := h.listed
  refine h.mono (by rw [hgrows.block?_kept hlookup, hlookup]) ?_
  intro i hi
  exact hgrows.instr?_old i (h.lt_of_lists hi)

/-- Writing into another block. -/
theorem beside {c : BlockRef} {tail : List InstrRef} {ops : List (Op × Ty)}
    (h : Runs p b start code last final) (hwrites : Writes c tail ops p q) (hne : b ≠ c) :
    Runs q b start code last final :=
  h.mono (hwrites.block?_of_ne hne) fun _ hi => hwrites.instr?_old (h.lt_of_lists hi)

/-- Renaming other instructions. -/
theorem apart {σ : Renaming} {refs : List InstrRef} {n : Nat}
    (h : Runs p b start code last final) (happly : (σ.apply refs).apply p = (.ok n, q))
    (hcode : ∀ i ∈ newRefs start code.length, i ∉ refs) (hlast : last ∉ refs) :
    Runs q b start code last final := by
  have hrewrites := Rewrites.of_apply happly
  refine h.mono (hrewrites.block? b) fun i hi => ?_
  have hnot : i ∉ refs := by
    rcases h.mem_of_lists hi with hmem | rfl
    · exact hcode i hmem
    · exact hlast
  rw [hrewrites.instr?, List.count_eq_zero.2 hnot]
  exact Option.map_id'

/-- Code written in front of the only instruction of a block. -/
theorem of_writes (h : Runs p b start [] last final) (hwrites : Writes b [last] code p q) :
    Runs q b p.instrs.size code last final := by
  obtain ⟨block, hlookup, hlist⟩ := h.listed
  have hinit : block.instrs = [] ++ [last] := hlist
  constructor
  · exact ⟨_, hwrites.block?_self hlookup hinit, by simp⟩
  · intro k op ty hk
    exact hwrites.instr?_new hk
  · obtain ⟨name, hname⟩ := h.final
    obtain ⟨hlt, -⟩ := Array.getElem?_eq_some_iff.1 hname
    exact ⟨name, by rw [hwrites.instr?_old hlt, hname]⟩

/-- The first instruction of an empty block. -/
theorem of_empty {block : Block} {op : Op} (hblock : p.block? b = some block)
    (hempty : block.instrs = []) (hwrites : Writes b [] [(op, .void)] p q) :
    Runs q b start [] ⟨p.instrs.size⟩ op := by
  obtain ⟨name, hname⟩ := hwrites.instr?_new List.getElem?_cons_zero
  refine ⟨⟨_, hwrites.block?_self hblock (List.append_nil _).symm, ?_⟩, ?_, name, hname⟩
  · simp [hempty, newRefs_succ]
  · simp

theorem endsWith (h : Runs q b start [] last final) : EndsWith q b [last] := by
  obtain ⟨block, hlookup, hlist⟩ := h.listed
  exact ⟨block, [], hlookup, hlist⟩

theorem closes (h : Runs q b start code last final) (hfinal : final.isTerminator) :
    Closes q last := by
  obtain ⟨name, hname⟩ := h.final
  exact ⟨_, hname, hfinal⟩

theorem successors_eq (h : Runs q b start code last final) :
    q.successors b = .ok final.successors := by
  obtain ⟨block, hlookup, hlist⟩ := h.listed
  obtain ⟨name, hname⟩ := h.final
  exact Program.successors_eq_of_getLast? hlookup (by simp [hlist]) hname

/-- The code of such a block has no φ and reads what comes before in it and what is allowed
to it, if the instruction behind it reads nothing. -/
theorem reads {block : Block} {before after : List InstrRef} {i : InstrRef} {instr : Instr}
    {allowed : InstrRef → Prop} (h : Runs q b start code last final)
    (hself : SelfContained start allowed start code) (hphi : ¬ final.isPhi)
    (hfinal : ∀ d, .instr d ∉ final.operands) (hblock : q.block? b = some block)
    (hlist : block.instrs = before ++ i :: after) (hinstr : q.instr? i = some instr) :
    ¬ instr.op.isPhi ∧ ∀ d, .instr d ∈ instr.op.operands → d ∈ before ∨ allowed d := by
  obtain ⟨block', hblock', hlist'⟩ := h.listed
  obtain rfl := Option.some.inj (hblock.symm.trans hblock')
  rw [hlist'] at hlist
  rcases List.eq_nil_or_concat after with rfl | ⟨after, x, rfl⟩
  · obtain ⟨-, hlast⟩ := List.append_inj' hlist rfl
    obtain rfl := List.singleton_inj.1 hlast
    obtain ⟨name, hname⟩ := h.final
    obtain rfl := Option.some.inj (hinstr.symm.trans hname)
    exact ⟨hphi, fun d hd => absurd hd (hfinal d)⟩
  · rw [List.concat_eq_append, ← List.cons_append, ← List.append_assoc] at hlist
    obtain ⟨hcode, -⟩ := List.append_inj' hlist rfl
    obtain ⟨rfl, hbefore⟩ := newRefs_eq_append hcode
    have hlt : before.length < code.length := by
      have hlength := congrArg List.length hcode
      simp only [length_newRefs, List.length_append, List.length_cons] at hlength
      omega
    have hk := List.getElem?_eq_getElem hlt
    obtain ⟨name, hname⟩ := h.code before.length _ _ hk
    obtain rfl := Option.some.inj (hinstr.symm.trans hname)
    obtain ⟨hphi', hreads⟩ := hself before.length _ _ hk
    refine ⟨hphi', fun d hd => (hreads d hd).imp_left fun hbounds => ?_⟩
    rw [hbefore]
    exact mem_newRefs_iff.2 hbounds

end Runs

end Runs

section Bordered

variable {s : Setting} {p q : Program} {w : Worker}

/-- The second half of writing a worker, after the copies are filled: `σ` is applied to the
copies, and code is written in front of the last instructions of the entry and the exit. -/
structure Bordered (s : Setting) (exchange : Exchange) (w : Worker) (refs : List InstrRef)
    (σ₀ σ : Renaming) (header : BlockRef) (last last' : InstrRef) (stores : List InstrRef)
    (p q : Program) : Prop where
  ends : ∃ hook? types start fields, IsHook q s.config.traceHook hook? ∧
    q.valueTypes s.live.liveIn = .ok types ∧
    σ = loadRenaming σ₀ ((argPtrAt hook? p.instrs.size).index + 1) s.live.liveIn ∧
    List.Forall₂ (Stored σ) (ownedOuts s w.thread) fields ∧
    stores = storeRefs (start + 1) fields ∧
    start = p.instrs.size + (entryCode exchange hook? w.func p.instrs.size types).length ∧
    Runs q w.entry p.instrs.size (entryCode exchange hook? w.func p.instrs.size types) last
      (.br header) ∧
    Runs q w.exit start (exitCode exchange (argPtrAt hook? p.instrs.size) start fields) last'
      (.ret (some .null))
  copies : ∀ i ∈ refs, q.instr? i = (p.instr? i).map fun instr =>
    { instr with op := instr.op.mapOperands σ.rename }
  instr?_kept : ∀ i, i.index < p.instrs.size → i ∉ refs → q.instr? i = p.instr? i
  block?_kept : ∀ b, b ≠ w.entry → b ≠ w.exit → q.block? b = p.block? b
  func?_kept : ∀ f func, p.func? f = some func → q.func? f = some func
  grows : ∀ before, Grows before p → before.blocks.size ≤ w.entry.index →
    before.blocks.size ≤ w.exit.index → (∀ i ∈ refs, before.instrs.size ≤ i.index) →
    Grows before q

theorem bordered_of_storeOuts {exchange : Exchange} {refs : List InstrRef} {σ₀ σ : Renaming}
    {header : BlockRef} {last last' argPtr : InstrRef} {start start' n : Nat}
    {stores : List InstrRef} {p₁ p₂ : Program} (hrefs : refs.Nodup)
    (hold : ∀ i ∈ refs, i.index < p.instrs.size) (hlast : last ∉ refs) (hlast' : last' ∉ refs)
    (hne : w.entry ≠ w.exit) (hentry : Runs p w.entry start [] last (.br header))
    (hexit : Runs p w.exit start' [] last' (.ret (some .null)))
    (hunpack : (unpackArgs s exchange w σ₀).apply p = (.ok (argPtr, σ), p₁))
    (happly : (σ.apply refs).apply p₁ = (.ok n, p₂))
    (hstore : (storeOuts s exchange w σ argPtr).apply p₂ = (.ok stores, q)) :
    Bordered s exchange w refs σ₀ σ header last last' stores p q := by
  obtain ⟨hook?, types, hnamed, htypes, hwrites, rfl, hσ⟩ :=
    unpackArgs_writes hentry.endsWith (hentry.closes rfl) hunpack
  have hnew : ∀ i ∈ newRefs p.instrs.size
      (entryCode exchange hook? w.func p.instrs.size types).length, i ∉ refs := by
    intro i hi hmem
    exact Nat.not_lt_of_le (mem_newRefs_iff.1 hi).1 (hold i hmem)
  have hentry₂ := (hentry.of_writes hwrites).apart happly hnew hlast
  have hexit₂ := (hexit.beside hwrites hne.symm).apart happly (by simp) hlast'
  obtain ⟨fields, hfields, hstores, hwrites'⟩ :=
    storeOuts_writes hexit₂.endsWith (hexit₂.closes rfl) hstore
  have hrewrites := Rewrites.of_apply happly
  have hstart := hrewrites.size_eq.trans hwrites.size_eq
  have hsize : p.instrs.size ≤ p₂.instrs.size := hstart ▸ Nat.le_add_right _ _
  have hkeeps : p₁.KeepsTypes q :=
    (Program.KeepsTypes.of_apply happly).trans (.of_writes hwrites')
  have hnamed₂ : IsHook p₂ s.config.traceHook hook? :=
    hnamed.keep fun name _ hf => (hrewrites.funcNamed? name).trans hf
  refine ⟨⟨hook?, types, p₂.instrs.size, fields, hnamed₂.keep fun _ _ => hwrites'.funcNamed?_kept,
    hkeeps.valueTypes_eq_ok htypes, hσ, hfields, hstores, hstart, hentry₂.beside hwrites' hne,
    hexit₂.of_writes hwrites'⟩, ?_, ?_, ?_, ?_, ?_⟩
  · intro i hi
    rw [hwrites'.instr?_old (Nat.lt_of_lt_of_le (hold i hi) hsize), hrewrites.instr?,
      hwrites.instr?_old (hold i hi), List.count_eq_one_of_mem hrefs hi, Function.iterate_one]
  · intro i hi hnot
    rw [hwrites'.instr?_old (Nat.lt_of_lt_of_le hi hsize), hrewrites.instr?,
      hwrites.instr?_old hi, List.count_eq_zero.2 hnot]
    exact Option.map_id'
  · intro b hb hb'
    rw [hwrites'.block?_of_ne hb', hrewrites.block?, hwrites.block?_of_ne hb]
  · intro f func hf
    refine hwrites'.func?_kept ?_
    rw [hrewrites.func?, hwrites.func?_kept hf]
  · intro before hgrows hbentry hbexit hbrefs
    exact ((hgrows.writes hbentry hwrites).apply happly hbrefs).writes hbexit hwrites'

end Bordered

end Worker

end Decouple
