import Decouple.Proofs.SplitChanges

/-!
# The functions and structure types that a split adds

Splitting a loop adds entries to two tables that are looked up or printed by name: worker functions
and structure types under names made from the number of the loop, and declarations of functions of
the runtime under names that the configuration chooses. `Edit.Registers bodies layouts edit p` says
what an edit of `p` adds, also if it stops halfway or is broken off: the functions to be filled in
get the first few of the names `bodies`, the structure types the first few of the names `layouts`,
all of them if the edit succeeds, and function names that were pairwise distinct stay so.

Workers are added after a look for their name, and so are declarations. Everything else leaves the
names alone, so a rule per construct of `Edit` and one lemma per function of the split are enough.
-/

namespace Decouple

/-- What is read from each entry of a table stays, if one entry is replaced by one that reads the
same. -/
theorem map_setIfInBounds_eq {α β : Type} {table : Array α} {k : Nat} {old : α} (read : α → β)
    (new : α) (hold : table[k]? = some old) (hsame : read new = read old) :
    (table.setIfInBounds k new).toList.map read = table.toList.map read := by
  obtain ⟨hlt, rfl⟩ := Array.getElem?_eq_some_iff.1 hold
  have hlt' : k < (table.toList.map read).length := by simpa using hlt
  have hself : read table[k] = (table.toList.map read)[k] := by simp
  rw [Array.toList_setIfInBounds, List.map_set, hsame, hself, List.set_getElem_self]

namespace Program

def funcNames (p : Program) : List String := p.funcs.toList.map Func.name

/-- The names of the functions that have a body or are to get one. -/
def bodyNames (p : Program) : List String :=
  (p.funcs.toList.filter fun func => !func.external).map Func.name

def layoutNames (p : Program) : List String := p.structs.toList.map StructTy.name

/-- If function names are pairwise distinct, then each of them leads to its function. -/
theorem funcNamed?_of_nodup {p : Program} (h : p.funcNames.Nodup) {f : FuncRef} {func : Func}
    (hf : p.func? f = some func) : p.funcNamed? func.name = some f := by
  obtain ⟨hlt, rfl⟩ := Array.getElem?_eq_some_iff.1 hf
  have hfirst : p.funcs.findIdx? (·.name = p.funcs[f.index].name) = some f.index := by
    refine Array.findIdx?_eq_some_iff_getElem.2 ⟨hlt, by simp, fun j hj => ?_⟩
    have hne : f.index ≠ j := by omega
    have hapart := (List.nodup_iff_getElem?_ne_getElem?.1 h) j f.index hj (by simpa [funcNames])
    simpa [funcNames, hlt, Nat.lt_trans hj hlt] using hapart
  simp only [funcNamed?, hfirst, Option.map_some]

theorem name_not_mem_of_funcNamed? {p : Program} {name : String} (h : p.funcNamed? name = none) :
    name ∉ p.funcNames := by
  simp only [funcNamed?, Option.map_eq_none_iff, Array.findIdx?_eq_none_iff] at h
  simpa [funcNames] using h

/-- The names of functions depend on the names and the kinds in the table only. -/
theorem names_eq_of_heads {p q : Program}
    (h : q.funcs.toList.map (fun func => (func.name, func.external)) =
      p.funcs.toList.map fun func => (func.name, func.external)) :
    q.funcNames = p.funcNames ∧ q.bodyNames = p.bodyNames := by
  have hfuncs (r : Program) : r.funcNames =
      (r.funcs.toList.map fun func => (func.name, func.external)).map Prod.fst := by
    simp [funcNames]
  have hbodies (r : Program) : r.bodyNames =
      ((r.funcs.toList.map fun func => (func.name, func.external)).filter
        fun head => !head.2).map Prod.fst := by
    simp [bodyNames, List.filter_map, Function.comp_def]
  rw [hfuncs, hfuncs, hbodies, hbodies, h]
  exact ⟨rfl, rfl⟩

def Named (p : Program) (f : FuncRef) (name : String) : Prop :=
  (p.func? f).map Func.name = some name

def KeepsNames (p q : Program) : Prop := ∀ f name, p.Named f name → q.Named f name

theorem KeepsNames.refl (p : Program) : p.KeepsNames p := fun _ _ => id

theorem KeepsNames.trans {p q r : Program} (h : p.KeepsNames q) (h' : q.KeepsNames r) :
    p.KeepsNames r :=
  fun f name hf => h' f name (h f name hf)

/-- What was added to `p` to get `q`, as far as names go. -/
structure Gains (p : Program) (bodies layouts : List String) (q : Program) : Prop where
  bodies : q.bodyNames = p.bodyNames ++ bodies
  layouts : q.layoutNames = p.layoutNames ++ layouts
  distinct : p.funcNames.Nodup → q.funcNames.Nodup
  kept : p.KeepsNames q

namespace Gains

variable {p q r : Program} {bodies layouts bodies' layouts' : List String}

/-- Blocks and instructions have no part in it. -/
theorem of_eq (hfuncs : q.funcs = p.funcs) (hstructs : q.structs = p.structs) :
    p.Gains [] [] q where
  bodies := by simp [bodyNames, hfuncs]
  layouts := by simp [layoutNames, hstructs]
  distinct := by simp [funcNames, hfuncs]
  kept f name hf := by rwa [Named, func?, hfuncs]

theorem trans (h : p.Gains bodies layouts q) (h' : q.Gains bodies' layouts' r) :
    p.Gains (bodies ++ bodies') (layouts ++ layouts') r where
  bodies := by rw [h'.bodies, h.bodies, List.append_assoc]
  layouts := by rw [h'.layouts, h.layouts, List.append_assoc]
  distinct := h'.distinct ∘ h.distinct
  kept := h.kept.trans h'.kept

/-- Putting blocks into a function does not change what it is called. -/
theorem of_setFunc {f : FuncRef} {func : Func} (hf : p.func? f = some func)
    (blocks : List BlockRef) :
    p.Gains [] [] { p with funcs := p.funcs.setIfInBounds f.index { func with blocks } } := by
  obtain ⟨hlt, -⟩ := Array.getElem?_eq_some_iff.1 hf
  have hnames := @names_eq_of_heads p
    { p with funcs := p.funcs.setIfInBounds f.index { func with blocks } }
    (map_setIfInBounds_eq (fun func => (func.name, func.external)) { func with blocks } hf rfl)
  refine ⟨by simpa using hnames.2, by simp [layoutNames], by simp [hnames.1], fun g name hg => ?_⟩
  by_cases hfg : f.index = g.index
  · obtain rfl := FuncRef.ext hfg
    rw [Named, hf] at hg
    rw [Named, func?, Array.getElem?_setIfInBounds_self_of_lt hlt]
    exact hg
  · rwa [Named, func?, Array.getElem?_setIfInBounds_ne hfg]

/-- A function of a new name. -/
theorem of_addFunc {func : Func} (hname : p.funcNamed? func.name = none) :
    p.Gains (if func.external then [] else [func.name]) []
      { p with funcs := p.funcs.push func } where
  bodies := by
    cases hexternal : func.external <;> simp [bodyNames, hexternal]
  layouts := by simp [layoutNames]
  distinct hnodup := by
    have hnew := name_not_mem_of_funcNamed? hname
    simpa [funcNames] using hnodup.concat hnew
  kept f name hf := by
    obtain ⟨func', hfunc', rfl⟩ := Option.map_eq_some_iff.1 hf
    exact Option.map_eq_some_iff.2 ⟨func', getElem?_push_of_some hfunc' _, rfl⟩

theorem of_addStruct (structTy : StructTy) :
    p.Gains [] [structTy.name] { p with structs := p.structs.push structTy } where
  bodies := by simp [bodyNames]
  layouts := by simp [layoutNames]
  distinct := id
  kept f name hf := hf

end Gains

end Program

namespace Edit

variable {α β : Type} {p : Program} {bodies layouts bodies' layouts' : List String}

/-- Whatever the outcome of the edit in `p`, it adds functions to be filled in under the first few
of the names `bodies` and structure types under the first few of the names `layouts`, all of them
if it succeeds. -/
def Registers (bodies layouts : List String) (edit : Edit α) (p : Program) : Prop :=
  ∀ outcome q, edit.apply p = (outcome, q) → ∃ bodies' layouts', p.Gains bodies' layouts' q ∧
    bodies' <+: bodies ∧ layouts' <+: layouts ∧
    (outcome.isOk → bodies' = bodies ∧ layouts' = layouts)

namespace Registers

theorem keepsNames {edit : Edit α} (h : Registers bodies layouts edit p)
    {outcome : Except Failure α} {q : Program} (heq : edit.apply p = (outcome, q)) :
    p.KeepsNames q := by
  obtain ⟨_, _, hgains, -⟩ := h outcome q heq
  exact hgains.kept

theorem of_pure (a : α) : Registers [] [] (pure a) p := by
  rintro outcome q ⟨⟩
  exact ⟨[], [], .of_eq rfl rfl, List.prefix_rfl, List.prefix_rfl, fun _ => ⟨rfl, rfl⟩⟩

theorem of_throw (failure : Failure) : Registers bodies layouts (throw failure : Edit α) p := by
  rintro outcome q ⟨⟩
  exact ⟨[], [], .of_eq rfl rfl, List.nil_prefix, List.nil_prefix, nofun⟩

theorem of_modify {change : Program → Program} (h : p.Gains bodies layouts (change p)) :
    Registers bodies layouts (modify change) p := by
  rintro outcome q ⟨⟩
  exact ⟨bodies, layouts, h, List.prefix_rfl, List.prefix_rfl, fun _ => ⟨rfl, rfl⟩⟩

/-- The names of the second edit come after those of the first. -/
theorem append {first : Edit α} {second : α → Edit β} (hfirst : Registers bodies layouts first p)
    (hsecond : ∀ a q, Registers bodies' layouts' (second a) q) :
    Registers (bodies ++ bodies') (layouts ++ layouts') (first >>= second) p := by
  intro outcome r h
  rw [apply_bind] at h
  split at h
  · next a q ha =>
      obtain ⟨_, _, hgains, -, -, hall⟩ := hfirst _ _ ha
      obtain ⟨rfl, rfl⟩ := hall rfl
      obtain ⟨more, more', hgains', hmore, hmore', hall'⟩ := hsecond a q outcome r h
      refine ⟨_, _, hgains.trans hgains', (List.prefix_append_right_inj _).2 hmore,
        (List.prefix_append_right_inj _).2 hmore', fun hok => ?_⟩
      obtain ⟨rfl, rfl⟩ := hall' hok
      exact ⟨rfl, rfl⟩
  · next failure q hfailure =>
      obtain ⟨rfl, rfl⟩ := Prod.mk.inj h
      obtain ⟨few, few', hgains, hfew, hfew', -⟩ := hfirst _ _ hfailure
      exact ⟨few, few', hgains, hfew.trans (List.prefix_append _ _),
        hfew'.trans (List.prefix_append _ _), nofun⟩

theorem bind {first : Edit α} {second : α → Edit β} (hfirst : Registers [] [] first p)
    (hsecond : ∀ a q, Registers bodies layouts (second a) q) :
    Registers bodies layouts (first >>= second) p :=
  append hfirst hsecond

theorem get_bind {next : Program → Edit β} (h : Registers bodies layouts (next p) p) :
    Registers bodies layouts (get >>= next) p := by
  intro outcome q heq
  rw [apply_bind] at heq
  exact h outcome q heq

theorem answer_bind {answer : Except Failure α} {next : α → Edit β}
    (h : ∀ a, answer = .ok a → Registers bodies layouts (next a) p) :
    Registers bodies layouts ((liftM answer : Edit α) >>= next) p := by
  intro outcome q heq
  rw [apply_bind, apply_liftM] at heq
  cases answer with
  | ok a => exact h a rfl outcome q heq
  | error failure => exact of_throw failure outcome q heq

/-- Several edits in a row, with the names of each. -/
theorem mapM {edit : α → Edit β} {bodies layouts : α → List String}
    (h : ∀ x q, Registers (bodies x) (layouts x) (edit x) q) (xs : List α) (p : Program) :
    Registers (xs.flatMap bodies) (xs.flatMap layouts) (xs.mapM edit) p := by
  induction xs generalizing p with
  | nil =>
      rw [List.mapM_nil]
      exact of_pure []
  | cons x xs ih =>
      rw [List.mapM_cons, List.flatMap_cons, List.flatMap_cons]
      refine append (h x p) fun y q => ?_
      have htail := append (ih q) fun ys r => of_pure (y :: ys) (p := r)
      rwa [List.append_nil, List.append_nil] at htail

theorem forM {edit : α → Edit Unit} (h : ∀ x q, Registers [] [] (edit x) q) (xs : List α)
    (p : Program) : Registers [] [] (xs.forM edit) p := by
  induction xs generalizing p with
  | nil => exact of_pure ()
  | cons x xs ih => exact bind (h x p) fun _ q => ih q

theorem nextIndex_bind {size : Nat} {next : Nat → Edit β}
    (h : Registers bodies layouts (next size) p) :
    Registers bodies layouts (Edit.nextIndex size >>= next) p := by
  unfold Edit.nextIndex
  split
  · exact h
  · exact of_throw (.fault (.numberTooLarge size))

theorem addFunc {func : Func} (hname : p.funcNamed? func.name = none) :
    Registers (if func.external then [] else [func.name]) [] (Edit.addFunc func) p := by
  refine get_bind (nextIndex_bind ?_)
  have hpush : Registers (if func.external then [] else [func.name]) []
      (modify fun p => { p with funcs := p.funcs.push func }) p := of_modify (.of_addFunc hname)
  have hadd := append hpush fun _ q => of_pure (⟨p.funcs.size⟩ : FuncRef) (p := q)
  rwa [List.append_nil] at hadd

theorem requireFunc (name : String) (params : List Ty) (ret : Ty) :
    Registers [] [] (Edit.requireFunc name params ret) p := by
  refine get_bind ?_
  split
  · exact of_pure _
  · next hname => exact addFunc hname

theorem addStruct (name : String) (fields : List Ty) :
    Registers [] [name] (Edit.addStruct name fields) p := by
  refine get_bind (nextIndex_bind ?_)
  have hpush : Registers [] [name]
      (modify fun p => { p with structs := p.structs.push { name, fields } }) p :=
    of_modify (.of_addStruct { name, fields })
  exact append hpush fun _ _ => of_pure _

theorem changeInstr (i : InstrRef) (change : Instr → Instr) :
    Registers [] [] (Edit.changeInstr i change) p :=
  get_bind (answer_bind fun _ _ => of_modify (.of_eq rfl rfl))

theorem insertBlock (f : FuncRef) (position : Nat) (name : String) :
    Registers [] [] (Edit.insertBlock f position name) p := by
  refine get_bind (nextIndex_bind ?_)
  refine bind (of_modify (.of_eq rfl rfl)) fun _ q => get_bind (answer_bind fun func hfunc => ?_)
  split
  · exact bind (of_modify (.of_setFunc (Program.func_eq_ok_iff.1 hfunc) _)) fun _ _ => of_pure _
  · exact of_throw _

theorem appendBlock (f : FuncRef) (name : String) :
    Registers [] [] (Edit.appendBlock f name) p :=
  get_bind (answer_bind fun _ _ => insertBlock f _ name)

theorem insertInstr (b : BlockRef) (position : Nat) (op : Op) (ty : Ty) (name : Option String) :
    Registers [] [] (Edit.insertInstr b position op ty name) p := by
  refine bind ?_ fun i q => get_bind (answer_bind fun block _ => ?_)
  · exact get_bind (nextIndex_bind (bind (of_modify (.of_eq rfl rfl)) fun _ _ => of_pure _))
  · split
    · exact bind (of_modify (.of_eq rfl rfl)) fun _ _ => of_pure _
    · exact of_throw _

theorem appendInstr (b : BlockRef) (op : Op) (ty : Ty) (name : Option String) :
    Registers [] [] (Edit.appendInstr b op ty name) p :=
  get_bind (answer_bind fun _ _ => insertInstr b _ op ty name)

theorem insertBeforeEnd (b : BlockRef) (op : Op) (ty : Ty) (name : Option String) :
    Registers [] [] (Edit.insertBeforeEnd b op ty name) p := by
  refine get_bind (answer_bind fun block _ => answer_bind fun last? _ => ?_)
  split <;> exact insertInstr b _ op ty name

end Registers

end Edit

open Edit Edit.Registers

variable {p : Program}

theorem Renaming.registers_apply (σ : Renaming) (is : List InstrRef) :
    Registers [] [] (σ.apply is) p := by
  have heach (p : Program) : Registers [] [] (σ.applyEach is) p := by
    induction is generalizing p with
    | nil => exact of_pure 0
    | cons i is ih =>
        refine get_bind (answer_bind fun instr _ => bind (of_modify (.of_eq rfl rfl)) fun _ q => ?_)
        exact bind (ih q) fun _ _ => of_pure _
  unfold Renaming.apply
  split
  · exact of_pure 0
  · exact heach p

def Exchange.names (loopId : Nat) : List String :=
  ["outstruct_" ++ toString loopId ++ "_ty", "argstruct_" ++ toString loopId ++ "_ty"]

theorem Exchange.registers_declare (loopId : Nat) (liveIn : List Value) (liveOut : List InstrRef) :
    Registers [] (names loopId) (declare loopId liveIn liveOut) p := by
  refine get_bind (answer_bind fun outTypes _ => ?_)
  refine append (addStruct _ _) fun outs q => answer_bind fun argTypes _ => ?_
  exact answer_bind fun outField _ => append (addStruct _ _) fun args q => of_pure _

namespace Dispatch

variable {s : Setting} {exchange : Exchange} {block : BlockRef}

theorem registers_redirect (blocks : List BlockRef) :
    Registers [] [] (redirect s block blocks) p := by
  have hblock (b : BlockRef) (p : Program) : Registers [] [] (redirectBlock s block b) p := by
    refine get_bind (answer_bind fun last? _ => ?_)
    split
    · exact of_pure 0
    · exact answer_bind fun _ _ => bind (of_modify (.of_eq rfl rfl)) fun _ _ => of_pure _
  induction blocks generalizing p with
  | nil => exact of_pure 0
  | cons b blocks ih =>
      unfold redirect
      split
      · exact bind (hblock b p) fun _ _ => bind ih fun _ _ => of_pure _
      · exact bind (of_pure 0) fun _ _ => bind ih fun _ _ => of_pure _

theorem registers_addWorker (thread : Nat) :
    Registers [workerName s.loopId thread] [] (addWorker s thread) p := by
  refine get_bind ?_
  split
  · exact of_throw _
  · next hname => exact addFunc hname

theorem registers_storeArgs (argPtr : InstrRef) (k : Nat) (values : List Value) :
    Registers [] [] (storeArgs exchange block argPtr k values) p := by
  induction values generalizing k p with
  | nil => exact of_pure ()
  | cons v values ih =>
      refine get_bind (answer_bind fun name _ => answer_bind fun n _ => ?_)
      exact bind (appendInstr _ _ _ _) fun addr _ =>
        bind (appendInstr _ _ _ _) fun _ _ => ih (k + 1)

theorem registers_callWorkers (dispatch : FuncRef) (shared : InstrRef) (thread : Nat)
    (workers : List FuncRef) :
    Registers [] [] (callWorkers block dispatch shared thread workers) p := by
  induction workers generalizing thread p with
  | nil => exact of_pure ()
  | cons worker workers ih => exact bind (appendInstr _ _ _ _) fun _ _ => ih (thread + 1)

theorem registers_runWorkers (argPtr : InstrRef) (workers : List FuncRef) :
    Registers [] [] (runWorkers s block argPtr workers) p := by
  refine bind (requireFunc _ _ _) fun init _ => ?_
  refine bind (requireFunc _ _ _) fun dispatch _ => ?_
  refine bind (requireFunc _ _ _) fun join _ => ?_
  refine bind (appendInstr _ _ _ _) fun _ _ => bind (appendInstr _ _ _ _) fun shared _ => ?_
  refine bind (registers_callWorkers dispatch shared 0 workers) fun _ _ => ?_
  exact bind (appendInstr _ _ _ _) fun _ _ => of_pure _

theorem registers_loadOuts (outPtr : InstrRef) (k : Nat) (outs : List InstrRef) (σ : Renaming) :
    Registers [] [] (loadOuts exchange block outPtr k outs σ) p := by
  induction outs generalizing k σ p with
  | nil => exact of_pure σ
  | cons i outs ih =>
      refine get_bind (answer_bind fun name _ => answer_bind fun ty _ => answer_bind fun n _ => ?_)
      exact bind (appendInstr _ _ _ _) fun addr _ =>
        bind (appendInstr _ _ _ _) fun loaded _ => ih (k + 1) _

theorem registers_unpackOuts (argPtr : InstrRef) :
    Registers [] [] (unpackOuts s exchange block argPtr) p := by
  refine bind (appendInstr _ _ _ _) fun outPtr _ => ?_
  refine bind (registers_loadOuts outPtr 0 _ ∅) fun σ _ => ?_
  refine get_bind (answer_bind fun func _ => answer_bind fun is _ => ?_)
  exact bind (σ.registers_apply is) fun _ _ => of_pure _

/-- The code of the new block, after the structure types. -/
theorem registers_code {workers : List FuncRef} {redirected : Nat} : Registers [] [] (do
    let argPtr ← Edit.appendInstr block (.alloca (.struct exchange.args)) .ptr "argstruct"
    storeArgs exchange block argPtr 0 s.live.liveIn
    runWorkers s block argPtr workers
    unless s.live.liveOut.isEmpty do
      unpackOuts s exchange block argPtr
    let _ ← Edit.appendInstr block (.br s.loop.exit) .void none
    return { block, workers, exchange, redirected : Dispatch }) p := by
  refine bind (appendInstr _ _ _ _) fun argPtr _ => ?_
  refine bind (registers_storeArgs argPtr 0 _) fun _ _ => ?_
  refine bind (registers_runWorkers argPtr workers) fun _ _ => ?_
  dsimp only
  split
  · exact bind (appendInstr _ _ _ _) fun _ _ => of_pure _
  · exact bind (registers_unpackOuts argPtr) fun _ _ =>
      bind (appendInstr _ _ _ _) fun _ _ => of_pure _

/-- The workers come first, and then the structure types. -/
theorem registers_install :
    Registers ((List.range s.threads).map (workerName s.loopId)) (Exchange.names s.loopId)
      (install s) p := by
  refine get_bind (answer_bind fun position _ => bind (insertBlock _ _ _) fun block q => ?_)
  refine get_bind (answer_bind fun func _ => bind (registers_redirect _) fun redirected q => ?_)
  refine get_bind (answer_bind fun exit _ => ?_)
  refine bind (forM (fun i _ => changeInstr i _) _ _) fun _ q => ?_
  have hworkers := mapM (fun thread q => @registers_addWorker q s thread) (List.range s.threads) q
  rw [← List.map_eq_flatMap, List.flatMap_eq_nil_iff.2 fun _ _ => rfl] at hworkers
  rw [← List.append_nil ((List.range s.threads).map (workerName s.loopId))]
  refine append hworkers fun workers q => ?_
  exact append (Exchange.registers_declare _ _ _) fun exchange q => registers_code

theorem addWorker_eq_ok {thread : Nat} {f : FuncRef} {q : Program}
    (h : (addWorker s thread).apply p = (.ok f, q)) : q.Named f (workerName s.loopId thread) := by
  unfold addWorker at h
  rw [get_bind_eq_ok_iff] at h
  split at h
  · exact absurd h throw_ne_ok
  · obtain ⟨rfl, rfl⟩ := addFunc_eq_ok h
    simp [Program.Named, Program.func?]

/-- The functions that stand ready for the workers have the names of the threads. -/
theorem named_of_install {d : Dispatch} {q : Program} (h : (install s).apply p = (.ok d, q)) :
    List.Forall₂ (fun thread f => q.Named f (workerName s.loopId thread)) (List.range s.threads)
      d.workers := by
  unfold install at h
  rw [get_bind_eq_ok_iff] at h
  obtain ⟨position, _, -, h⟩ := apply_bind_eq_ok_iff.1 h
  obtain ⟨block, _, -, h⟩ := apply_bind_eq_ok_iff.1 h
  rw [get_bind_eq_ok_iff] at h
  obtain ⟨func, _, -, h⟩ := apply_bind_eq_ok_iff.1 h
  obtain ⟨redirected, _, -, h⟩ := apply_bind_eq_ok_iff.1 h
  rw [get_bind_eq_ok_iff] at h
  obtain ⟨exit, _, -, h⟩ := apply_bind_eq_ok_iff.1 h
  obtain ⟨_, _, -, h⟩ := apply_bind_eq_ok_iff.1 h
  obtain ⟨workers, p₁, hworkers, h⟩ := apply_bind_eq_ok_iff.1 h
  obtain ⟨exchange, p₂, hdeclare, h⟩ := apply_bind_eq_ok_iff.1 h
  have hkept := ((Exchange.registers_declare _ _ _).keepsNames hdeclare).trans
    (registers_code.keepsNames h)
  obtain ⟨argPtr, _, -, h⟩ := apply_bind_eq_ok_iff.1 h
  obtain ⟨_, _, -, h⟩ := apply_bind_eq_ok_iff.1 h
  obtain ⟨_, _, -, h⟩ := apply_bind_eq_ok_iff.1 h
  obtain ⟨_, _, -, h⟩ := unless_bind_eq_ok h
  obtain ⟨_, _, -, h⟩ := apply_bind_eq_ok_iff.1 h
  obtain ⟨rfl, rfl⟩ := pure_eq_ok_iff.1 h
  obtain ⟨-, hall⟩ := mapM_eq_ok Program.KeepsNames.refl (fun _ _ _ => .trans)
    (fun thread _ _ _ _ hadd => (registers_addWorker thread).keepsNames hadd) hworkers
  refine hall.imp ?_
  rintro thread f ⟨before, after, -, hadd, hafter⟩
  exact hafter.trans hkept f _ (addWorker_eq_ok hadd)

end Dispatch

namespace Worker

variable {s : Setting} {exchange : Exchange} {w : Worker}

theorem registers_addCopies (f : FuncRef) (thread : Nat) (blocks : List BlockRef)
    (blockMap : Std.TreeMap BlockRef BlockRef) :
    Registers [] [] (addCopies f thread blocks blockMap) p := by
  induction blocks generalizing blockMap p with
  | nil => exact of_pure blockMap
  | cons b blocks ih =>
      exact get_bind (answer_bind fun block _ => bind (appendBlock f _) fun copy _ => ih _)

theorem registers_addSkeleton (f : FuncRef) (thread : Nat) (blocks : List BlockRef) :
    Registers [] [] (addSkeleton s f thread blocks) p := by
  refine bind (appendBlock f _) fun entry _ => ?_
  refine bind (registers_addCopies f thread blocks ∅) fun copied _ => ?_
  refine bind (appendBlock f _) fun exit _ => answer_bind fun header _ => ?_
  exact bind (appendInstr _ _ _ _) fun _ _ => bind (appendInstr _ _ _ _) fun _ _ => of_pure _

theorem registers_copyInstrs (b copy : BlockRef) (is : List InstrRef) :
    Registers [] [] (copyInstrs s w b copy is) p := by
  induction is generalizing p with
  | nil => exact of_pure []
  | cons i is ih =>
      refine get_bind (answer_bind fun instr _ => answer_bind fun taken _ => ?_)
      split
      · refine answer_bind fun op _ => bind (appendInstr _ _ _ _) fun clone _ => ?_
        exact bind ih fun _ _ => of_pure _
      · exact ih

theorem registers_copyBlocks (blocks : List BlockRef) :
    Registers [] [] (copyBlocks s w blocks) p := by
  induction blocks generalizing p with
  | nil => exact of_pure []
  | cons b blocks ih =>
      refine answer_bind fun copy _ => get_bind (answer_bind fun block _ => ?_)
      exact bind (registers_copyInstrs b copy _) fun copied _ => bind ih fun _ _ => of_pure _

theorem registers_loadArgs (entry : BlockRef) (argPtr : InstrRef) (k : Nat) (values : List Value)
    (σ : Renaming) : Registers [] [] (loadArgs exchange entry argPtr k values σ) p := by
  induction values generalizing k σ p with
  | nil => exact of_pure σ
  | cons v values ih =>
      refine get_bind (answer_bind fun name _ => answer_bind fun structTy _ => ?_)
      split
      · exact of_throw _
      · refine answer_bind fun n _ => bind (insertBeforeEnd _ _ _ _) fun addr _ => ?_
        refine bind (insertBeforeEnd _ _ _ _) fun loaded _ => get_bind (answer_bind fun ty _ => ?_)
        split
        · exact of_throw _
        · exact ih (k + 1) _

theorem registers_unpackArgs (σ : Renaming) :
    Registers [] [] (unpackArgs s exchange w σ) p := by
  have hload (p : Program) : Registers [] [] (do
      let param ← (← get).paramValue w.func 0
      let argPtr ← Edit.insertBeforeEnd w.entry (.cast param) .ptr "args"
      let σ ← loadArgs exchange w.entry argPtr 0 s.live.liveIn σ
      return (argPtr, σ) : Edit (InstrRef × Renaming)) p := by
    refine get_bind (answer_bind fun param _ => bind (insertBeforeEnd _ _ _ _) fun argPtr _ => ?_)
    exact bind (registers_loadArgs w.entry argPtr 0 _ σ) fun _ _ => of_pure _
  unfold unpackArgs
  dsimp only
  split
  · exact hload p
  · refine bind (requireFunc _ _ _) fun hook _ => ?_
    exact bind (insertBeforeEnd _ _ _ _) fun _ q => hload q

theorem registers_storeEach (σ : Renaming) (outPtr : InstrRef) (owned : List (InstrRef × Nat)) :
    Registers [] [] (storeEach exchange w σ outPtr owned) p := by
  induction owned generalizing p with
  | nil => exact of_pure []
  | cons out owned ih =>
      refine get_bind (answer_bind fun name _ => ?_)
      split
      · exact of_throw _
      · refine answer_bind fun n _ => bind (insertBeforeEnd _ _ _ _) fun addr _ => ?_
        exact bind (insertBeforeEnd _ _ _ _) fun store _ => bind ih fun _ _ => of_pure _

theorem registers_storeOuts (σ : Renaming) (argPtr : InstrRef) :
    Registers [] [] (storeOuts s exchange w σ argPtr) p := by
  unfold storeOuts
  split
  · exact of_pure []
  · exact bind (insertBeforeEnd _ _ _ _) fun outPtr _ => registers_storeEach σ outPtr _

/-- Writing a worker adds at most the declaration of the hook. -/
theorem registers_build (d : Dispatch) (thread : Nat) : Registers [] [] (build s d thread) p := by
  refine get_bind (answer_bind fun f _ => get_bind (answer_bind fun blocks _ => ?_))
  refine bind (registers_addSkeleton f thread blocks) fun w _ => ?_
  refine bind (registers_copyBlocks blocks) fun copies _ => ?_
  refine bind (registers_unpackArgs _) fun unpacked _ => ?_
  refine bind (unpacked.2.registers_apply _) fun _ _ => ?_
  refine bind (registers_storeOuts unpacked.2 unpacked.1) fun _ _ => ?_
  exact get_bind (answer_bind fun _ _ => of_pure _)

/-- The skeleton is made for the function that was vacant. -/
theorem func_of_build {d : Dispatch} {thread : Nat} {q : Program}
    (h : (build s d thread).apply p = (.ok w, q)) : d.workers[thread]? = some w.func := by
  obtain ⟨f, blocks, w₀, pairs, argPtr, σ, n, stores, p₁, p₂, p₃, p₄, hvacant, -, hadd, -, -, -, -,
    rfl⟩ := build_eq_ok h
  obtain ⟨_, _, _, _, _, _, _, _, -, -, -, -, -, -, hw⟩ := addSkeleton_eq_ok hadd
  rw [hw]
  exact getElem?_workers_of_vacantFunc hvacant

end Worker

namespace Splitter

variable {s : Setting}

theorem registers_splitIn :
    Registers ((List.range s.threads).map (Dispatch.workerName s.loopId)) (Exchange.names s.loopId)
      (splitIn s) p := by
  rw [← List.append_nil ((List.range s.threads).map _), ← List.append_nil (Exchange.names _)]
  refine append Dispatch.registers_install fun d q => ?_
  have hbuild := mapM (fun thread q => @Worker.registers_build q s d thread)
    (List.range s.threads) q
  rw [List.flatMap_eq_nil_iff.2 fun _ _ => rfl] at hbuild
  refine bind hbuild fun workers q => ?_
  dsimp only
  split
  · refine get_bind (answer_bind fun _ _ => ?_)
    exact get_bind (answer_bind fun _ _ => of_pure _)
  · exact get_bind (answer_bind fun _ _ => of_pure _)

/-- The function of each worker has the name of its thread. -/
theorem named_of_splitIn {split : Split} {q : Program}
    (h : (splitIn s).apply p = (.ok split, q)) :
    List.Forall₂ q.Named split.workerFuncs
      ((List.range s.threads).map (Dispatch.workerName s.loopId)) := by
  obtain ⟨d, between, hinstall, hworkers, -⟩ := splitIn_eq_ok h
  have hnamed := Dispatch.named_of_install hinstall
  obtain ⟨hkept, hall⟩ := mapM_eq_ok Program.KeepsNames.refl (fun _ _ _ => .trans)
    (fun thread _ _ _ _ hbuild => (Worker.registers_build d thread).keepsNames hbuild) hworkers
  have hready : ∀ thread f, d.workers[thread]? = some f →
      between.Named f (Dispatch.workerName s.loopId thread) := by
    intro thread f hf
    obtain ⟨hlt, rfl⟩ := List.getElem?_eq_some_iff.1 hf
    simpa using hnamed.get (hnamed.length_eq ▸ hlt) hlt
  rw [Split.workerFuncs, List.forall₂_map_left_iff, List.forall₂_map_right_iff]
  refine List.Forall₂.flip (hall.imp ?_)
  rintro thread w ⟨before, after, -, hbuild, -⟩
  exact hkept w.func _ (hready thread w.func (Worker.func_of_build hbuild))

end Splitter

end Decouple
