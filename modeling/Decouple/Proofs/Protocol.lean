import Decouple.Proofs.Arguments

/-!
# The protocol of the block in the place of a loop

The block in the place of a loop shares one structure with the workers, so the order in which it
does things is what keeps them apart: it stores all live-ins, then starts the workers, then waits
for them, and only then loads the live-outs. The functions that it calls for this are looked up by
name, each time in the table as it is at that moment: a function of the runtime may be one that was
there, a worker that was added just before, or the declaration of another function of the runtime.

The table of functions is followed through the installation (`Dispatch.funcs_of_install`): workers
are added to its end, then each function of the runtime that is not found (`withFunc`), and nothing
else adds a function (`Edit.KeepsFuncs`). The code of the block is known as a list, so that its
order is read off positions in the list (`Dispatch.OrderedCode`).

The renaming of live-outs that comes last is meant for the blocks outside the loop. It gets at the
new block only where one of these blocks listed a reference before any instruction had it.
-/

namespace Decouple

/-- The functions with one of that name among them: the declaration is added if there is none. -/
def withFunc (funcs : List Func) (decl : Func) : List Func :=
  if ∃ func ∈ funcs, func.name = decl.name then funcs else funcs ++ [decl]

theorem mem_foldl_withFunc {funcs decls : List Func} {func : Func}
    (h : func ∈ decls.foldl withFunc funcs) : func ∈ funcs ∨ func ∈ decls := by
  induction decls generalizing funcs with
  | nil => exact .inl h
  | cons decl decls ih =>
      rcases ih h with hmem | hmem
      · unfold withFunc at hmem
        split at hmem
        · exact .inl hmem
        · rcases List.mem_append.1 hmem with hmem | hmem
          · exact .inl hmem
          · exact .inr (List.mem_singleton.1 hmem ▸ List.mem_cons_self ..)
      · exact .inr (List.mem_cons_of_mem _ hmem)

/-- What is looked for and added comes behind what was there. -/
theorem exists_foldl_withFunc (funcs decls : List Func) :
    ∃ more, decls.foldl withFunc funcs = funcs ++ more := by
  induction decls generalizing funcs with
  | nil => exact ⟨[], (List.append_nil funcs).symm⟩
  | cons decl decls ih =>
      obtain ⟨more, hmore⟩ := ih (withFunc funcs decl)
      rw [List.foldl_cons, hmore, withFunc]
      split
      · exact ⟨more, rfl⟩
      · exact ⟨decl :: more, by simp⟩

/-- A function whose name nobody has, also not by then, is found as it was declared. -/
theorem find?_foldl_withFunc {funcs before after : List Func} {decl : Func}
    (hfuncs : ∀ func ∈ funcs, func.name ≠ decl.name)
    (hbefore : ∀ func ∈ before, func.name ≠ decl.name) :
    ((before ++ decl :: after).foldl withFunc funcs).find? (·.name = decl.name) = some decl := by
  have hnone : ∀ func ∈ before.foldl withFunc funcs, func.name ≠ decl.name := by
    intro func hfunc
    rcases mem_foldl_withFunc hfunc with hfunc | hfunc
    · exact hfuncs func hfunc
    · exact hbefore func hfunc
  obtain ⟨more, hmore⟩ := exists_foldl_withFunc (withFunc (before.foldl withFunc funcs) decl) after
  rw [List.foldl_append, List.foldl_cons, hmore, withFunc, if_neg (by simpa using hnone),
    List.append_assoc, List.find?_append, List.find?_eq_none.2 (by simpa using hnone)]
  simp

namespace Program

variable {p q : Program} {name : String} {f : FuncRef}

theorem funcNamed?_eq_none_iff :
    p.funcNamed? name = none ↔ ∀ func ∈ p.funcs.toList, func.name ≠ name := by
  simp [funcNamed?, Array.findIdx?_eq_none_iff]

/-- A name leads to the first function that has it. -/
theorem func?_of_funcNamed? (h : p.funcNamed? name = some f) :
    p.func? f = p.funcs.toList.find? (·.name = name) := by
  obtain ⟨k, hk, rfl⟩ := Option.map_eq_some_iff.1 h
  obtain ⟨hlt, hname, hfirst⟩ := Array.findIdx?_eq_some_iff_getElem.1 hk
  have hfind : p.funcs.toList.find? (·.name = name) = some p.funcs[k] :=
    List.find?_eq_some_iff_getElem.2
      ⟨hname, k, by simpa using hlt, by simp, fun j hj => by simpa using hfirst j hj⟩
  rw [hfind]
  exact Array.getElem?_eq_getElem hlt

/-- More functions at the end of the table do not come first. -/
theorem funcNamed?_of_append {more : List Func} (hq : q.funcs.toList = p.funcs.toList ++ more)
    (h : p.funcNamed? name = some f) : q.funcNamed? name = some f := by
  have hfuncs : q.funcs = p.funcs ++ more.toArray := by
    rw [← Array.toList_inj, hq, Array.toList_append]
  obtain ⟨k, hk, rfl⟩ := Option.map_eq_some_iff.1 h
  rw [funcNamed?, hfuncs, Array.findIdx?_append, hk]
  rfl

end Program

namespace Edit

variable {α β : Type} {p q : Program} {f : FuncRef}

theorem funcs_of_requireFunc {name : String} {params : List Ty} {ret : Ty}
    (h : (requireFunc name params ret).apply p = (.ok f, q)) :
    q.funcs.toList =
      withFunc p.funcs.toList { name, params, ret, blocks := [], external := true } := by
  unfold requireFunc at h
  rw [get_bind_eq_ok_iff] at h
  split at h
  · next f' hf =>
      obtain ⟨-, rfl⟩ := pure_eq_ok_iff.1 h
      have hsome : ¬ p.funcNamed? name = none := by simp [hf]
      rw [Program.funcNamed?_eq_none_iff] at hsome
      rw [withFunc, if_pos (by simpa using hsome)]
  · next hnone =>
      obtain ⟨-, rfl⟩ := addFunc_eq_ok h
      rw [Program.funcNamed?_eq_none_iff] at hnone
      rw [withFunc, if_neg (by simpa using hnone), Array.toList_push]

def KeepsFuncs (edit : Edit α) : Prop :=
  ∀ p a q, edit.apply p = (.ok a, q) → q.funcs = p.funcs

namespace KeepsFuncs

theorem of_pure (a : α) : KeepsFuncs (pure a) := by
  intro p b q h
  rw [(pure_eq_ok_iff.1 h).2]

theorem bind {first : Edit α} {second : α → Edit β} (hfirst : KeepsFuncs first)
    (hsecond : ∀ a, KeepsFuncs (second a)) : KeepsFuncs (first >>= second) := by
  intro p b r h
  obtain ⟨a, q, ha, hb⟩ := apply_bind_eq_ok_iff.1 h
  rw [hsecond a q b r hb, hfirst p a q ha]

theorem get_bind {next : Program → Edit β} (h : ∀ p, KeepsFuncs (next p)) :
    KeepsFuncs (get >>= next) :=
  fun p b q hnext => h p p b q (get_bind_eq_ok_iff.1 hnext)

theorem answer_bind {answer : Except Failure α} {next : α → Edit β}
    (h : ∀ a, KeepsFuncs (next a)) : KeepsFuncs ((liftM answer : Edit α) >>= next) := by
  refine bind ?_ h
  intro p a q ha
  rw [(liftM_eq_ok_iff.1 ha).2]

theorem addStruct (name : String) (fields : List Ty) : KeepsFuncs (Edit.addStruct name fields) := by
  intro p s q h
  obtain ⟨-, rfl⟩ := addStruct_eq_ok h
  rfl

theorem appendInstr (b : BlockRef) (op : Op) (ty : Ty) (name : Option String) :
    KeepsFuncs (Edit.appendInstr b op ty name) := by
  refine get_bind fun p => answer_bind fun block => ?_
  intro p i q h
  obtain ⟨block, -, -, -, rfl⟩ := insertInstr_eq_ok h
  rfl

end KeepsFuncs

end Edit

open Edit.KeepsFuncs

theorem Exchange.keepsFuncs_declare (loopId : Nat) (liveIn : List Value)
    (liveOut : List InstrRef) : Edit.KeepsFuncs (declare loopId liveIn liveOut) := by
  refine get_bind fun p => answer_bind fun outTypes => bind (addStruct _ _) fun outs => ?_
  refine answer_bind fun argTypes => answer_bind fun outField => ?_
  exact bind (addStruct _ _) fun args => of_pure _

namespace Dispatch

variable {s : Setting} {p q : Program} {d : Dispatch} {exchange : Exchange} {b : BlockRef}

theorem keepsFuncs_storeArgs (argPtr : InstrRef) (k : Nat) (values : List Value) :
    Edit.KeepsFuncs (storeArgs exchange b argPtr k values) := by
  induction values generalizing k with
  | nil => exact of_pure ()
  | cons v values ih =>
      refine get_bind fun p => answer_bind fun name => answer_bind fun n => ?_
      exact bind (appendInstr _ _ _ _) fun addr => bind (appendInstr _ _ _ _) fun _ => ih (k + 1)

theorem keepsFuncs_callWorkers (dispatch : FuncRef) (shared : InstrRef) (thread : Nat)
    (workers : List FuncRef) : Edit.KeepsFuncs (callWorkers b dispatch shared thread workers) := by
  induction workers generalizing thread with
  | nil => exact of_pure ()
  | cons worker workers ih => exact bind (appendInstr _ _ _ _) fun _ => ih (thread + 1)

theorem keepsFuncs_loadOuts (outPtr : InstrRef) (k : Nat) (outs : List InstrRef) (σ : Renaming) :
    Edit.KeepsFuncs (loadOuts exchange b outPtr k outs σ) := by
  induction outs generalizing k σ with
  | nil => exact of_pure σ
  | cons i outs ih =>
      refine get_bind fun p => answer_bind fun name => answer_bind fun ty => ?_
      refine answer_bind fun n => bind (appendInstr _ _ _ _) fun addr => ?_
      exact bind (appendInstr _ _ _ _) fun loaded => ih (k + 1) _

theorem keepsFuncs_unpackOuts (argPtr : InstrRef) :
    Edit.KeepsFuncs (unpackOuts s exchange b argPtr) := by
  refine bind (appendInstr _ _ _ _) fun outPtr => bind (keepsFuncs_loadOuts _ _ _ _) fun σ => ?_
  refine get_bind fun p => answer_bind fun func => answer_bind fun is => ?_
  refine bind (fun p n q h => ?_) fun _ => of_pure _
  exact (Rewrites.of_apply h).funcs_eq

/-- The functions of the runtime as they are declared, in the order in which they are looked
for. -/
def entryDecls (runtime : Runtime) : List Func :=
  [{ name := runtime.init, params := [], ret := .void, blocks := [], external := true },
    { name := runtime.dispatch, params := [.i32, .ptr, .ptr], ret := .void, blocks := [],
      external := true },
    { name := runtime.join, params := [], ret := .void, blocks := [], external := true }]

theorem funcs_of_runWorkers {argPtr : InstrRef} {workers : List FuncRef} {u : Unit}
    (h : (runWorkers s b argPtr workers).apply p = (.ok u, q)) :
    q.funcs.toList = (entryDecls s.config.runtime).foldl withFunc p.funcs.toList := by
  unfold runWorkers at h
  obtain ⟨init, p₁, hinit, h⟩ := Edit.apply_bind_eq_ok_iff.1 h
  obtain ⟨dispatch, p₂, hdispatch, h⟩ := Edit.apply_bind_eq_ok_iff.1 h
  obtain ⟨join, p₃, hjoin, h⟩ := Edit.apply_bind_eq_ok_iff.1 h
  have hkept : q.funcs = p₃.funcs := by
    refine (bind (appendInstr _ _ _ _) fun _ => bind (appendInstr _ _ _ _) fun shared => ?_)
      _ _ _ h
    exact bind (keepsFuncs_callWorkers _ _ _ _) fun _ => bind (appendInstr _ _ _ _) fun _ =>
      of_pure _
  rw [hkept, Edit.funcs_of_requireFunc hjoin, Edit.funcs_of_requireFunc hdispatch,
    Edit.funcs_of_requireFunc hinit]
  rfl

def newFuncs (start count : Nat) : List FuncRef := (List.range' start count).map FuncRef.mk

def workerFunc (s : Setting) (thread : Nat) : Func :=
  ⟨workerName s.loopId thread, [.ptr], .ptr, [], false⟩

theorem funcs_of_addWorker {thread : Nat} {f : FuncRef}
    (h : (addWorker s thread).apply p = (.ok f, q)) :
    f = ⟨p.funcs.size⟩ ∧ q.funcs.toList = p.funcs.toList ++ [workerFunc s thread] ∧
      q.funcNamed? (workerName s.loopId thread) = some f := by
  unfold addWorker at h
  rw [Edit.get_bind_eq_ok_iff] at h
  split at h
  · exact absurd h Edit.throw_ne_ok
  · next hnone =>
      obtain ⟨rfl, rfl⟩ := Edit.addFunc_eq_ok h
      refine ⟨rfl, Array.toList_push, ?_⟩
      rw [Program.funcNamed?, Option.map_eq_none_iff] at hnone
      simp [Program.funcNamed?, Array.findIdx?_push, hnone]

theorem funcs_of_addWorkers {threads : List Nat} {workers : List FuncRef}
    (h : (threads.mapM (addWorker s)).apply p = (.ok workers, q)) :
    workers = newFuncs p.funcs.size threads.length ∧
      q.funcs.toList = p.funcs.toList ++ threads.map (workerFunc s) ∧
      ∀ k thread, threads[k]? = some thread →
        q.funcNamed? (workerName s.loopId thread) = some ⟨p.funcs.size + k⟩ := by
  induction threads generalizing p workers with
  | nil =>
      rw [List.mapM_nil] at h
      obtain ⟨rfl, rfl⟩ := Edit.pure_eq_ok_iff.1 h
      exact ⟨rfl, by simp, fun _ _ hk => nomatch hk⟩
  | cons thread threads ih =>
      rw [List.mapM_cons] at h
      obtain ⟨worker, p₁, hworker, h⟩ := Edit.apply_bind_eq_ok_iff.1 h
      obtain ⟨rest, p₂, hrest, h⟩ := Edit.apply_bind_eq_ok_iff.1 h
      obtain ⟨rfl, rfl⟩ := Edit.pure_eq_ok_iff.1 h
      obtain ⟨rfl, hfuncs, hnamed⟩ := funcs_of_addWorker hworker
      obtain ⟨rfl, hfuncs', hnamed'⟩ := ih hrest
      have hsize : p₁.funcs.size = p.funcs.size + 1 := by
        simpa using congrArg List.length hfuncs
      refine ⟨by rw [hsize]; rfl, by simp [hfuncs', hfuncs], fun k t hk => ?_⟩
      cases k with
      | zero =>
          obtain rfl := Option.some.inj hk
          exact Program.funcNamed?_of_append hfuncs' hnamed
      | succ k =>
          rw [hnamed' k t hk, hsize, Nat.add_assoc, Nat.add_comm 1]

/-- The table of functions after an installation. -/
theorem funcs_of_install (h : (install s).apply p = (.ok d, q)) :
    ∃ func position, p.func? s.func = some func ∧
      func.blocks.idxOf? s.loop.exit = some position ∧
      d.workers = newFuncs p.funcs.size s.threads ∧
      (∀ t < s.threads, q.funcNamed? (workerName s.loopId t) = some ⟨p.funcs.size + t⟩) ∧
      q.funcs.toList = (entryDecls s.config.runtime).foldl withFunc
        (p.funcs.toList.set s.func.index
            { func with blocks := func.blocks.insertIdx position d.block } ++
          (List.range s.threads).map (workerFunc s)) := by
  obtain ⟨position, func', exitBlock, argPtr, last, p₁, p₂, p₃, p₄, p₅, p₆, p₇, p₈, p₉, hposition,
    hinsert, -, hredirect, -, hretarget, hworkers, hexchange, hargPtr, hstore, hrun, hunpack,
    hlast⟩ := install_eq_ok h
  obtain ⟨-, func, -, hfunc, hidx, -⟩ := exitPosition_eq_ok hposition
  obtain ⟨hplaced, -⟩ := Placed.of_insertBlock hfunc hinsert
  have hwired := (hplaced.rewrites (redirect_rewrites hredirect)).rewrites
    (retarget_rewrites hretarget)
  obtain ⟨hrefs, hadded, hnamed⟩ := funcs_of_addWorkers hworkers
  have hsize : p₃.funcs.size = p.funcs.size := by simp [hwired.funcs_eq]
  rw [hsize, List.length_range] at hrefs
  rw [hwired.funcs_eq, Array.toList_setIfInBounds] at hadded
  have hmarshalled : p₇.funcs = p₄.funcs := by
    rw [keepsFuncs_storeArgs _ _ _ _ _ _ hstore, appendInstr _ _ _ _ _ _ _ hargPtr,
      Exchange.keepsFuncs_declare _ _ _ _ _ _ hexchange]
  have hunpacked : Edit.KeepsFuncs
      (unless s.live.liveOut.isEmpty do unpackOuts s d.exchange d.block argPtr) := by
    split
    · exact of_pure _
    · exact keepsFuncs_unpackOuts argPtr
  have hfuncs : q.funcs.toList =
      (entryDecls s.config.runtime).foldl withFunc p₄.funcs.toList := by
    rw [appendInstr _ _ _ _ _ _ _ hlast, hunpacked _ _ _ hunpack, funcs_of_runWorkers hrun,
      hmarshalled]
  obtain ⟨more, hmore⟩ := exists_foldl_withFunc p₄.funcs.toList (entryDecls s.config.runtime)
  refine ⟨func, position, hfunc, hidx, hrefs, fun t ht => ?_, by rw [hfuncs, hadded]⟩
  refine Program.funcNamed?_of_append (hfuncs.trans hmore) ?_
  rw [hnamed t t (by simp [ht]), hsize]

section Order

variable {init dispatch join : FuncRef} {workers : List FuncRef} {liveIn : List Value}
  {types : List Ty} {exit : BlockRef} {next k : Nat}

theorem mem_storeCode {layout : StructRef} {base : InstrRef} {fields : List (Value × Nat)}
    {x : Op × Ty} (h : x ∈ storeCode layout base next fields) :
    (∃ field ∈ fields, x = (.fieldAddr (.instr base) layout field.2, .ptr)) ∨
      ∃ field ∈ fields, ∃ addr, x = (.store field.1 (.instr addr), .void) := by
  induction fields generalizing next with
  | nil => exact absurd h List.not_mem_nil
  | cons field fields ih =>
      rcases List.mem_cons.1 h with rfl | h
      · exact .inl ⟨field, List.mem_cons_self .., rfl⟩
      rcases List.mem_cons.1 h with rfl | h
      · exact .inr ⟨field, List.mem_cons_self .., _, rfl⟩
      · rcases ih h with ⟨field', hmem, rfl⟩ | ⟨field', hmem, addr, rfl⟩
        · exact .inl ⟨field', List.mem_cons_of_mem _ hmem, rfl⟩
        · exact .inr ⟨field', List.mem_cons_of_mem _ hmem, addr, rfl⟩

theorem mem_loadCode {layout : StructRef} {base : InstrRef} {x : Op × Ty}
    (h : x ∈ loadCode layout base next k types) :
    (∃ field, x = (.fieldAddr (.instr base) layout field, .ptr)) ∨
      ∃ addr ty, x = (.load (.instr addr), ty) := by
  induction types generalizing next k with
  | nil => exact absurd h List.not_mem_nil
  | cons ty types ih =>
      rcases List.mem_cons.1 h with rfl | h
      · exact .inl ⟨k, rfl⟩
      rcases List.mem_cons.1 h with rfl | h
      · exact .inr ⟨_, ty, rfl⟩
      · exact ih h

/-- The call for a thread stands at its place. -/
theorem getElem?_callCode (dispatch : FuncRef) (shared : InstrRef) (thread : Nat)
    (workers : List FuncRef) (t : Nat) :
    (callCode dispatch shared thread workers)[t]? = workers[t]?.map fun worker =>
      (.call (.func dispatch) [.i32 (thread + t : Nat), .func worker, .instr shared], .void) := by
  induction workers generalizing thread t with
  | nil => rfl
  | cons worker workers ih =>
      cases t with
      | zero => rfl
      | succ t =>
          rw [callCode, List.getElem?_cons_succ, ih, List.getElem?_cons_succ, Nat.add_assoc,
            Nat.add_comm 1]

theorem mem_runCode {argPtr : InstrRef} {x : Op × Ty}
    (h : x ∈ runCode init dispatch join argPtr next workers) :
    (∃ callee args, x = (.call callee args, .void)) ∨ x = (.cast (.instr argPtr), .ptr) := by
  simp only [runCode, List.cons_append, List.mem_cons, List.mem_append, List.not_mem_nil,
    or_false] at h
  rcases h with rfl | rfl | hcall | rfl
  · exact .inl ⟨_, _, rfl⟩
  · exact .inr rfl
  · obtain ⟨t, ht⟩ := List.getElem?_of_mem hcall
    rw [getElem?_callCode, Option.map_eq_some_iff] at ht
    obtain ⟨worker, -, rfl⟩ := ht
    exact .inl ⟨_, _, rfl⟩
  · exact .inl ⟨_, _, rfl⟩

/-- The calls of the code that runs the workers. -/
theorem getElem?_runCode_call {argPtr : InstrRef} {callee : Value} {args : List Value} {ty : Ty}
    (h : (runCode init dispatch join argPtr next workers)[k]? = some (.call callee args, ty)) :
    (k = 0 ∧ callee = .func init ∧ args = []) ∨
      (∃ t worker, workers[t]? = some worker ∧ k = t + 2 ∧ callee = .func dispatch ∧
        args = [.i32 t, .func worker, .instr ⟨next + 1⟩]) ∨
      (k = workers.length + 2 ∧ callee = .func join ∧ args = []) := by
  rw [runCode, List.cons_append, List.cons_append] at h
  rcases k with _ | _ | t
  · cases h
    exact .inl ⟨rfl, rfl, rfl⟩
  · cases h
  rw [List.getElem?_cons_succ, List.getElem?_cons_succ, List.getElem?_append,
    length_callCode] at h
  split at h
  · rw [getElem?_callCode, Option.map_eq_some_iff] at h
    obtain ⟨worker, hworker, heq⟩ := h
    rw [Nat.zero_add] at heq
    cases heq
    exact .inr (.inl ⟨t, worker, hworker, rfl, rfl, rfl⟩)
  · next hge =>
      obtain ⟨hlt, heq⟩ := List.getElem?_eq_some_iff.1 h
      rw [List.length_singleton] at hlt
      rw [List.getElem_singleton] at heq
      cases heq
      exact .inr (.inr ⟨by omega, rfl, rfl⟩)

/-- The three parts of the code: what is before the first call, the calls, and the rest. -/
theorem getElem?_replacementCode {x : Op × Ty}
    (h : (replacementCode exchange init dispatch join workers liveIn types exit next)[k]? =
      some x) :
    (k < 2 * liveIn.length + 1 ∧ (x = (.alloca (.struct exchange.args), .ptr) ∨
        x ∈ storeCode exchange.args ⟨next⟩ (next + 1) liveIn.zipIdx)) ∨
      (∃ j, k = 2 * liveIn.length + 1 + j ∧
        (runCode init dispatch join ⟨next⟩ (next + 1 + 2 * liveIn.length) workers)[j]? = some x) ∨
      (2 * liveIn.length + 1 + (workers.length + 3) ≤ k ∧
        (x ∈ unpackCode exchange ⟨next⟩ (next + 1 + 2 * liveIn.length + (workers.length + 3))
          types ∨ x = (.br exit, .void))) := by
  rw [replacementCode, List.append_assoc, List.append_assoc, List.getElem?_append] at h
  have hlength : ((.alloca (.struct exchange.args), .ptr) ::
      storeCode exchange.args ⟨next⟩ (next + 1) liveIn.zipIdx).length =
        2 * liveIn.length + 1 := by
    simp
  rw [hlength] at h
  split at h
  · next hlt => exact .inl ⟨hlt, List.mem_cons.1 (List.mem_of_getElem? h)⟩
  rw [List.getElem?_append, length_runCode] at h
  split at h
  · exact .inr (.inl ⟨k - (2 * liveIn.length + 1), by omega, h⟩)
  · refine .inr (.inr ⟨by omega, ?_⟩)
    rcases List.mem_append.1 (List.mem_of_getElem? h) with hx | hx
    · exact .inl hx
    · exact .inr (List.mem_singleton.1 hx)

/-- The code keeps its order: it stores before the first call, then calls the function that
prepares the workers, starts one worker after the other and waits, and loads nothing before that. -/
structure OrderedCode (init dispatch join : FuncRef) (workers : List FuncRef)
    (liveIn : List Value) (next : Nat) (code : List (Op × Ty)) : Prop where
  store_lt : ∀ k v addr ty, code[k]? = some (.store v addr, ty) → k < 2 * liveIn.length + 1
  call_at : ∀ k callee args ty, code[k]? = some (.call callee args, ty) →
    (k = 2 * liveIn.length + 1 ∧ callee = .func init ∧ args = []) ∨
    (∃ t worker, workers[t]? = some worker ∧ k = 2 * liveIn.length + 3 + t ∧
      callee = .func dispatch ∧
      args = [.i32 t, .func worker, .instr ⟨next + 2 * liveIn.length + 2⟩]) ∨
    (k = 2 * liveIn.length + 3 + workers.length ∧ callee = .func join ∧ args = [])
  load_gt : ∀ k addr ty, code[k]? = some (.load addr, ty) →
    2 * liveIn.length + 3 + workers.length < k

theorem mem_unpackCode {argPtr : InstrRef} {x : Op × Ty}
    (h : x ∈ unpackCode exchange argPtr next types) :
    types ≠ [] ∧ ((∃ base layout field, x = (.fieldAddr base layout field, .ptr)) ∨
      ∃ addr ty, x = (.load addr, ty)) := by
  cases types with
  | nil => exact absurd h List.not_mem_nil
  | cons ty types =>
      refine ⟨List.cons_ne_nil ty types, ?_⟩
      rcases List.mem_cons.1 h with rfl | h
      · exact .inl ⟨_, _, _, rfl⟩
      rcases mem_loadCode h with ⟨field, rfl⟩ | ⟨addr, ty, rfl⟩
      · exact .inl ⟨_, _, _, rfl⟩
      · exact .inr ⟨_, _, rfl⟩

theorem orderedCode_replacementCode (exchange : Exchange) (init dispatch join : FuncRef)
    (workers : List FuncRef) (liveIn : List Value) (types : List Ty) (exit : BlockRef)
    (next : Nat) :
    OrderedCode init dispatch join workers liveIn next
      (replacementCode exchange init dispatch join workers liveIn types exit next) where
  store_lt := by
    intro k v addr ty h
    rcases getElem?_replacementCode h with ⟨hlt, -⟩ | ⟨j, rfl, hrun⟩ | ⟨-, hrest | hrest⟩
    · exact hlt
    · rcases mem_runCode (List.mem_of_getElem? hrun) with ⟨_, _, heq⟩ | heq <;> cases heq
    · rcases mem_unpackCode hrest with ⟨-, ⟨_, _, _, heq⟩ | ⟨_, _, heq⟩⟩ <;> cases heq
    · cases hrest
  call_at := by
    intro k callee args ty h
    rcases getElem?_replacementCode h with ⟨-, hfirst | hfirst⟩ | ⟨j, rfl, hrun⟩ |
      ⟨-, hrest | hrest⟩
    · cases hfirst
    · rcases mem_storeCode hfirst with ⟨_, -, heq⟩ | ⟨_, -, _, heq⟩ <;> cases heq
    · rcases getElem?_runCode_call hrun with ⟨rfl, hcall⟩ |
        ⟨t, worker, hworker, rfl, hcallee, hargs⟩ | ⟨rfl, hcall⟩
      · exact .inl ⟨rfl, hcall⟩
      · refine .inr (.inl ⟨t, worker, hworker, by omega, hcallee, ?_⟩)
        have hshared : next + 1 + 2 * liveIn.length + 1 = next + 2 * liveIn.length + 2 := by omega
        rw [hargs, hshared]
      · exact .inr (.inr ⟨by omega, hcall⟩)
    · rcases mem_unpackCode hrest with ⟨-, ⟨_, _, _, heq⟩ | ⟨_, _, heq⟩⟩ <;> cases heq
    · cases hrest
  load_gt := by
    intro k addr ty h
    rcases getElem?_replacementCode h with ⟨-, hfirst | hfirst⟩ | ⟨j, rfl, hrun⟩ | ⟨hle, -⟩
    · cases hfirst
    · rcases mem_storeCode hfirst with ⟨_, -, heq⟩ | ⟨_, -, _, heq⟩ <;> cases heq
    · rcases mem_runCode (List.mem_of_getElem? hrun) with ⟨_, _, heq⟩ | heq <;> cases heq
    · omega

/-- Code that loads nothing does not go near the outputs either. -/
theorem unread_of_nil {exchange : Exchange} (hfield : exchange.outField = liveIn.length)
    {x : Op × Ty}
    (hx : x ∈ replacementCode exchange init dispatch join workers liveIn [] exit next) :
    (∀ addr, x.1 ≠ .load addr) ∧ ∀ base layout, x.1 ≠ .fieldAddr base layout exchange.outField := by
  obtain ⟨k, hk⟩ := List.getElem?_of_mem hx
  rcases getElem?_replacementCode hk with ⟨-, rfl | hfirst⟩ | ⟨j, -, hrun⟩ | ⟨-, hrest | rfl⟩
  · simp
  · rcases mem_storeCode hfirst with ⟨⟨v, n⟩, hmem, rfl⟩ | ⟨field, -, addr, rfl⟩
    · have hlt : n < liveIn.length := by
        simpa using (List.getElem?_eq_some_iff.1 (List.mem_zipIdx_iff_getElem?.1 hmem)).1
      simp [hfield, Nat.ne_of_lt hlt]
    · simp
  · rcases mem_runCode (List.mem_of_getElem? hrun) with ⟨_, _, rfl⟩ | rfl <;> simp
  · exact absurd rfl (mem_unpackCode hrest).1
  · simp

end Order

/-- The block of `d` runs `code` in the place of the loop, where `code` dispatches the loop to the
workers, and the functions that it calls are the ones that are meant. An instruction of the block
is what `code` has at its place, unless a block outside the loop listed its reference already in
`p`: then its operands are renamed with those of the other readers of live-outs. -/
structure Protocol (s : Setting) (p : Program) (func : Func) (d : Dispatch)
    (init dispatch join : FuncRef) (types : List Ty) (code : List (Op × Ty)) (q : Program) :
    Prop where
  lookup : p.func? s.func = some func
  fits : d.exchange.Fits s.live.liveIn s.live.liveOut q
  types_eq : q.valueTypes (s.live.liveOut.map .instr) = .ok types
  code_eq : code = replacementCode d.exchange init dispatch join d.workers s.live.liveIn types
    s.loop.exit p.instrs.size
  listed : q.block? d.block = some {
    name := "loop-replace", func := s.func, instrs := newRefs p.instrs.size code.length }
  written : ∀ k op ty, code[k]? = some (op, ty) →
    (∀ b ∈ func.blocks, b ∉ s.loop → ¬ p.Lists b ⟨p.instrs.size + k⟩) ∨
      (∀ i ∈ s.live.liveOut, .instr i ∉ op.operands) →
    ∃ name, q.instr? ⟨p.instrs.size + k⟩ = some { block := some d.block, op, ty, name }
  renamed : ∀ k op ty, code[k]? = some (op, ty) → ∃ name n,
    q.instr? ⟨p.instrs.size + k⟩ = some {
      block := some d.block
      op := op.mapOperands (outRenaming s d.workers p.instrs.size).rename^[n]
      ty
      name }
  ordered : OrderedCode init dispatch join d.workers s.live.liveIn p.instrs.size code
  unread : s.live.liveOut = [] → ∀ x ∈ code, (∀ addr, x.1 ≠ .load addr) ∧
    ∀ base layout, x.1 ≠ .fieldAddr base layout d.exchange.outField
  workers_eq : d.workers = newFuncs p.funcs.size s.threads
  worker : ∀ t < s.threads, q.funcNamed? (workerName s.loopId t) = some ⟨p.funcs.size + t⟩ ∧
    q.func? ⟨p.funcs.size + t⟩ = some (workerFunc s t)
  entryPoints : EntryPoints s q init dispatch join
  declared : ∀ before decl after, entryDecls s.config.runtime = before ++ decl :: after →
    (∀ func ∈ p.funcs.toList, func.name ≠ decl.name) →
    (∀ t < s.threads, workerName s.loopId t ≠ decl.name) →
    (∀ other ∈ before, other.name ≠ decl.name) →
    ∀ f, q.funcNamed? decl.name = some f → q.func? f = some decl
  funcs_eq : ∃ position, func.blocks.idxOf? s.loop.exit = some position ∧
    q.funcs.toList = (entryDecls s.config.runtime).foldl withFunc
      (p.funcs.toList.set s.func.index
          { func with blocks := func.blocks.insertIdx position d.block } ++
        (List.range s.threads).map (workerFunc s))

/-- A worker stays where it was added, whatever is declared after it. -/
theorem func?_worker_of_funcs {funcs decls : List Func} {t : Nat}
    (hfuncs : q.funcs.toList =
      decls.foldl withFunc (funcs ++ (List.range s.threads).map (workerFunc s)))
    (ht : t < s.threads) : q.func? ⟨funcs.length + t⟩ = some (workerFunc s t) := by
  obtain ⟨more, hmore⟩ := exists_foldl_withFunc _ decls
  rw [Program.func?, ← Array.getElem?_toList, hfuncs, hmore, List.append_assoc,
    List.getElem?_append_right (Nat.le_add_right ..), Nat.add_sub_cancel_left]
  simp [List.getElem?_append, ht]

/-- A name that neither a function nor a worker nor an earlier declaration has is declared, and
leads to this declaration. -/
theorem func?_declared_of_funcs {funcs before after : List Func} {decl : Func} {f : FuncRef}
    (hfuncs : q.funcs.toList = (before ++ decl :: after).foldl withFunc
      (funcs ++ (List.range s.threads).map (workerFunc s)))
    (hnone : ∀ func ∈ funcs, func.name ≠ decl.name)
    (hworker : ∀ t < s.threads, workerName s.loopId t ≠ decl.name)
    (hbefore : ∀ other ∈ before, other.name ≠ decl.name)
    (hf : q.funcNamed? decl.name = some f) : q.func? f = some decl := by
  rw [Program.func?_of_funcNamed? hf, hfuncs]
  refine find?_foldl_withFunc (fun func hmem => ?_) hbefore
  rcases List.mem_append.1 hmem with hmem | hmem
  · exact hnone func hmem
  · obtain ⟨t, ht, rfl⟩ := List.mem_map.1 hmem
    exact hworker t (List.mem_range.1 ht)

theorem renamed_iterate_eq (σ : Renaming) (n : Nat) (instr : Instr) :
    (Dispatch.renamed σ)^[n] instr =
      { instr with op := instr.op.mapOperands (σ.rename^[n]) } := by
  induction n with
  | zero => rw [Function.iterate_zero, Function.iterate_zero, Op.mapOperands_id, id]
  | succ n ih =>
      rw [Function.iterate_succ_apply', ih, Dispatch.renamed, Op.mapOperands_mapOperands,
        Function.iterate_succ']

/-- Code without a live-out among its operands is not renamed, wherever it is listed. -/
theorem renamed_of_forall_not_mem {workers : List FuncRef} {next : Nat} {instr : Instr}
    (h : ∀ i ∈ s.live.liveOut, .instr i ∉ instr.op.operands) :
    Dispatch.renamed (outRenaming s workers next) instr = instr := by
  rw [Dispatch.renamed, Op.mapOperands_eq_self]
  intro v hv
  refine rename_of_not_mem fun hmem => ?_
  obtain ⟨i, hi, rfl⟩ := List.mem_map.1 hmem
  exact h i hi hv

end Dispatch

/-- The setting of the waiting loop, in which block 4 is the block in the place of the loop and
reference 8 is its first store. -/
def Waiting.setting : Setting where
  func := ⟨0⟩
  loop := loop
  deps := ⟨[]⟩
  plan := plan
  config := config
  loopId := 0
  threads := 1
  live := ⟨[⟨2⟩], [.instr ⟨1⟩], [⟨1⟩]⟩
  dominance := ⟨⟨[], #[]⟩, ⟨[], #[]⟩⟩
  climbLimit := 5

end Decouple
