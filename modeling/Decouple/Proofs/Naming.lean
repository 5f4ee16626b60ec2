import Decouple.Proofs.Collapse
import Decouple.Proofs.EarlyStops
import Decouple.Proofs.Registering
import Mathlib.Data.List.Flatten
import Mathlib.Data.List.Nodup
import Mathlib.Logic.Function.Basic

/-!
# Names of different loops and threads

Several splitters may work on one program, one request after the other, and each request may be
answered or fail (`Session`). Along such a session function names stay pairwise distinct: a worker
is only added under a name that no function has, and a function of the runtime only declared if
there is none of its name.

Structure types are added without such a look. Their names differ because a splitter gives no
number twice, also when the split that a number was given to fails halfway, and because the number
can be read off a name again. The same holds for the workers, so a splitter never gets in its own
way. `Session.names_stay_distinct` is the sum of it.
-/

namespace Decouple

theorem toString_nat_inj {m n : Nat} : toString m = toString n ↔ m = n := by
  refine ⟨fun h => ?_, congrArg toString⟩
  have hdigits : Nat.toDigits 10 m = Nat.toDigits 10 n := by
    simpa using congrArg String.toList h
  simpa using congrArg (fun digits => Nat.ofDigitChars 10 digits 0) hdigits

/-- What stands before the first underscore is the number. -/
theorem toString_nat_append_inj {m n : Nat} {s t : String} :
    toString m ++ "_" ++ s = toString n ++ "_" ++ t ↔ m = n ∧ s = t := by
  constructor
  · intro h
    have hdigits (k : Nat) (r : String) :
        (toString k ++ "_" ++ r).toList.takeWhile (· ≠ '_') = (toString k).toList := by
      have hno : ∀ c ∈ Nat.toDigits 10 k, decide (c ≠ '_') = true := by
        intro c hc
        exact decide_eq_true fun heq => Nat.underscore_not_in_toDigits (heq ▸ hc)
      simp only [Nat.toString_eq_repr, String.toList_append, Nat.toList_repr, List.append_assoc]
      rw [List.takeWhile_append_of_pos hno]
      simp
    have hmn : toString m = toString n := by
      have heq := congrArg (fun text => text.toList.takeWhile (· ≠ '_')) h
      simp only [hdigits] at heq
      exact String.toList_inj.1 heq
    rw [toString_nat_inj] at hmn
    subst hmn
    exact ⟨rfl, (String.append_right_inj _).1 h⟩
  · rintro ⟨rfl, rfl⟩
    rfl

theorem Dispatch.workerName_inj {m n t u : Nat} :
    workerName m t = workerName n u ↔ m = n ∧ t = u := by
  have hsplit (k v : Nat) :
      workerName k v = toString k ++ "_" ++ ("subloop_" ++ toString v) := by
    simp only [workerName, String.append_assoc]
    exact congrArg (toString k ++ ·) (@String.append_assoc "_" "subloop_" (toString v))
  rw [hsplit, hsplit, toString_nat_append_inj, String.append_right_inj, toString_nat_inj]

namespace Exchange

/-- The two structure types of a loop differ by their first letter. -/
theorem outName_ne_argName (m n : Nat) :
    "outstruct_" ++ toString m ++ "_ty" ≠ "argstruct_" ++ toString n ++ "_ty" := by
  intro h
  have hhead := congrArg (fun text => text.toList.head?) h
  simp at hhead

theorem nodup_names (n : Nat) : (names n).Nodup := by
  simp [names]

theorem eq_of_mem_names {m n : Nat} {name : String} (hm : name ∈ names m)
    (hn : name ∈ names n) : m = n := by
  simp only [names, List.mem_cons, List.not_mem_nil, or_false] at hm hn
  rcases hm with rfl | rfl <;> rcases hn with h | h
  · rwa [String.append_left_inj, String.append_right_inj, toString_nat_inj] at h
  · exact absurd h (outName_ne_argName m n)
  · exact absurd h.symm (outName_ne_argName n m)
  · rwa [String.append_left_inj, String.append_right_inj, toString_nat_inj] at h

end Exchange

structure Request where
  splitter : Nat
  func : FuncRef
  loop : Loop
  deps : Dependences
  plan : Plan

structure Session where
  splitters : Nat → Splitter
  program : Program

structure Call where
  request : Request
  before : Session
  outcome : Except Failure Split
  after : Session

/-- One request. Only the splitter that it goes to may give a number. -/
def Session.call (s : Session) (r : Request) : Call :=
  match (s.splitters r.splitter).split s.program r.func r.loop r.deps r.plan with
  | (outcome, splitter, program) =>
      { request := r
        before := s
        outcome
        after := { splitters := Function.update s.splitters r.splitter splitter, program } }

def Session.calls : Session → List Request → List Call
  | _, [] => []
  | s, r :: rest => s.call r :: (s.call r).after.calls rest

def Session.run : Session → List Request → Session
  | s, [] => s
  | s, r :: rest => (s.call r).after.run rest

namespace Call

def splitter (call : Call) : Splitter := call.before.splitters call.request.splitter

/-- The number that the loop got, if the call came that far. -/
def number? (call : Call) : Option Nat :=
  if call.splitter.numbered < (call.after.splitters call.request.splitter).numbered then
    some call.splitter.numbered
  else
    none

def workerNames (call : Call) : List String :=
  call.number?.toList.flatMap fun n =>
    (List.range call.splitter.config.threads).map (Dispatch.workerName n)

def layoutNames (call : Call) : List String := call.number?.toList.flatMap Exchange.names

def newBodies (call : Call) : List String :=
  call.after.program.bodyNames.drop call.before.program.bodyNames.length

def newLayouts (call : Call) : List String :=
  call.after.program.layoutNames.drop call.before.program.layoutNames.length

/-- What the call adds goes by its names, in their order, and all of them are used if it
succeeds. -/
structure Follows (call : Call) : Prop where
  bodies : call.after.program.bodyNames = call.before.program.bodyNames ++ call.newBodies
  layouts : call.after.program.layoutNames = call.before.program.layoutNames ++ call.newLayouts
  bodies_le : call.newBodies <+: call.workerNames
  layouts_le : call.newLayouts <+: call.layoutNames
  of_ok : ∀ split, call.outcome = .ok split →
    call.newBodies = call.workerNames ∧ call.newLayouts = call.layoutNames ∧
    List.Forall₂ call.after.program.Named split.workerFuncs call.workerNames

/-- What a call added is what the program gained. -/
theorem Follows.of_gains {call : Call} {bodies layouts : List String}
    (h : call.before.program.Gains bodies layouts call.after.program)
    (hbodies : bodies <+: call.workerNames) (hlayouts : layouts <+: call.layoutNames)
    (hok : ∀ split, call.outcome = .ok split →
      bodies = call.workerNames ∧ layouts = call.layoutNames ∧
      List.Forall₂ call.after.program.Named split.workerFuncs call.workerNames) :
    call.Follows := by
  have hnew : call.newBodies = bodies := by rw [newBodies, h.bodies, List.drop_left]
  have hnew' : call.newLayouts = layouts := by rw [newLayouts, h.layouts, List.drop_left]
  constructor
  case bodies => rw [hnew, h.bodies]
  case layouts => rw [hnew', h.layouts]
  case bodies_le => rwa [hnew]
  case layouts_le => rwa [hnew']
  case of_ok => rwa [hnew, hnew']

theorem mem_number?_iff {call : Call} {n : Nat} : n ∈ call.number? ↔
    n = call.splitter.numbered ∧
      n < (call.after.splitters call.request.splitter).numbered := by
  unfold number?
  split
  · next hlt =>
      rw [Option.mem_some_iff]
      refine ⟨?_, fun h => h.1.symm⟩
      rintro rfl
      exact ⟨rfl, hlt⟩
  · next hle =>
      refine ⟨nofun, ?_⟩
      rintro ⟨rfl, hlt⟩
      exact absurd hlt hle

end Call

open Edit Edit.Registers

namespace Splitter

variable {splitter splitter' : Splitter} {p q : Program} {f : FuncRef} {loop : Loop}
  {deps : Dependences} {plan : Plan} {outcome : Except Failure Split}

theorem loopId_of_setting {config : Config} {loopId : Nat} {s : Setting}
    (h : setting config loopId p f loop deps plan = .ok s) : s.loopId = loopId := by
  obtain ⟨live, -, h⟩ := Outcome.bind_eq_ok_iff.1 h
  obtain ⟨⟨⟩, -, h⟩ := Outcome.bind_eq_ok_iff.1 h
  obtain ⟨dominance, -, h⟩ := Outcome.bind_eq_ok_iff.1 h
  obtain ⟨func, -, h⟩ := Outcome.bind_eq_ok_iff.1 h
  obtain rfl := Outcome.pure_eq_ok_iff.1 h
  rfl

/-- The names of a split are made from the number and the threads of its splitter. -/
theorem names_of_setting {config : Config} {loopId : Nat} {s : Setting}
    (h : setting config loopId p f loop deps plan = .ok s) :
    (List.range s.threads).map (Dispatch.workerName s.loopId) =
      (List.range config.threads).map (Dispatch.workerName loopId) := by
  obtain ⟨-, -, -, -, hthreads, -⟩ := setting_eq_ok h
  rw [hthreads, loopId_of_setting h]

/-- The names are taken from the number on, whether the split succeeds or not. -/
theorem registers_numbered (splitter : Splitter) :
    Registers ((List.range splitter.config.threads).map (Dispatch.workerName splitter.numbered))
      (Exchange.names splitter.numbered)
      ((liftM (setting splitter.config splitter.numbered p f loop deps plan) : Edit Setting) >>=
        splitIn) p := by
  refine answer_bind fun s hsetting => ?_
  have hnames := @registers_splitIn p s
  rwa [names_of_setting hsetting, loopId_of_setting hsetting] at hnames

theorem named_of_numbered {split : Split}
    (h : ((liftM (setting splitter.config splitter.numbered p f loop deps plan) : Edit Setting) >>=
      splitIn).apply p = (.ok split, q)) :
    List.Forall₂ q.Named split.workerFuncs
      ((List.range splitter.config.threads).map (Dispatch.workerName splitter.numbered)) := by
  obtain ⟨s, _, hlookup, h⟩ := apply_bind_eq_ok_iff.1 h
  obtain ⟨hsetting, rfl⟩ := liftM_eq_ok_iff.1 hlookup
  rw [← names_of_setting hsetting]
  exact named_of_splitIn h

end Splitter

namespace Session

variable {s : Session} {r : Request} {requests : List Request}

theorem call_eq {outcome : Except Failure Split} {splitter : Splitter} {q : Program}
    (h : (s.splitters r.splitter).split s.program r.func r.loop r.deps r.plan =
      (outcome, splitter, q)) :
    s.call r = ⟨r, s, outcome, ⟨Function.update s.splitters r.splitter splitter, q⟩⟩ := by
  simp only [call, h]

/-- One call: nothing happens, or the splitter takes a number and what is added goes by it. -/
theorem call_spec (s : Session) (r : Request) :
    (s.call r).Follows ∧
      (s.program.funcNames.Nodup → (s.call r).after.program.funcNames.Nodup) ∧
      ∀ k, (s.splitters k).numbered ≤ ((s.call r).after.splitters k).numbered := by
  rcases h : (s.splitters r.splitter).split s.program r.func r.loop r.deps r.plan with
    ⟨outcome, splitter, q⟩
  rw [call_eq h]
  have hstill (failure : Failure) : (⟨r, s, .error failure, s⟩ : Call).Follows :=
    .of_gains (.of_eq rfl rfl) List.nil_prefix List.nil_prefix nofun
  rcases Splitter.split_cases h with
    ⟨failure, -, rfl, rfl, rfl⟩ | ⟨-, ⟨-, rfl, rfl, rfl⟩ | ⟨rfl, hrun⟩⟩
  · rw [Function.update_eq_self]
    exact ⟨hstill failure, id, fun _ => Nat.le_refl _⟩
  · rw [Function.update_eq_self]
    exact ⟨hstill _, id, fun _ => Nat.le_refl _⟩
  · obtain ⟨bodies, layouts, hgains, hbodies, hlayouts, hall⟩ :=
      Splitter.registers_numbered _ _ _ hrun
    refine ⟨?_, hgains.distinct, fun k => ?_⟩
    · refine .of_gains hgains ?_ ?_ ?_
      · simpa [Call.workerNames, Call.number?, Call.splitter] using hbodies
      · simpa [Call.layoutNames, Call.number?, Call.splitter] using hlayouts
      · rintro split rfl
        obtain ⟨rfl, rfl⟩ := hall rfl
        have hnamed := Splitter.named_of_numbered hrun
        refine ⟨?_, ?_, ?_⟩
        · simp [Call.workerNames, Call.number?, Call.splitter]
        · simp [Call.layoutNames, Call.number?, Call.splitter]
        · simpa [Call.workerNames, Call.number?, Call.splitter] using hnamed
    · by_cases hk : k = r.splitter
      · subst hk
        simp
      · simp [hk]

theorem nodup_run (h : s.program.funcNames.Nodup) :
    (s.run requests).program.funcNames.Nodup := by
  induction requests generalizing s with
  | nil => exact h
  | cons r requests ih => exact ih ((s.call_spec r).2.1 h)

theorem follows_of_mem_calls {call : Call} (h : call ∈ s.calls requests) : call.Follows := by
  induction requests generalizing s with
  | nil => cases h
  | cons r requests ih =>
      rcases List.mem_cons.1 h with rfl | h
      · exact (s.call_spec r).1
      · exact ih h

/-- A splitter counts on from where it is. -/
theorem numbered_le_of_mem_calls {call : Call} (h : call ∈ s.calls requests) :
    (s.splitters call.request.splitter).numbered ≤ call.splitter.numbered := by
  induction requests generalizing s with
  | nil => cases h
  | cons r requests ih =>
      rcases List.mem_cons.1 h with rfl | h
      · exact Nat.le_refl _
      · exact Nat.le_trans ((s.call_spec r).2.2 _) (ih h)

/-- The numbers that a splitter gives grow from call to call. -/
theorem pairwise_number? (s : Session) (requests : List Request) :
    (s.calls requests).Pairwise fun call call' =>
      call.request.splitter = call'.request.splitter →
        ∀ n ∈ call.number?, ∀ n' ∈ call'.number?, n < n' := by
  induction requests generalizing s with
  | nil => exact .nil
  | cons r requests ih =>
      refine .cons ?_ (ih _)
      intro call hcall heq n hn n' hn'
      obtain ⟨-, hlt⟩ := Call.mem_number?_iff.1 hn
      obtain ⟨rfl, -⟩ := Call.mem_number?_iff.1 hn'
      rw [heq] at hlt
      exact Nat.lt_of_lt_of_le hlt (numbered_le_of_mem_calls hcall)

def callsOf (s : Session) (k : Nat) (requests : List Request) : List Call :=
  (s.calls requests).filter fun call => call.request.splitter = k

/-- Names that are made from numbers, so that different numbers have different names, are
different for all calls of a splitter. -/
theorem nodup_flatMap_callsOf {k : Nat} {names : Call → Nat → List String}
    (hnodup : ∀ call n, (names call n).Nodup)
    (hinj : ∀ call call' m n name, name ∈ names call m → name ∈ names call' n → m = n) :
    ((s.callsOf k requests).flatMap fun call =>
      call.number?.toList.flatMap (names call)).Nodup := by
  refine List.nodup_flatMap.2 ⟨fun call _ => ?_, ?_⟩
  · cases call.number? with
    | none => simp
    | some n => simpa using hnodup call n
  · have hgrow := List.Pairwise.and_mem.1 ((s.pairwise_number? requests).filter
      fun call => call.request.splitter = k)
    refine hgrow.imp ?_
    rintro call call' ⟨hcall, hcall', hlt⟩ name hname hname'
    obtain ⟨n, hn, hname⟩ := List.mem_flatMap.1 hname
    obtain ⟨n', hn', hname'⟩ := List.mem_flatMap.1 hname'
    have hsame : call.request.splitter = call'.request.splitter := by
      have hk := of_decide_eq_true (List.mem_filter.1 hcall).2
      have hk' := of_decide_eq_true (List.mem_filter.1 hcall').2
      rw [hk, hk']
    have hne := hlt hsame n (Option.mem_toList.1 hn) n' (Option.mem_toList.1 hn')
    exact absurd (hinj _ _ _ _ _ hname hname') (Nat.ne_of_lt hne)

/-- Let several splitters work on a program whose functions have pairwise distinct names, with any
requests in any order, whether they are answered or fail. Function names stay pairwise distinct, so
each of them leads to its function. The names that a splitter has for the workers of all its loops
are pairwise distinct, and so are those of the structure types that it adds; what a call adds goes
by the names of its loop. -/
theorem names_stay_distinct (s : Session) (hdistinct : s.program.funcNames.Nodup)
    (requests : List Request) :
    (s.run requests).program.funcNames.Nodup ∧
      (∀ f func, (s.run requests).program.func? f = some func →
        (s.run requests).program.funcNamed? func.name = some f) ∧
      ∀ k, ((s.callsOf k requests).flatMap Call.workerNames).Nodup ∧
        ((s.callsOf k requests).flatMap Call.newLayouts).Nodup ∧
        ∀ call ∈ s.callsOf k requests, call.Follows := by
  have hrun := @nodup_run s requests hdistinct
  have hfollows (k : Nat) : ∀ call ∈ s.callsOf k requests, call.Follows :=
    fun call hcall => follows_of_mem_calls (List.mem_of_mem_filter hcall)
  refine ⟨hrun, fun f func hf => Program.funcNamed?_of_nodup hrun hf, fun k => ⟨?_, ?_, hfollows k⟩⟩
  · refine nodup_flatMap_callsOf (fun call n => ?_) fun call call' m n name hm hn => ?_
    · exact List.nodup_range.map fun t u h => (Dispatch.workerName_inj.1 h).2
    · obtain ⟨t, -, rfl⟩ := List.mem_map.1 hm
      obtain ⟨u, -, heq⟩ := List.mem_map.1 hn
      exact (Dispatch.workerName_inj.1 heq).1.symm
  · have hnames : ((s.callsOf k requests).flatMap Call.layoutNames).Nodup :=
      nodup_flatMap_callsOf (fun _ n => Exchange.nodup_names n)
        fun _ _ _ _ _ hm hn => Exchange.eq_of_mem_names hm hn
    exact hnames.sublist (List.Sublist.flatMap_right _ fun call hcall =>
      (hfollows k call hcall).layouts_le.sublist)

end Session

namespace Counting

def request (splitter : Nat) (plan : Plan) : Request :=
  { splitter, func := setting.func, loop, deps := setting.deps, plan }

/-- The first request has nothing to do for the second thread and fails when the first worker is
written. The last one goes to another splitter, which has the name of that worker for its own. -/
def requests : List Request :=
  [request 0 ⟨2, [⟨0, [⟨1⟩, ⟨2⟩, ⟨4⟩, ⟨6⟩]⟩]⟩, request 0 setting.plan, request 1 setting.plan]

def session : Session := ⟨fun _ => Splitter.ofConfig Config.standard, program⟩

end Counting

theorem Session.names_stay_distinct_counting :
    Counting.session.program.funcNames.Nodup ∧
      (Counting.session.calls Counting.requests).map (fun call =>
        (call.outcome.isOk, call.newBodies)) =
          [(false, ["0_subloop_0", "0_subloop_1"]), (true, ["1_subloop_0", "1_subloop_1"]),
            (false, [])] ∧
      (Counting.session.run Counting.requests).program.funcNames.Nodup ∧
      (((Counting.session.callsOf 0 Counting.requests).flatMap Call.workerNames).Nodup ∧
        ((Counting.session.callsOf 0 Counting.requests).flatMap Call.newLayouts).Nodup ∧
        ∀ call ∈ Counting.session.callsOf 0 Counting.requests, call.Follows) := by
  have hdistinct : Counting.session.program.funcNames.Nodup := by decide
  obtain ⟨hrun, -, hnames⟩ := names_stay_distinct Counting.session hdistinct Counting.requests
  exact ⟨hdistinct, by decide +kernel, hrun, hnames 0⟩

end Decouple
