import Decouple.Failure

/-!
# Plans

A plan says which thread runs which instructions. Instructions that depend on
each other in a circle cannot be separated, so the unit of planning is a strongly
connected component, *SCC* for short: a list of instructions and the thread that
runs them. SCCs are numbered in the order in which they are added.

An instruction belongs to at most one SCC and is listed there once. `addScc`
refuses an SCC that would break this, and the plan is then what it was.
-/

namespace Decouple

structure Scc where
  thread : Nat
  members : List InstrRef
deriving DecidableEq, Repr

structure Plan where
  threads : Nat
  sccs : List Scc
deriving DecidableEq, Repr

namespace Plan

def empty (threads : Nat) : Plan := ⟨threads, []⟩

def sccOf? (plan : Plan) (i : InstrRef) : Option Nat :=
  plan.sccs.findIdx? fun scc => i ∈ scc.members

def threadOf? (plan : Plan) (i : InstrRef) : Option Nat :=
  (plan.sccs.find? fun scc => i ∈ scc.members).map Scc.thread

def part (plan : Plan) (thread : Nat) : List Nat :=
  (plan.sccs.zipIdx.filter fun (scc, _) => scc.thread = thread).map Prod.snd

def membersOf (plan : Plan) (thread : Nat) : List InstrRef :=
  (plan.sccs.filter fun scc => scc.thread = thread).flatMap Scc.members

/-- Checks the members of the next SCC in order: none may belong to an SCC
already, and none may have come before. `seen` holds those that came before. -/
def checkMembers (plan : Plan) (seen : List InstrRef) :
    List InstrRef → Except Failure Unit
  | [] => return ()
  | i :: rest =>
      match plan.sccOf? i with
      | some scc => throw (.violated (.inTwoSccs i scc plan.sccs.length))
      | none =>
          if i ∈ seen then
            throw (.violated (.twiceInScc i plan.sccs.length))
          else
            plan.checkMembers (i :: seen) rest

/-- The plan with one SCC more, if its thread exists and its members are new. The
new SCC has the number `plan.sccs.length`. -/
def addScc (plan : Plan) (thread : Nat) (members : List InstrRef) : Except Failure Plan := do
  unless thread < plan.threads do
    throw (.violated (.sccThreadMissing thread plan.threads))
  unless plan.sccs.length < numberLimit do
    throw (.violated .tooManySccs)
  plan.checkMembers [] members
  return { plan with sccs := plan.sccs ++ [{ thread, members }] }

end Plan

end Decouple
