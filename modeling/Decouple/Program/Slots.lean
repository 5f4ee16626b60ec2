import Decouple.Program.Basic

/-!
# Slots of an operation

The places where an operation mentions a value (*operand slots*), a block that
control may go to (*successor slots*) and a block that control came from
(*incoming slots* of a φ). Each family has a reader, which lists the slots in
order, and writers, which change them in that same order and touch nothing else.

The order is the one of the written form: callee before arguments, the stored
value before the address, the cases of a switch before its default.

A writer acts on its family as `List.map` does on the reader's list and leaves
the other two families alone; the lemmas at the end say so family by family.
-/

namespace Decouple

namespace Op

def isTerminator : Op → Bool
  | .br _ => true
  | .condBr _ _ _ => true
  | .switch _ _ _ => true
  | .ret _ => true
  | .unreachable => true
  | _ => false

def operands : Op → List Value
  | .binary _ lhs rhs => [lhs, rhs]
  | .compare _ lhs rhs => [lhs, rhs]
  | .phi incoming => incoming.map Prod.fst
  | .alloca _ => []
  | .load ptr => [ptr]
  | .store value ptr => [value, ptr]
  | .fieldAddr base _ _ => [base]
  | .cast value => [value]
  | .call callee args => callee :: args
  | .br _ => []
  | .condBr cond _ _ => [cond]
  | .switch value _ _ => [value]
  | .ret value => value.toList
  | .unreachable => []

def mapOperands (f : Value → Value) : Op → Op
  | .binary op lhs rhs => .binary op (f lhs) (f rhs)
  | .compare cmp lhs rhs => .compare cmp (f lhs) (f rhs)
  | .phi incoming => .phi (incoming.map fun (value, pred) => (f value, pred))
  | .alloca ty => .alloca ty
  | .load ptr => .load (f ptr)
  | .store value ptr => .store (f value) (f ptr)
  | .fieldAddr base layout field => .fieldAddr (f base) layout field
  | .cast value => .cast (f value)
  | .call callee args => .call (f callee) (args.map f)
  | .br target => .br target
  | .condBr cond onTrue onFalse => .condBr (f cond) onTrue onFalse
  | .switch value cases otherwise => .switch (f value) cases otherwise
  | .ret value => .ret (value.map f)
  | .unreachable => .unreachable

/-- The blocks an operation may pass control to, with repetitions. -/
def successors : Op → List BlockRef
  | .br target => [target]
  | .condBr _ onTrue onFalse => [onTrue, onFalse]
  | .switch _ cases otherwise => cases.map Prod.snd ++ [otherwise]
  | _ => []

def mapSuccessors (f : BlockRef → BlockRef) : Op → Op
  | .br target => .br (f target)
  | .condBr cond onTrue onFalse => .condBr cond (f onTrue) (f onFalse)
  | .switch value cases otherwise =>
      .switch value (cases.map fun (n, target) => (n, f target)) (f otherwise)
  | op => op

def traverseSuccessors {m : Type → Type} [Monad m] (f : BlockRef → m BlockRef) : Op → m Op
  | .br target => return .br (← f target)
  | .condBr cond onTrue onFalse => return .condBr cond (← f onTrue) (← f onFalse)
  | .switch value cases otherwise => do
      let cases ← cases.mapM fun (n, target) => return (n, ← f target)
      return .switch value cases (← f otherwise)
  | op => return op

/-- Visits the successor slots in order and changes them with `f` until `f`
refuses one. The refused slot and those after it keep their block, and the first
refusal is returned beside the operation. -/
def changeSuccessors {ε : Type} (f : BlockRef → Except ε BlockRef) (op : Op) : Op × Option ε :=
  (op.traverseSuccessors visit).run none
where
  visit (target : BlockRef) : StateM (Option ε) BlockRef := do
    if (← get).isSome then
      return target
    match f target with
    | .ok changed => return changed
    | .error refusal =>
        set (some refusal)
        return target

/-- The pairs of a φ, and nothing for any other operation. -/
def incoming : Op → List (Value × BlockRef)
  | .phi incoming => incoming
  | _ => []

def mapIncoming (f : BlockRef → BlockRef) : Op → Op
  | .phi incoming => .phi (incoming.map fun (value, pred) => (value, f pred))
  | op => op

def traverseIncoming {m : Type → Type} [Monad m] (f : BlockRef → m BlockRef) : Op → m Op
  | .phi incoming => do
      let incoming ← incoming.mapM fun (value, pred) => return (value, ← f pred)
      return .phi incoming
  | op => return op

@[simp] theorem operands_mapOperands (f : Value → Value) (op : Op) :
    (op.mapOperands f).operands = op.operands.map f := by
  cases op with
  | phi incoming => simp [mapOperands, operands, Function.comp_def]
  | ret value => cases value <;> rfl
  | _ => rfl

@[simp] theorem successors_mapOperands (f : Value → Value) (op : Op) :
    (op.mapOperands f).successors = op.successors := by
  cases op <;> rfl

@[simp] theorem isTerminator_mapOperands (f : Value → Value) (op : Op) :
    (op.mapOperands f).isTerminator = op.isTerminator := by
  cases op <;> rfl

@[simp] theorem preds_mapOperands (f : Value → Value) (op : Op) :
    (op.mapOperands f).incoming.map Prod.snd = op.incoming.map Prod.snd := by
  cases op with
  | phi incoming => simp [mapOperands, Op.incoming, Function.comp_def]
  | _ => rfl

theorem mapOperands_id (op : Op) : op.mapOperands id = op := by
  cases op with
  | phi incoming => simp [mapOperands]
  | call callee args => simp [mapOperands]
  | ret value => simp [mapOperands]
  | _ => rfl

theorem mapOperands_mapOperands (f g : Value → Value) (op : Op) :
    (op.mapOperands f).mapOperands g = op.mapOperands (g ∘ f) := by
  cases op with
  | phi incoming => simp [mapOperands, Function.comp_def]
  | call callee args => simp [mapOperands]
  | ret value => simp [mapOperands]
  | _ => rfl

@[simp] theorem successors_mapSuccessors (f : BlockRef → BlockRef) (op : Op) :
    (op.mapSuccessors f).successors = op.successors.map f := by
  cases op with
  | switch value cases otherwise => simp [mapSuccessors, successors, Function.comp_def]
  | _ => rfl

@[simp] theorem operands_mapSuccessors (f : BlockRef → BlockRef) (op : Op) :
    (op.mapSuccessors f).operands = op.operands := by
  cases op <;> rfl

@[simp] theorem incoming_mapSuccessors (f : BlockRef → BlockRef) (op : Op) :
    (op.mapSuccessors f).incoming = op.incoming := by
  cases op <;> rfl

@[simp] theorem isTerminator_mapSuccessors (f : BlockRef → BlockRef) (op : Op) :
    (op.mapSuccessors f).isTerminator = op.isTerminator := by
  cases op <;> rfl

theorem mapSuccessors_id (op : Op) : op.mapSuccessors id = op := by
  cases op with
  | switch value cases otherwise => simp [mapSuccessors]
  | _ => rfl

theorem mapSuccessors_mapSuccessors (f g : BlockRef → BlockRef) (op : Op) :
    (op.mapSuccessors f).mapSuccessors g = op.mapSuccessors (g ∘ f) := by
  cases op with
  | switch value cases otherwise => simp [mapSuccessors, Function.comp_def]
  | _ => rfl

theorem mapSuccessors_mapOperands (f : Value → Value) (g : BlockRef → BlockRef) (op : Op) :
    (op.mapOperands f).mapSuccessors g = (op.mapSuccessors g).mapOperands f := by
  cases op <;> rfl

@[simp] theorem incoming_mapIncoming (f : BlockRef → BlockRef) (op : Op) :
    (op.mapIncoming f).incoming = op.incoming.map fun (value, pred) => (value, f pred) := by
  cases op <;> rfl

@[simp] theorem operands_mapIncoming (f : BlockRef → BlockRef) (op : Op) :
    (op.mapIncoming f).operands = op.operands := by
  cases op with
  | phi incoming => simp [mapIncoming, operands, Function.comp_def]
  | _ => rfl

@[simp] theorem successors_mapIncoming (f : BlockRef → BlockRef) (op : Op) :
    (op.mapIncoming f).successors = op.successors := by
  cases op <;> rfl

end Op

end Decouple
