import Decouple.Program.Lookup

/-!
# Changing a program

An `Edit` is a computation that reads and changes a program and may stop with a
failure. The program survives the failure: what was changed before it stays
changed, and `Edit.apply` returns both the outcome and the program.

New entries go to the end of their table, so a reference that was good stays
good and names the same entry. The lemmas `apply_…` say, for each edit, what it
leaves behind where the entries it needs are there.
-/

namespace Decouple

/-- A computation that changes a program and may stop, leaving it as it is then. -/
abbrev Edit := ExceptT Failure (StateM Program)

/-- Runs an edit: its outcome, and the program it leaves behind. -/
def Edit.apply {α : Type} (edit : Edit α) (p : Program) : Except Failure α × Program :=
  edit.run.run p

namespace Edit

variable {α β : Type}

@[simp] theorem apply_pure (a : α) (p : Program) : (pure a : Edit α).apply p = (.ok a, p) := rfl

@[simp] theorem apply_throw (failure : Failure) (p : Program) :
    (throw failure : Edit α).apply p = (.error failure, p) := rfl

@[simp] theorem apply_get (p : Program) : (get : Edit Program).apply p = (.ok p, p) := rfl

@[simp] theorem apply_modify (change : Program → Program) (p : Program) :
    (modify change : Edit Unit).apply p = (.ok (), change p) := rfl

/-- A question about the program leaves it as it is. -/
@[simp] theorem apply_liftM (answer : Except Failure α) (p : Program) :
    (liftM answer : Edit α).apply p = (answer, p) := by
  cases answer <;> rfl

/-- The second edit starts from the program that the first one leaves behind, and
does not run if the first one stops. -/
theorem apply_bind (first : Edit α) (second : α → Edit β) (p : Program) :
    (first >>= second).apply p =
      match first.apply p with
      | (.ok a, q) => (second a).apply q
      | (.error failure, q) => (.error failure, q) := by
  simp only [Edit.apply]
  rw [ExceptT.run_bind]
  simp only [StateT.run_bind]
  change (match first.run.run p with | (outcome, q) => _) = _
  rcases h : first.run.run p with ⟨outcome, q⟩
  cases outcome <;> simp_all <;> rfl

theorem apply_bind_eq_ok_iff {first : Edit α} {second : α → Edit β} {p r : Program} {b : β} :
    (first >>= second).apply p = (.ok b, r) ↔
      ∃ a q, first.apply p = (.ok a, q) ∧ (second a).apply q = (.ok b, r) := by
  rw [apply_bind]
  constructor
  · intro h
    split at h
    · next a q hfirst => exact ⟨a, q, hfirst, h⟩
    · cases h
  · rintro ⟨a, q, hfirst, hsecond⟩
    simp only [hfirst, hsecond]

@[simp] theorem apply_map (f : α → β) (edit : Edit α) (p : Program) :
    (f <$> edit).apply p = ((edit.apply p).1.map f, (edit.apply p).2) := by
  rw [← bind_pure_comp, apply_bind]
  rcases edit.apply p with ⟨_ | a, q⟩ <;> rfl

def breakDown (fault : Fault) : Edit α := throw (.fault fault)

def reject (rejection : Rejection) : Edit α := throw (.rejected rejection)

def violated (violation : Violation) : Edit α := throw (.violated violation)

/-- The number of the next entry of a table with `size` entries. -/
def nextIndex (size : Nat) : Edit Nat :=
  if size < numberLimit then return size else breakDown (.numberTooLarge size)

theorem nextIndex_of_lt {size : Nat} (h : size < numberLimit) : nextIndex size = pure size :=
  if_pos h

def addFunc (func : Func) : Edit FuncRef := do
  let index ← nextIndex (← get).funcs.size
  modify fun p => { p with funcs := p.funcs.push func }
  return ⟨index⟩

theorem apply_addFunc (func : Func) {p : Program} (h : p.funcs.size < numberLimit) :
    (addFunc func).apply p =
      (.ok ⟨p.funcs.size⟩, { p with funcs := p.funcs.push func }) := by
  simp [addFunc, apply_bind, Except.map, nextIndex_of_lt h]

/-- Adds a function whose body is to be filled in. -/
def defineFunc (name : String) (params : List Ty) (ret : Ty) : Edit FuncRef :=
  addFunc { name, params, ret, blocks := [], external := false }

/-- Adds the declaration of a function that is defined elsewhere. -/
def declareFunc (name : String) (params : List Ty) (ret : Ty) : Edit FuncRef :=
  addFunc { name, params, ret, blocks := [], external := true }

/-- The first function of that name, which is declared if there is none. -/
def requireFunc (name : String) (params : List Ty) (ret : Ty) : Edit FuncRef := do
  match (← get).funcNamed? name with
  | some f => return f
  | none => declareFunc name params ret

def addStruct (name : String) (fields : List Ty) : Edit StructRef := do
  let index ← nextIndex (← get).structs.size
  modify fun p => { p with structs := p.structs.push { name, fields } }
  return ⟨index⟩

theorem apply_addStruct (name : String) (fields : List Ty) {p : Program}
    (h : p.structs.size < numberLimit) :
    (addStruct name fields).apply p =
      (.ok ⟨p.structs.size⟩, { p with structs := p.structs.push { name, fields } }) := by
  simp [addStruct, apply_bind, Except.map, nextIndex_of_lt h]

/-- Adds an instruction to the table without listing it in a block. -/
def addInstr (instr : Instr) : Edit InstrRef := do
  let index ← nextIndex (← get).instrs.size
  modify fun p => { p with instrs := p.instrs.push instr }
  return ⟨index⟩

theorem apply_addInstr (instr : Instr) {p : Program} (h : p.instrs.size < numberLimit) :
    (addInstr instr).apply p =
      (.ok ⟨p.instrs.size⟩, { p with instrs := p.instrs.push instr }) := by
  simp [addInstr, apply_bind, Except.map, nextIndex_of_lt h]

def setFunc (f : FuncRef) (func : Func) : Edit Unit :=
  modify fun p => { p with funcs := p.funcs.setIfInBounds f.index func }

def setBlock (b : BlockRef) (block : Block) : Edit Unit :=
  modify fun p => { p with blocks := p.blocks.setIfInBounds b.index block }

def setInstr (i : InstrRef) (instr : Instr) : Edit Unit :=
  modify fun p => { p with instrs := p.instrs.setIfInBounds i.index instr }

def changeInstr (i : InstrRef) (change : Instr → Instr) : Edit Unit := do
  setInstr i (change (← (← get).instr i))

theorem apply_changeInstr {i : InstrRef} {instr : Instr} (change : Instr → Instr) {p : Program}
    (h : p.instr? i = some instr) :
    (changeInstr i change).apply p =
      (.ok (), { p with instrs := p.instrs.setIfInBounds i.index (change instr) }) := by
  simp [changeInstr, apply_bind, Program.instr, h, setInstr]

def insertBlock (f : FuncRef) (position : Nat) (name : String) : Edit BlockRef := do
  let index ← nextIndex (← get).blocks.size
  modify fun p => { p with blocks := p.blocks.push { name, func := f, instrs := [] } }
  let func ← (← get).func f
  if position ≤ func.blocks.length then
    setFunc f { func with blocks := func.blocks.insertIdx position ⟨index⟩ }
    return ⟨index⟩
  else
    breakDown (.noPosition position func.blocks.length)

theorem apply_insertBlock {f : FuncRef} {func : Func} {position : Nat} (name : String)
    {p : Program} (hfunc : p.func? f = some func) (hposition : position ≤ func.blocks.length)
    (hsize : p.blocks.size < numberLimit) :
    (insertBlock f position name).apply p =
      (.ok ⟨p.blocks.size⟩, { p with
        blocks := p.blocks.push { name, func := f, instrs := [] }
        funcs := p.funcs.setIfInBounds f.index
          { func with blocks := func.blocks.insertIdx position ⟨p.blocks.size⟩ } }) := by
  have hkept (blocks : Array Block) : ({ p with blocks } : Program).func f = .ok func := by
    have hlookup : ({ p with blocks } : Program).func? f = some func := hfunc
    simp only [Program.func, hlookup]
  simp [insertBlock, apply_bind, Except.map, nextIndex_of_lt hsize, hkept, hposition, setFunc]

def appendBlock (f : FuncRef) (name : String) : Edit BlockRef := do
  insertBlock f (← (← get).func f).blocks.length name

theorem apply_appendBlock {f : FuncRef} {func : Func} (name : String) {p : Program}
    (hfunc : p.func? f = some func) (hsize : p.blocks.size < numberLimit) :
    (appendBlock f name).apply p =
      (.ok ⟨p.blocks.size⟩, { p with
        blocks := p.blocks.push { name, func := f, instrs := [] }
        funcs := p.funcs.setIfInBounds f.index
          { func with blocks := func.blocks ++ [⟨p.blocks.size⟩] } }) := by
  simp [appendBlock, apply_bind, Program.func, hfunc,
    apply_insertBlock name hfunc (Nat.le_refl _) hsize]

def insertInstr (b : BlockRef) (position : Nat) (op : Op) (ty : Ty)
    (name : Option String) : Edit InstrRef := do
  let i ← addInstr { block := some b, op, ty, name }
  let block ← (← get).block b
  if position ≤ block.instrs.length then
    setBlock b { block with instrs := block.instrs.insertIdx position i }
    return i
  else
    breakDown (.noPosition position block.instrs.length)

theorem apply_insertInstr {b : BlockRef} {block : Block} {position : Nat} (op : Op) (ty : Ty)
    (name : Option String) {p : Program} (hblock : p.block? b = some block)
    (hposition : position ≤ block.instrs.length) (hsize : p.instrs.size < numberLimit) :
    (insertInstr b position op ty name).apply p =
      (.ok ⟨p.instrs.size⟩, { p with
        instrs := p.instrs.push { block := some b, op, ty, name }
        blocks := p.blocks.setIfInBounds b.index
          { block with instrs := block.instrs.insertIdx position ⟨p.instrs.size⟩ } }) := by
  have hkept (instrs : Array Instr) : ({ p with instrs } : Program).block b = .ok block := by
    have hlookup : ({ p with instrs } : Program).block? b = some block := hblock
    simp only [Program.block, hlookup]
  simp [insertInstr, apply_bind, Except.map, apply_addInstr _ hsize, hkept, hposition, setBlock]

def appendInstr (b : BlockRef) (op : Op) (ty : Ty) (name : Option String) :
    Edit InstrRef := do
  insertInstr b (← (← get).block b).instrs.length op ty name

theorem apply_appendInstr {b : BlockRef} {block : Block} (op : Op) (ty : Ty)
    (name : Option String) {p : Program} (hblock : p.block? b = some block)
    (hsize : p.instrs.size < numberLimit) :
    (appendInstr b op ty name).apply p =
      (.ok ⟨p.instrs.size⟩, { p with
        instrs := p.instrs.push { block := some b, op, ty, name }
        blocks := p.blocks.setIfInBounds b.index
          { block with instrs := block.instrs ++ [⟨p.instrs.size⟩] } }) := by
  simp [appendInstr, apply_bind, Program.block, hblock,
    apply_insertInstr op ty name hblock (Nat.le_refl _) hsize]

/-- Adds an instruction right before the terminator of a block, or at its end if
it has none. -/
def insertBeforeEnd (b : BlockRef) (op : Op) (ty : Ty) (name : Option String) :
    Edit InstrRef := do
  let p ← get
  let length := (← p.block b).instrs.length
  match ← p.terminator b with
  | some _ => insertInstr b (length - 1) op ty name
  | none => insertInstr b length op ty name

end Edit

end Decouple
