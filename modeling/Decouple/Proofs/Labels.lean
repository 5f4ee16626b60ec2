import Decouple.Proofs.Registering

/-!
# The names of the blocks and instructions of a worker

Edits never rename anything, and what they add goes to the end of its table. So the names of the
instructions that an edit adds are a list that is appended to the names before it
(`Program.AddsLabels`), and each step of writing a worker has such a list: the copies are named
after what they are copies of and the thread, the loads and the stores after the values that they
pass. A name that was read on the way can be read in the end.
-/

namespace Decouple

open Outcome

namespace Program

def labels (p : Program) : List (Option String) := p.instrs.toList.map Instr.name

def titles (p : Program) : List (String × FuncRef) :=
  p.blocks.toList.map fun block => (block.name, block.func)

section Views

variable {p : Program}

theorem getElem?_labels (i : InstrRef) :
    p.labels[i.index]? = (p.instr? i).map Instr.name := by
  simp [labels, instr?]

theorem getElem?_titles (b : BlockRef) :
    p.titles[b.index]? = (p.block? b).map fun block => (block.name, block.func) := by
  simp [titles, block?]

theorem getElem?_funcNames (f : FuncRef) : p.funcNames[f.index]? = (p.func? f).map Func.name := by
  simp [funcNames, func?]

theorem label_of_instr? {i : InstrRef} {instr : Instr} (h : p.instr? i = some instr) :
    p.labels[i.index]? = some instr.name := by
  rw [getElem?_labels, h]
  rfl

theorem title_of_block? {b : BlockRef} {block : Block} (h : p.block? b = some block) :
    p.titles[b.index]? = some (block.name, block.func) := by
  rw [getElem?_titles, h]
  rfl

/-- A block that is known by its title and by what it lists. -/
theorem block?_of_title {b : BlockRef} {name : String} {func : FuncRef} {block : Block}
    (htitle : p.titles[b.index]? = some (name, func)) (hblock : p.block? b = some block) :
    p.block? b = some { name, func, instrs := block.instrs } := by
  rw [title_of_block? hblock] at htitle
  obtain ⟨rfl, rfl⟩ := Prod.mk.inj (Option.some.inj htitle)
  exact hblock

end Views

/-- Instructions of the names `labels` were added to `p` to get `q`, and nothing was renamed. -/
structure AddsLabels (p : Program) (labels : List (Option String)) (q : Program) : Prop where
  labels_eq : q.labels = p.labels ++ labels
  titles : p.titles <+: q.titles
  funcNames : p.funcNames <+: q.funcNames

namespace AddsLabels

variable {p q r : Program} {labels more : List (Option String)}

/-- Where the names stay the same, nothing was added. -/
theorem of_eq (hlabels : q.labels = p.labels) (htitles : q.titles = p.titles)
    (hfuncNames : q.funcNames = p.funcNames) : p.AddsLabels [] q where
  labels_eq := by rw [hlabels, List.append_nil]
  titles := htitles ▸ List.prefix_rfl
  funcNames := hfuncNames ▸ List.prefix_rfl

theorem refl (p : Program) : p.AddsLabels [] p := of_eq rfl rfl rfl

theorem trans (h : p.AddsLabels labels q) (h' : q.AddsLabels more r) :
    p.AddsLabels (labels ++ more) r where
  labels_eq := by rw [h'.labels_eq, h.labels_eq, List.append_assoc]
  titles := h.titles.trans h'.titles
  funcNames := h.funcNames.trans h'.funcNames

theorem label_kept (h : p.AddsLabels labels q) {k : Nat} {label : Option String}
    (hk : p.labels[k]? = some label) : q.labels[k]? = some label := by
  rw [h.labels_eq, List.getElem?_append_left (List.getElem?_eq_some_iff.1 hk).1, hk]

theorem label_new (h : p.AddsLabels labels q) (k : Nat) :
    q.labels[p.instrs.size + k]? = labels[k]? := by
  have hsize : p.labels.length = p.instrs.size := by simp [Program.labels]
  rw [h.labels_eq, ← hsize, List.getElem?_append_right (Nat.le_add_right _ _),
    Nat.add_sub_cancel_left]

theorem title_kept (h : p.AddsLabels labels q) {k : Nat} {title : String × FuncRef}
    (hk : p.titles[k]? = some title) : q.titles[k]? = some title := by
  obtain ⟨new, hnew⟩ := h.titles
  rw [← hnew, List.getElem?_append_left (List.getElem?_eq_some_iff.1 hk).1, hk]

theorem funcName_kept (h : p.AddsLabels labels q) {k : Nat} {name : String}
    (hk : p.funcNames[k]? = some name) : q.funcNames[k]? = some name := by
  obtain ⟨new, hnew⟩ := h.funcNames
  rw [← hnew, List.getElem?_append_left (List.getElem?_eq_some_iff.1 hk).1, hk]

/-- A value has the same name ever after. -/
theorem valueName_eq_ok (h : p.AddsLabels labels q) {v : Value} {name : String}
    (hv : p.valueName v = .ok name) : q.valueName v = .ok name := by
  cases v with
  | instr i =>
      obtain ⟨instr, hinstr, hname⟩ := bind_eq_ok_iff.1 hv
      have hlabel := h.label_kept (label_of_instr? (instr_eq_ok_iff.1 hinstr))
      rw [getElem?_labels] at hlabel
      obtain ⟨instr', hinstr', hsame⟩ := Option.map_eq_some_iff.1 hlabel
      refine bind_eq_ok_iff.2 ⟨instr', instr_eq_ok_iff.2 hinstr', ?_⟩
      rw [hsame]
      exact hname
  | func f =>
      obtain ⟨func, hfunc, hname⟩ := bind_eq_ok_iff.1 hv
      have hlookup : p.funcNames[f.index]? = some func.name := by
        rw [getElem?_funcNames, func_eq_ok_iff.1 hfunc]
        rfl
      have hkept := h.funcName_kept hlookup
      rw [getElem?_funcNames] at hkept
      obtain ⟨func', hfunc', hsame⟩ := Option.map_eq_some_iff.1 hkept
      refine bind_eq_ok_iff.2 ⟨func', func_eq_ok_iff.2 hfunc', ?_⟩
      rw [hsame]
      exact hname
  | _ => exact hv

theorem valueNames_eq_ok (h : p.AddsLabels labels q) {values : List Value} {names : List String}
    (hvalues : values.mapM p.valueName = .ok names) : values.mapM q.valueName = .ok names :=
  mapM_eq_ok_iff.2 ((mapM_eq_ok_iff.1 hvalues).imp fun _ _ hv => h.valueName_eq_ok hv)

theorem of_insertInstr {b : BlockRef} {position : Nat} {op : Op} {ty : Ty} {name : Option String}
    {i : InstrRef} (h : (Edit.insertInstr b position op ty name).apply p = (.ok i, q)) :
    p.AddsLabels [name] q := by
  obtain ⟨block, hblock, -, rfl, rfl⟩ := Edit.insertInstr_eq_ok h
  -- a block that lists more is called the same
  have htitles := map_setIfInBounds_eq (fun block => (block.name, block.func))
    { block with instrs := block.instrs.insertIdx position ⟨p.instrs.size⟩ } hblock rfl
  exact ⟨by simp [Program.labels], ⟨[], (List.append_nil _).trans htitles.symm⟩, List.prefix_rfl⟩

theorem of_appendInstr {b : BlockRef} {op : Op} {ty : Ty} {name : Option String} {i : InstrRef}
    (h : (Edit.appendInstr b op ty name).apply p = (.ok i, q)) : p.AddsLabels [name] q := by
  unfold Edit.appendInstr at h
  rw [Edit.get_bind_eq_ok_iff, Edit.apply_bind_eq_ok_iff] at h
  obtain ⟨block, p', hlookup, h⟩ := h
  obtain ⟨-, rfl⟩ := Edit.liftM_eq_ok_iff.1 hlookup
  exact of_insertInstr h

theorem of_insertBeforeEnd {b : BlockRef} {op : Op} {ty : Ty} {name : Option String} {i : InstrRef}
    (h : (Edit.insertBeforeEnd b op ty name).apply p = (.ok i, q)) : p.AddsLabels [name] q := by
  unfold Edit.insertBeforeEnd at h
  rw [Edit.get_bind_eq_ok_iff, Edit.apply_bind_eq_ok_iff] at h
  obtain ⟨block, p', hlookup, h⟩ := h
  obtain ⟨-, rfl⟩ := Edit.liftM_eq_ok_iff.1 hlookup
  obtain ⟨last?, p', hlookup, h⟩ := Edit.apply_bind_eq_ok_iff.1 h
  obtain ⟨-, rfl⟩ := Edit.liftM_eq_ok_iff.1 hlookup
  split at h
  · exact of_insertInstr h
  · exact of_insertInstr h

/-- A new block has its title from the start. -/
theorem of_appendBlock {f : FuncRef} {name : String} {b : BlockRef}
    (h : (Edit.appendBlock f name).apply p = (.ok b, q)) :
    p.AddsLabels [] q ∧ q.titles[b.index]? = some (name, f) := by
  obtain ⟨func, hfunc, rfl, rfl⟩ := Edit.appendBlock_eq_ok h
  have hnames := map_setIfInBounds_eq Func.name
    { func with blocks := func.blocks ++ [⟨p.blocks.size⟩] } hfunc rfl
  exact ⟨⟨by simp [Program.labels], ⟨[(name, f)], by simp [Program.titles]⟩,
    ⟨[], (List.append_nil _).trans hnames.symm⟩⟩, by simp [Program.titles]⟩

theorem of_requireFunc {name : String} {params : List Ty} {ret : Ty} {f : FuncRef}
    (h : (Edit.requireFunc name params ret).apply p = (.ok f, q)) : p.AddsLabels [] q := by
  unfold Edit.requireFunc at h
  rw [Edit.get_bind_eq_ok_iff] at h
  split at h
  · obtain ⟨-, rfl⟩ := Edit.pure_eq_ok_iff.1 h
    exact refl p
  · obtain ⟨-, rfl⟩ := Edit.addFunc_eq_ok h
    exact ⟨(List.append_nil _).symm, List.prefix_rfl, ⟨[name], by simp [Program.funcNames]⟩⟩

/-- Changing what instructions do. -/
theorem of_rewrites {change : InstrRef → Instr → Instr} (h : Rewrites change p q)
    (hname : ∀ i instr, (change i instr).name = instr.name) : p.AddsLabels [] q := by
  refine of_eq (List.ext_getElem? fun k => ?_) ?_ ?_
  · have hlookup := h.instr? ⟨k⟩
    have hq := @getElem?_labels q ⟨k⟩
    rw [hlookup, Option.map_map] at hq
    refine hq.trans ((@getElem?_labels p ⟨k⟩).symm ▸ ?_)
    exact congrArg (Option.map · (p.instr? ⟨k⟩)) (funext fun instr => hname ⟨k⟩ instr)
  · rw [Program.titles, h.blocks_eq]
    rfl
  · rw [Program.funcNames, h.funcs_eq]
    rfl

theorem of_apply {σ : Renaming} {is : List InstrRef} {n : Nat}
    (h : (σ.apply is).apply p = (.ok n, q)) : p.AddsLabels [] q := by
  refine of_rewrites (.of_apply h) fun i instr => ?_
  refine apply_iterate_of_invariant Instr.name ?_ _ instr
  exact fun _ => rfl

end AddsLabels

end Program

namespace Worker

variable {s : Setting} {exchange : Exchange} {w : Worker} {f : FuncRef} {thread : Nat}
  {blocks : List BlockRef} {p q : Program}

/-- The copy of a block, its own or that of an instruction, is named after the thread. -/
def suffixed (thread : Nat) (name : String) : String := name ++ "_" ++ toString thread

def TitledCopy (f : FuncRef) (thread : Nat) (blockMap : Std.TreeMap BlockRef BlockRef)
    (q : Program) (b : BlockRef) : Prop :=
  ∃ copy name g, blockMap[b]? = some copy ∧ q.titles[b.index]? = some (name, g) ∧
    q.titles[copy.index]? = some (suffixed thread name, f)

theorem TitledCopy.keep {blockMap : Std.TreeMap BlockRef BlockRef} {b : BlockRef}
    {labels : List (Option String)} (h : TitledCopy f thread blockMap p b)
    (hadds : p.AddsLabels labels q) : TitledCopy f thread blockMap q b := by
  obtain ⟨copy, name, g, hcopy, hname, htitle⟩ := h
  exact ⟨copy, name, g, hcopy, hadds.title_kept hname, hadds.title_kept htitle⟩

theorem addCopies_titles {blockMap blockMap' : Std.TreeMap BlockRef BlockRef}
    (hnodup : blocks.Nodup)
    (h : (addCopies f thread blocks blockMap).apply p = (.ok blockMap', q)) :
    p.AddsLabels [] q ∧ ∀ b ∈ blocks, TitledCopy f thread blockMap' q b := by
  induction blocks generalizing p blockMap with
  | nil =>
      obtain ⟨-, rfl⟩ := Edit.pure_eq_ok_iff.1 h
      exact ⟨.refl p, by simp⟩
  | cons b blocks ih =>
      obtain ⟨hnot, hnodup⟩ := List.nodup_cons.1 hnodup
      obtain ⟨block, copy, p₁, hblock, hcopy, h⟩ := addCopies_cons_eq_ok h
      obtain ⟨hfirst, htitle⟩ := Program.AddsLabels.of_appendBlock hcopy
      obtain ⟨hrest, htitles⟩ := ih hnodup h
      refine ⟨hfirst.trans hrest, fun c hc => ?_⟩
      rcases List.mem_cons.1 hc with rfl | hc
      · obtain ⟨func, hfunc, -⟩ := Edit.appendBlock_eq_ok hcopy
        obtain ⟨-, hadded⟩ := AddsBlocks.of_appendBlock hfunc hcopy
        obtain ⟨-, hothers, -⟩ := addCopies_spec hadded.func?_self h
        refine ⟨copy, block.name, block.func, ?_, ?_, hrest.title_kept htitle⟩
        · rw [hothers c hnot, Std.TreeMap.getElem?_insert_self]
        · exact (hfirst.trans hrest).title_kept (Program.title_of_block? hblock)
      · exact htitles c hc

theorem addSkeleton_titles (hnodup : blocks.Nodup) (hexit : s.loop.exit ∉ blocks)
    (hpreheader : s.loop.preheader ∉ blocks)
    (h : (addSkeleton s f thread blocks).apply p = (.ok w, q)) :
    p.AddsLabels [none, none] q ∧ q.titles[w.entry.index]? = some ("new-entry", f) ∧
      q.titles[w.exit.index]? = some ("new-exit", f) ∧
      ∀ b ∈ blocks, TitledCopy f thread w.blockMap q b := by
  obtain ⟨copied, header, br, ret, p₁, p₂, p₃, p₄, hentry, hcopied, hexitBlock, -, hbr, hret, hw⟩ :=
    addSkeleton_eq_ok h
  obtain ⟨h₁, hentryTitle⟩ := Program.AddsLabels.of_appendBlock hentry
  obtain ⟨h₂, htitles⟩ := addCopies_titles hnodup hcopied
  obtain ⟨h₃, hexitTitle⟩ := Program.AddsLabels.of_appendBlock hexitBlock
  have h₄ : p₃.AddsLabels [none, none] q :=
    (Program.AddsLabels.of_appendInstr hbr).trans (.of_appendInstr hret)
  refine ⟨((h₁.trans h₂).trans h₃).trans h₄,
    ((h₂.trans h₃).trans h₄).title_kept hentryTitle, h₄.title_kept hexitTitle, ?_⟩
  intro b hb
  obtain ⟨copy, name, g, hcopy, hname, hcopyTitle⟩ := htitles b hb
  refine ⟨copy, name, g, ?_, (h₃.trans h₄).title_kept hname, (h₃.trans h₄).title_kept hcopyTitle⟩
  rw [hw, getElem?_insert_insert hexit hpreheader hb, hcopy]

def LabelsCopy (thread : Nat) (q : Program) (pair : InstrRef × InstrRef) (label : Option String) :
    Prop :=
  ∃ name, q.labels[pair.1.index]? = some name ∧ label = name.map (suffixed thread)

theorem LabelsCopy.keep {labels : List (Option String)} {pair : InstrRef × InstrRef}
    {label : Option String} (h : LabelsCopy thread p pair label) (hadds : p.AddsLabels labels q) :
    LabelsCopy thread q pair label := by
  obtain ⟨name, hname, hlabel⟩ := h
  exact ⟨name, hadds.label_kept hname, hlabel⟩

theorem copyInstrs_labels {b copy : BlockRef} {is : List InstrRef}
    {pairs : List (InstrRef × InstrRef)}
    (h : (copyInstrs s w b copy is).apply p = (.ok pairs, q)) :
    ∃ labels, p.AddsLabels labels q ∧ List.Forall₂ (LabelsCopy w.thread q) pairs labels := by
  induction is generalizing p pairs with
  | nil =>
      obtain ⟨rfl, rfl⟩ := Edit.pure_eq_ok_iff.1 h
      exact ⟨[], .refl p, .nil⟩
  | cons i is ih =>
      obtain ⟨instr, hinstr, ⟨-, h⟩ | ⟨-, op, clone, later, p₁, -, hclone, hlater, rfl⟩⟩ :=
        copyInstrs_cons_eq_ok h
      · exact ih h
      · obtain ⟨labels, hrest, hlabels⟩ := ih hlater
        have hall := (Program.AddsLabels.of_appendInstr hclone).trans hrest
        have hname := hall.label_kept (Program.label_of_instr? hinstr)
        exact ⟨_, hall, .cons ⟨instr.name, hname, rfl⟩ hlabels⟩

theorem copyBlocks_labels {pairs : List (InstrRef × InstrRef)}
    (h : (copyBlocks s w blocks).apply p = (.ok pairs, q)) :
    ∃ labels, p.AddsLabels labels q ∧ List.Forall₂ (LabelsCopy w.thread q) pairs labels := by
  induction blocks generalizing p pairs with
  | nil =>
      obtain ⟨rfl, rfl⟩ := Edit.pure_eq_ok_iff.1 h
      exact ⟨[], .refl p, .nil⟩
  | cons b blocks ih =>
      obtain ⟨copy, block, first, later, p₁, -, -, hfirst, hlater, rfl⟩ := copyBlocks_cons_eq_ok h
      obtain ⟨labels, hadds, hlabels⟩ := copyInstrs_labels hfirst
      obtain ⟨labels', hadds', hlabels'⟩ := ih hlater
      exact ⟨labels ++ labels', hadds.trans hadds',
        List.rel_append (hlabels.imp fun _ _ hlabel => hlabel.keep hadds') hlabels'⟩

/-- A copy is called after its original. -/
theorem label_of_mem {pairs : List (InstrRef × InstrRef)} {labels : List (Option String)}
    (hrefs : pairs.map Prod.snd = newRefs p.instrs.size pairs.length)
    (hadds : p.AddsLabels labels q) (hlabels : List.Forall₂ (LabelsCopy thread q) pairs labels)
    {pair : InstrRef × InstrRef} (hpair : pair ∈ pairs) :
    ∃ label, LabelsCopy thread q pair label ∧ q.labels[pair.2.index]? = some label := by
  obtain ⟨k, hk, rfl⟩ := List.getElem_of_mem hpair
  have hk' : k < labels.length := hlabels.length_eq ▸ hk
  refine ⟨labels[k], hlabels.get hk hk', ?_⟩
  rw [snd_eq_of_newRefs hrefs (List.getElem?_eq_getElem hk), hadds.label_new,
    List.getElem?_eq_getElem hk']

def loadLabels (names : List String) : List (Option String) :=
  names.flatMap fun name => [some (name ++ "_arg"), some (name ++ "_val")]

def entryLabels (hook? : Option String) (names : List String) : List (Option String) :=
  hook?.toList.map (fun _ => none) ++ some "args" :: loadLabels names

def storeLabels (names : List String) : List (Option String) :=
  names.flatMap fun name => [some (name ++ "_outptr"), none]

def exitLabels : List String → List (Option String)
  | [] => []
  | names => some "outs" :: storeLabels names

theorem loadArgs_labels {entry : BlockRef} {argPtr : InstrRef} {k : Nat} {values : List Value}
    {σ σ' : Renaming} (h : (loadArgs exchange entry argPtr k values σ).apply p = (.ok σ', q)) :
    ∃ names, values.mapM q.valueName = .ok names ∧ p.AddsLabels (loadLabels names) q := by
  induction values generalizing p k σ with
  | nil =>
      obtain ⟨-, rfl⟩ := Edit.pure_eq_ok_iff.1 h
      exact ⟨[], rfl, .refl p⟩
  | cons v values ih =>
      obtain ⟨name, ty, addr, loaded, p₁, p₂, hname, -, haddr, hload, h⟩ := loadArgs_cons_eq_ok h
      obtain ⟨names, hnames, hrest⟩ := ih h
      have hall := ((Program.AddsLabels.of_insertBeforeEnd haddr).trans
        (.of_insertBeforeEnd hload)).trans hrest
      exact ⟨name :: names, mapM_eq_ok_iff.2 (.cons (hall.valueName_eq_ok hname)
        (mapM_eq_ok_iff.1 hnames)), hall⟩

theorem CallsHook.labels {hook? : Option String} {b : BlockRef} (h : CallsHook hook? b p q) :
    p.AddsLabels (hook?.toList.map fun _ => none) q := by
  obtain ⟨rfl, rfl⟩ | ⟨name, hook, call, p₁, rfl, hhook, hcall⟩ := h
  · exact .refl q
  · exact (Program.AddsLabels.of_requireFunc hhook).trans (.of_insertBeforeEnd hcall)

theorem unpackArgs_labels {σ σ' : Renaming} {argPtr : InstrRef}
    (h : (unpackArgs s exchange w σ).apply p = (.ok (argPtr, σ'), q)) :
    ∃ names, s.live.liveIn.mapM q.valueName = .ok names ∧
      p.AddsLabels (entryLabels s.config.traceHook names) q := by
  obtain ⟨p₁, p₂, hcalls, hcast, hload⟩ := unpackArgs_eq_ok h
  obtain ⟨names, hnames, hrest⟩ := loadArgs_labels hload
  have hargs := (Program.AddsLabels.of_insertBeforeEnd hcast).trans hrest
  exact ⟨names, hnames, hcalls.labels.trans hargs⟩

theorem storeEach_labels {σ : Renaming} {outPtr : InstrRef} {owned : List (InstrRef × Nat)}
    {stores : List InstrRef} (h : (storeEach exchange w σ outPtr owned).apply p = (.ok stores, q)) :
    ∃ names, (owned.mapM fun out => q.valueName (.instr out.1)) = .ok names ∧
      p.AddsLabels (storeLabels names) q := by
  induction owned generalizing p stores with
  | nil =>
      obtain ⟨-, rfl⟩ := Edit.pure_eq_ok_iff.1 h
      exact ⟨[], rfl, .refl p⟩
  | cons out owned ih =>
      obtain ⟨name, v, addr, store, later, p₁, p₂, hname, -, haddr, hstore, hlater, -⟩ :=
        storeEach_cons_eq_ok h
      obtain ⟨names, hnames, hrest⟩ := ih hlater
      have hall := ((Program.AddsLabels.of_insertBeforeEnd haddr).trans
        (.of_insertBeforeEnd hstore)).trans hrest
      exact ⟨name :: names, mapM_eq_ok_iff.2 (.cons (hall.valueName_eq_ok hname)
        (mapM_eq_ok_iff.1 hnames)), hall⟩

theorem storeOuts_labels {σ : Renaming} {argPtr : InstrRef} {stores : List InstrRef}
    (h : (storeOuts s exchange w σ argPtr).apply p = (.ok stores, q)) :
    ∃ names, ((ownedOuts s w.thread).mapM fun out => q.valueName (.instr out.1)) = .ok names ∧
      p.AddsLabels (exitLabels names) q := by
  unfold storeOuts at h
  split at h
  · next hnone =>
      obtain ⟨-, rfl⟩ := Edit.pure_eq_ok_iff.1 h
      rw [hnone]
      exact ⟨[], rfl, .refl p⟩
  · next owned hsome =>
      obtain ⟨outPtr, p₁, hout, h⟩ := Edit.apply_bind_eq_ok_iff.1 h
      obtain ⟨names, hnames, hrest⟩ := storeEach_labels h
      have hall := (Program.AddsLabels.of_insertBeforeEnd hout).trans hrest
      refine ⟨names, hnames, ?_⟩
      cases names with
      | nil => exact absurd (List.forall₂_nil_right_iff.1 (mapM_eq_ok_iff.1 hnames)) hsome
      | cons name names => exact hall

/-- What is written after the copies, the entry first and then the exit. -/
theorem border_labels {σ₀ σ : Renaming} {argPtr : InstrRef} {refs stores : List InstrRef} {n : Nat}
    {p₁ p₂ : Program} (hunpack : (unpackArgs s exchange w σ₀).apply p = (.ok (argPtr, σ), p₁))
    (happly : (σ.apply refs).apply p₁ = (.ok n, p₂))
    (hstores : (storeOuts s exchange w σ argPtr).apply p₂ = (.ok stores, q)) :
    ∃ names outNames, s.live.liveIn.mapM q.valueName = .ok names ∧
      ((ownedOuts s w.thread).mapM fun out => q.valueName (.instr out.1)) = .ok outNames ∧
      p.AddsLabels (entryLabels s.config.traceHook names ++ exitLabels outNames) q := by
  obtain ⟨names, hnames, hentry⟩ := unpackArgs_labels hunpack
  obtain ⟨outNames, houtNames, hexit⟩ := storeOuts_labels hstores
  have hafter := (Program.AddsLabels.of_apply happly).trans hexit
  exact ⟨names, outNames, hafter.valueNames_eq_ok hnames, houtNames, hentry.trans hafter⟩

end Worker

end Decouple
