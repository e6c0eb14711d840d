import Std.Data.String.ToNat
import Oberon.Proofs.Temporaries

/-!
# Names of blocks

The name of a block ends in a number that is drawn from one counter for the whole program, so no
two blocks have the same name, whatever functions they belong to. While a procedure is compiled the
body around it waits, and the name of its first block with it.
-/

namespace Oberon

open Code Relation

/-! ## Numbered names -/

/-- A name that was made with the number `n`. -/
def IsLabel (n : Nat) (name : String) : Prop :=
  ∃ base, name = base ++ "." ++ toString n

theorem dot_notMem_toString (n : Nat) : '.' ∉ (toString n).toList := by
  intro hdot
  have hdigits : (toString n).toList = Nat.toDigits 10 n := String.toList_ofList
  rw [hdigits] at hdot
  have hdigit := Nat.isDigit_of_mem_toDigits (by decide) (by decide) hdot
  exact absurd hdigit (by decide)

/-- The number of a name is what stands behind its last dot. -/
theorem takeWhile_reverse_label (base : String) (n : Nat) :
    (base ++ "." ++ toString n).toList.reverse.takeWhile (· != '.')
      = (toString n).toList.reverse := by
  have hplain : ∀ c ∈ (toString n).toList.reverse, (c != '.') = true := by
    intro c hc
    apply bne_iff_ne.mpr
    rintro rfl
    exact dot_notMem_toString n (List.mem_reverse.mp hc)
  have hsplit : (base ++ "." ++ toString n).toList.reverse
      = (toString n).toList.reverse ++ '.' :: base.toList.reverse := by
    simp
  rw [hsplit, List.takeWhile_append_of_pos hplain]
  simp

/-- A name `IsLabel` of one number only. -/
theorem IsLabel.eq {m n : Nat} {name : String} (hm : IsLabel m name) (hn : IsLabel n name) :
    m = n := by
  obtain ⟨base, rfl⟩ := hm
  obtain ⟨base', hsame⟩ := hn
  have hdigits : (toString m).toList = (toString n).toList := by
    apply List.reverse_injective
    rw [← takeWhile_reverse_label base m, hsame, takeWhile_reverse_label base' n]
  exact Nat.repr_inj.mp (String.toList_injective hdigits)

/-- Different names whose numbers were all drawn: each `IsLabel` of one below `labels`. -/
structure AreLabels (labels : Nat) (names : List String) : Prop where
  nodup : names.Nodup
  drawn : ∀ name ∈ names, ∃ n < labels, IsLabel n name

namespace AreLabels

variable {labels : Nat} {names names' : List String}

theorem nil (labels : Nat) : AreLabels labels [] :=
  ⟨List.nodup_nil, List.forall_mem_nil _⟩

/-- The next number makes a name that is not there, and they stay `AreLabels`. -/
theorem fresh (h : AreLabels labels names) (base : String) :
    AreLabels (labels + 1) ((base ++ "." ++ toString labels) :: names) := by
  constructor
  case nodup =>
    refine List.nodup_cons.mpr ⟨?_, h.nodup⟩
    -- its number would have been drawn before
    intro hmem
    obtain ⟨n, hn, hlabel⟩ := h.drawn _ hmem
    have hsame : n = labels := hlabel.eq ⟨base, rfl⟩
    omega
  case drawn =>
    intro name hname
    rcases List.mem_cons.mp hname with rfl | hname
    · exact ⟨labels, Nat.lt_succ_self _, base, rfl⟩
    · obtain ⟨n, hn, hlabel⟩ := h.drawn name hname
      exact ⟨n, by omega, hlabel⟩

/-- `AreLabels` of fewer names, in any order. -/
theorem of_subperm (h : AreLabels labels names) (hsub : names'.Subperm names) :
    AreLabels labels names' := by
  obtain ⟨l, hperm, hsublist⟩ := hsub
  refine ⟨hperm.nodup_iff.mp (hsublist.nodup h.nodup), ?_⟩
  intro name hname
  exact h.drawn name (hsublist.subset (hperm.mem_iff.mpr hname))

end AreLabels

/-! ## Blocks of functions and drafts -/

/-- The names of the blocks of a function. -/
def Code.Function.blockNames (f : Function) : List String :=
  f.blocks.toList.map (·.name)

/-- The name of the block that an edit adds. -/
def Code.Edit.blockName? : Edit → Option String
  | .addBlock name => some name
  | .switchTo _ | .push _ | .pushEntry _ | .terminate _ => none

/-- The names of the blocks that the `addBlock` edits of a draft add to the first one. -/
def Draft.blockNames (d : Draft) : List String :=
  d.script.toList.filterMap Edit.blockName?

theorem map_name_modify {f : Block → Block} (h : ∀ b, (f b).name = b.name) (blocks : List Block)
    (label : Nat) : (blocks.modify label f).map (·.name) = blocks.map (·.name) := by
  induction blocks generalizing label with
  | nil => rw [List.modify_nil]
  | cons b rest ih =>
    cases label with
    | zero =>
      rw [List.modify_zero_cons, List.map_cons, List.map_cons, h]
    | succ label => rw [List.modify_succ_cons, List.map_cons, List.map_cons, ih]

namespace Code.Builder

/-- `Builder.apply` adds the name of the block that the edit adds, if any. -/
theorem names_apply (b : Builder) (e : Edit) :
    (b.apply e).blocks.toList.map (·.name)
      = b.blocks.toList.map (·.name) ++ e.blockName?.toList := by
  cases e with
  | addBlock name => simp [apply, Edit.blockName?]
  | switchTo label => exact (List.append_nil _).symm
  | push i =>
    rw [apply, Array.toList_modify]
    exact (map_name_modify (f := (·.push i)) (fun _ => rfl) _ _).trans (List.append_nil _).symm
  | pushEntry i =>
    rw [apply, Array.toList_modify]
    exact (map_name_modify (f := (·.pushCell i)) (fun _ => rfl) _ _).trans (List.append_nil _).symm
  | terminate t =>
    rw [apply, Array.toList_modify]
    exact (map_name_modify (f := (·.terminate t)) (fun _ => rfl) _ _).trans (List.append_nil _).symm

theorem names_run (b : Builder) (script : Array Edit) :
    (b.run script).blocks.toList.map (·.name)
      = b.blocks.toList.map (·.name) ++ script.toList.filterMap Edit.blockName? := by
  rw [run, ← Array.foldl_toList]
  induction script.toList generalizing b with
  | nil => simp
  | cons e rest ih =>
    have hrest : (e :: rest).filterMap Edit.blockName?
        = e.blockName?.toList ++ rest.filterMap Edit.blockName? := by
      cases h : e.blockName? <;> simp [h]
    rw [List.foldl_cons, ih (b.apply e), names_apply, hrest, List.append_assoc]

end Code.Builder

/-- `Draft.function` has the first block, and those that the draft adds. -/
theorem Draft.blockNames_function (d : Draft) (name entry : String) (parameters : List Ty)
    (result : Ty) (origin : Option String) :
    (d.function (.start name parameters result entry origin)).blockNames
      = entry :: d.blockNames := by
  have hrun := (Builder.start name parameters result entry origin).names_run d.script
  have hclose : ∀ blocks : Array Block, ∀ t,
      (blocks.map (·.terminate t)).toList.map (·.name) = blocks.toList.map (·.name) := by
    intro blocks t
    rw [Array.toList_map, List.map_map]
    rfl
  exact (hclose _ _).trans hrun

/-! ## Compilations -/

/-- No two blocks of an emission and of the `others` have the same name, and the numbers of all
names were drawn. -/
def Emission.Labelled (others : List String) (s : Emission) : Prop :=
  AreLabels s.stock.labels (s.draft.blockNames ++ others)

/-- No two blocks have the same name, in the body under construction, in functions and in bodies
that wait, whose names are `waiting`. -/
def Session.Labelled (waiting : List String) (s : Session) : Prop :=
  s.emission.Labelled (s.functions.flatMap Function.blockNames ++ waiting)

theorem Stock.labels_intern (s : Stock) (bytes : List UInt8) :
    (s.intern bytes).2.labels = s.labels := by
  unfold Stock.intern
  split <;> rfl

namespace Emission

variable {s t : Emission} {others : List String}

theorem blockNames_edited (s : Emission) (e : Edit) :
    (s.edited e).draft.blockNames = s.draft.blockNames ++ e.blockName?.toList :=
  filterMap_edited Edit.blockName? s e

/-- An edit that adds no block changes no names, so the emission stays `Labelled`. -/
theorem Labelled.edited {e : Edit} (h : s.Labelled others) (he : e.blockName? = none) :
    (s.edited e).Labelled others := by
  unfold Labelled
  rw [blockNames_edited, he, Option.toList_none, List.append_nil]
  exact h

theorem Extends.labelled (h : s.Extends t) (hs : s.Labelled others) : t.Labelled others := by
  cases h with
  | push h => exact hs.edited rfl
  | define h => exact Labelled.edited (s := s.drawn) hs rfl
  | string text =>
    show AreLabels (s.stock.intern _).2.labels _
    rw [Stock.labels_intern]
    exact hs

/-- A new block has a new name, and all other steps of `Changes` add no names. -/
theorem Changes.labelled (h : s.Changes t) (hs : s.Labelled others) : t.Labelled others := by
  cases h with
  | extend h => exact h.labelled hs
  | cell ty => exact Labelled.edited (s := s.drawn) hs rfl
  | terminate t => exact hs.edited rfl
  | move label => exact hs.edited rfl
  | block name =>
    have hnames : (s.withBlock name).draft.blockNames
        = s.draft.blockNames ++ [name ++ "." ++ toString s.stock.labels] :=
      s.blockNames_edited (.addBlock (name ++ "." ++ toString s.stock.labels))
    refine AreLabels.of_subperm (AreLabels.fresh hs name) (List.Perm.subperm ?_)
    rw [hnames, List.append_assoc]
    exact List.perm_middle

theorem Labelled.of_changes (hs : s.Labelled others) (h : ReflTransGen Changes s t) :
    t.Labelled others := by
  induction h with
  | refl => exact hs
  | tail _ hstep ih => exact hstep.labelled ih

end Emission

namespace Session.Labelled

variable {waiting : List String} {s t : Session}

/-- `Labelled` is kept by `Declares`. -/
theorem declares (h : s.Labelled waiting) (hst : s.Declares t) : t.Labelled waiting := by
  unfold Labelled at h ⊢
  rw [hst.functions]
  cases hst with
  | names hnames =>
    rw [hnames.code.2]
    exact h
  | emit hsteps => exact h.of_changes hsteps

/-- `Session.started` makes the current body wait, with the name of its own first block. -/
theorem started (h : s.Labelled waiting) :
    s.started.Labelled (s.entryLabel :: s.draft.blockNames ++ waiting) := by
  refine AreLabels.of_subperm (AreLabels.fresh h "entry") (List.Perm.subperm ?_)
  show (s.functions.flatMap Function.blockNames
      ++ (s.entryLabel :: (s.draft.blockNames ++ waiting))).Perm
    (s.entryLabel :: (s.draft.blockNames ++ (s.functions.flatMap Function.blockNames ++ waiting)))
  refine List.perm_middle.trans (List.Perm.cons _ ?_)
  rw [← List.append_assoc, ← List.append_assoc]
  exact List.perm_append_comm.append_right _

/-- `Session.finished` makes the body a function, and the one that waited goes on. -/
theorem finished {outer : Draft} {entry : String}
    (h : s.Labelled (entry :: outer.blockNames ++ waiting)) (name : String) (parameters : List Ty)
    (result : Ty) (origin : Option String) :
    (s.finished (s.draft.function (.start name parameters result entry origin)) outer).Labelled
      waiting := by
  refine AreLabels.of_subperm h (Program.subperm_insertFunction Function.blockNames [entry] ?_)
  rw [Draft.blockNames_function]
  exact List.Subperm.refl _

/-- `Labelled` is an invariant of compiling procedures: no name is given to two blocks. -/
theorem invariant : Session.Invariant (fun waiting s => s.Labelled waiting)
    (fun s => s.entryLabel :: s.draft.blockNames) := by
  constructor
  case declares =>
    intro waiting s t h hst
    exact h.declares hst
  case opens =>
    intro waiting s types name sig h
    exact h.started
  case closes =>
    intro waiting s t sig h
    exact h.finished sig.symbol sig.parameterTypes sig.result (some sig.symbol)

end Session.Labelled

/-! ## Modules -/

/-- No two blocks of a program that `Module.compile` gives have the same name. -/
theorem Module.nodup_blockNames {m : Module} {platform : Platform} {p : Program}
    (h : m.compile platform = .ok p) : (p.functions.flatMap Function.blockNames).Nodup := by
  obtain ⟨a, b, c, d, e, ha, hb, hc, hd, he, rfl⟩ := Module.compile_parts h
  obtain ⟨hfunctions, hemission⟩ :=
    Session.code_of_collects (Module.collects_of_sections ha hb hc)
  have hbegun : c.Labelled [] := by
    unfold Session.Labelled
    rw [hfunctions, hemission]
    exact .nil _
  have hprocedures : d.Labelled [] := Session.Labelled.invariant.compileProcedures hd hbegun
  have hbody : e.Labelled (d.entryLabel :: d.draft.blockNames ++ []) :=
    Session.Labelled.invariant.of_declares hprocedures.started (Compile.traces_statements _ _ he)
  have hdone := hbody.finished entryName [] .status none
  have hnames := (List.nodup_append.mp (AreLabels.nodup hdone)).2.1
  exact (List.nodup_append.mp hnames).1

namespace Code.Function

variable {f : Function} {label : Nat} {b : Block}

/-- `labelOf?` finds a block by its name, if no other block of the function has it. -/
theorem labelOf?_eq_some (hnodup : f.blockNames.Nodup) (hb : f.blocks[label]? = some b) :
    f.labelOf? b.name = some label := by
  obtain ⟨hlabel, rfl⟩ := Array.getElem?_eq_some_iff.mp hb
  have hlength : label < f.blocks.toList.length := hlabel
  rw [labelOf?, List.findIdx?_eq_some_iff_getElem]
  refine ⟨hlength, ?_, ?_⟩
  · rw [Array.getElem_toList]
    exact beq_self_eq_true _
  · intro other hother
    rw [beq_iff_eq]
    intro hsame
    -- a block before it would have the same name
    have hnames : f.blockNames[other]? = f.blockNames[label]? := by
      rw [blockNames, List.getElem?_map, List.getElem?_map, List.getElem?_eq_getElem hlength,
        List.getElem?_eq_getElem (hother.trans hlength), Option.map_some, Option.map_some, hsame]
      rfl
    have hlt : other < f.blockNames.length := by
      rw [blockNames, List.length_map]
      omega
    exact absurd ((List.getElem?_inj hlt hnodup).mp hnames) (Nat.ne_of_lt hother)

end Code.Function

end Oberon
