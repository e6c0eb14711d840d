import Oberon.Proofs.BlockNames
import Oberon.Proofs.Flow

/-!
# Orderly emissions

A control structure adds all its blocks, and then goes from one to the next. An outline is an
emission together with the blocks that it has added and still has to go to. It changes by steps of
four kinds (`Outline.Step`): straight-line code, one more block to come, the end of the current
block and the start of one that was to come, and the end of the current block before a block that
nothing leads to. What every step keeps holds of all code: edits are never in vain, blocks are ended
one after the other, and jumps lead to all blocks but the first one and those after an early exit.
-/

namespace Oberon

open Code Relation

/-! ## Blocks that nothing leads to -/

/-- How the blocks after RETURN, BREAK and CONTINUE are called. -/
def tailNames : List String :=
  ["return.unreachable", "break.unreachable", "continue.unreachable"]

/-- The name of a block that takes what stands behind RETURN, BREAK or CONTINUE: one of `tailNames`
with a number. -/
def IsTailName (name : String) : Prop :=
  ∃ base ∈ tailNames, ∃ n : Nat, name = base ++ "." ++ toString n

/-- `IsTailName` depends on the part of a name before its number. -/
theorem isTailName_label {base : String} {n : Nat} :
    IsTailName (base ++ "." ++ toString n) ↔ base ∈ tailNames := by
  constructor
  · rintro ⟨base', hbase, m, hsame⟩
    -- the numbers are the same, so what stands before them is
    obtain rfl : n = m := IsLabel.eq ⟨base, rfl⟩ ⟨base', hsame⟩
    have hchars := congrArg String.toList hsame
    simp only [String.toList_append, List.append_cancel_right_eq] at hchars
    rwa [String.toList_injective hchars]
  · intro hbase
    exact ⟨base, hbase, n, rfl⟩

/-! ## Edits that take effect -/

namespace Code.Builder

/-- Whether `Builder.apply` of an edit takes effect: a block that has ended takes neither
instructions nor another terminator. -/
def takes (b : Builder) : Edit → Bool
  | .push _ | .terminate _ => b.isOpen
  | .pushEntry _ => ({ b with cursor := 0 } : Builder).isOpen
  | .addBlock _ | .switchTo _ => true

/-- Whether edits take effect, one after the other, as `takes` says. -/
def takesAll (b : Builder) : List Edit → Bool
  | [] => true
  | e :: rest => b.takes e && (b.apply e).takesAll rest

/-- `takesAll` of two scripts in a row: the second starts from what the first has built. -/
theorem takesAll_append (b : Builder) (first second : List Edit) :
    b.takesAll (first ++ second)
      = (b.takesAll first && (first.foldl apply b).takesAll second) := by
  induction first generalizing b with
  | nil => rfl
  | cons e rest ih => rw [List.cons_append, takesAll, takesAll, ih, Bool.and_assoc, List.foldl_cons]

end Code.Builder

/-! ## Ways between blocks -/

/-- A block ends with a jump or a branch to another one. -/
def HasEdge (blocks : Array Block) (source target : Nat) : Prop :=
  ∃ b term, blocks[source]? = some b ∧ b.terminator = some term ∧ target ∈ term.successors

/-- A block that has ended keeps its ways when blocks only grow, as `Precede` says. -/
theorem HasEdge.precede {before after : Array Block} (h : Precede before after)
    {source target : Nat} (hedge : HasEdge before source target) :
    HasEdge after source target := by
  obtain ⟨b, term, hb, hterm, htarget⟩ := hedge
  obtain ⟨c, hc, -, hend⟩ := h source b hb
  exact ⟨c, term, hc, (hend term hterm).2, htarget⟩

namespace Code.Builder

/-- Only the edit `terminate` makes a terminator. -/
theorem terminator_apply {b : Builder} {e : Edit} {l : Nat} {c : Block} {term : Terminator}
    (hc : (b.apply e).blocks[l]? = some c) (hterm : c.terminator = some term) :
    (∃ d, b.blocks[l]? = some d ∧ d.terminator = some term) ∨ e = .terminate term := by
  -- the other edits change at most the instructions of a block
  have hkept {label : Nat} {f : Block → Block} (hf : ∀ d, (f d).terminator = d.terminator)
      (hc : (b.blocks.modify label f)[l]? = some c) :
      ∃ d, b.blocks[l]? = some d ∧ d.terminator = some term := by
    rw [Array.getElem?_modify] at hc
    split at hc
    · obtain ⟨d, hd, rfl⟩ := Option.map_eq_some_iff.mp hc
      exact ⟨d, hd, (hf d).symm.trans hterm⟩
    · exact ⟨c, hc, hterm⟩
  cases e with
  | addBlock name =>
    rw [Builder.apply, Array.getElem?_push] at hc
    split at hc
    · obtain rfl := Option.some.inj hc
      cases hterm
    · exact .inl ⟨c, hc, hterm⟩
  | switchTo label => exact .inl ⟨c, hc, hterm⟩
  | push i => exact .inl (hkept (f := (·.push i)) (fun _ => rfl) hc)
  | pushEntry i => exact .inl (hkept (f := (·.pushCell i)) (fun _ => rfl) hc)
  | terminate t =>
    rw [Builder.apply, Array.getElem?_modify] at hc
    split at hc
    · obtain ⟨d, hd, rfl⟩ := Option.map_eq_some_iff.mp hc
      cases hend : d.terminator with
      | none =>
        have hsame : t = term := by simpa [Block.terminate, hend] using hterm
        exact .inr (congrArg Edit.terminate hsame)
      | some t' =>
        have hsame : t' = term := by simpa [Block.terminate, hend] using hterm
        exact .inl ⟨d, hd, hend.trans (congrArg some hsame)⟩
    · exact .inl ⟨c, hc, hterm⟩

/-- A terminator that a block has got by some edits stands among them as `Edit.terminate`. -/
theorem terminate_mem_of_foldl {b : Builder} {edits : List Edit} {l : Nat} {c : Block}
    {term : Terminator} (hc : (edits.foldl apply b).blocks[l]? = some c)
    (hterm : c.terminator = some term) :
    (∃ d, b.blocks[l]? = some d ∧ d.terminator = some term) ∨ Edit.terminate term ∈ edits := by
  induction edits generalizing b with
  | nil => exact .inl ⟨c, hc, hterm⟩
  | cons e rest ih =>
    rcases ih hc with ⟨d, hd, hterm'⟩ | hmem
    · rcases terminator_apply hd hterm' with hbefore | rfl
      · exact .inl hbefore
      · exact .inr List.mem_cons_self
    · exact .inr (List.mem_cons_of_mem e hmem)

end Code.Builder

/-- The terminator that an edit sets. -/
def Code.Edit.terminator? : Edit → Option Terminator
  | .terminate t => some t
  | .addBlock _ | .switchTo _ | .push _ | .pushEntry _ => none

/-- The terminators that a draft sets, in the order of its edits. -/
def Draft.terminators (d : Draft) : List Terminator :=
  d.script.toList.filterMap Edit.terminator?

namespace Emission

variable {s t u : Emission} {l : Nat}

/-! ## Scripts that grow -/

/-- Straight-line code adds to the end of the script, and so does each step of `Changes`. -/
theorem Extends.script (h : s.Extends t) :
    s.draft.script.toList <+: t.draft.script.toList := by
  cases h with
  | push h => exact ⟨_, Array.toList_push.symm⟩
  | define h hcell => exact ⟨_, Array.toList_push.symm⟩
  | string text => exact List.prefix_rfl

theorem Changes.script (h : s.Changes t) :
    s.draft.script.toList <+: t.draft.script.toList := by
  cases h with
  | extend h => exact h.script
  | cell ty => exact ⟨_, Array.toList_push.symm⟩
  | terminate t => exact ⟨_, Array.toList_push.symm⟩
  | move label => exact ⟨_, Array.toList_push.symm⟩
  | block name => exact ⟨_, Array.toList_push.symm⟩

/-- Nothing of a script is taken back by `Changes`. -/
theorem script_of_changes (h : ReflTransGen Changes s t) :
    s.draft.script.toList <+: t.draft.script.toList := by
  induction h with
  | refl => exact List.prefix_rfl
  | tail _ hstep ih => exact ih.trans hstep.script

/-- `Draft.blocks` counts the blocks as they were added. -/
def Counted (s : Emission) : Prop :=
  s.draft.blocks = s.draft.blockNames.length + 1

/-- An edit that adds no block leaves `Draft.blockNames` as they are. -/
theorem blockNames_edited_of_none (s : Emission) {e : Edit} (he : e.blockName? = none) :
    (s.edited e).draft.blockNames = s.draft.blockNames := by
  rw [blockNames_edited, he]
  exact List.append_nil _

/-- A step of `Extends`, which is straight-line code, adds no block. -/
theorem Extends.blockNames (h : s.Extends t) : t.draft.blockNames = s.draft.blockNames := by
  cases h with
  | push h => exact s.blockNames_edited_of_none rfl
  | define h hcell => exact s.drawn.blockNames_edited_of_none rfl
  | string text => rfl

theorem Changes.counted (h : s.Changes t) (hs : s.Counted) : t.Counted := by
  have hplain {r : Emission} (hnames : r.draft.blockNames = s.draft.blockNames)
      (hblocks : r.draft.blocks = s.draft.blocks) : r.Counted := by
    unfold Counted
    rw [hnames, hblocks]
    exact hs
  cases h with
  | extend h =>
    obtain ⟨code, hcode⟩ := exists_adds (.single h)
    exact hplain h.blockNames hcode.blocks
  | cell ty => exact hplain (s.drawn.blockNames_edited_of_none rfl) rfl
  | terminate t => exact hplain (s.blockNames_edited_of_none rfl) rfl
  | move label => exact hplain (s.blockNames_edited_of_none rfl) rfl
  | block name =>
    have hnames := s.blockNames_edited (.addBlock (name ++ "." ++ toString s.stock.labels))
    have hlength : (s.withBlock name).draft.blockNames.length = s.draft.blockNames.length + 1 := by
      rw [show (s.withBlock name).draft.blockNames = _ from hnames, List.length_append]
      rfl
    have hblocks : (s.withBlock name).draft.blocks = s.draft.blocks + 1 := rfl
    unfold Counted at hs ⊢
    omega

/-- Blocks stay `Counted` whatever is emitted. -/
theorem Counted.of_changes (hs : s.Counted) (h : ReflTransGen Changes s t) : t.Counted := by
  induction h with
  | refl => exact hs
  | tail _ hstep ih => exact hstep.counted ih

/-- The blocks that an emission has `Counted` are those that the script adds. -/
theorem IsOpen.counted (hs : s.IsOpen) : s.Counted := by
  have hnames := (Builder.start "" [] .void "" none).names_run s.draft.script
  have hlength := congrArg List.length hnames
  rw [List.length_map, List.length_append] at hlength
  have hsize : s.build.blocks.toList.length = 1 + s.draft.blockNames.length := hlength
  have hcount := hs.count
  rw [Array.length_toList] at hsize
  unfold Counted
  omega

/-! ## Where jumps lead -/

end Emission

/-- What code may do: the first of the blocks that are its own, the others to which it may jump, and
whether it may have early exits. -/
structure Outline.Bounds where
  floor : Nat
  outer : Nat → Prop
  exits : Prop

namespace Emission

open Outline

variable {B : Bounds} {s t u : Emission} {l : Nat}

/-- A block that was added, and that takes what stands behind an early exit. -/
def IsTail (s : Emission) (label : Nat) : Prop :=
  ∃ k name, label = k + 1 ∧ s.draft.blockNames[k]? = some name ∧ IsTailName name

/-- A block, at or above `floor`, that was added for a jump to lead to it. -/
def Lands (floor : Nat) (s : Emission) (label : Nat) : Prop :=
  floor ≤ label
    ∧ ∃ k name, label = k + 1 ∧ s.draft.blockNames[k]? = some name ∧ ¬ IsTailName name

/-- A block to which a jump may lead: one on which it `Lands`, or one of the others in
`Bounds.outer`. -/
def Admits (B : Bounds) (s : Emission) (label : Nat) : Prop :=
  s.Lands B.floor label ∨ B.outer label

/-- A terminator that leads only to blocks that the emission `Admits`. -/
def Aims (B : Bounds) (s : Emission) (term : Terminator) : Prop :=
  ∀ l ∈ term.successors, s.Admits B l

/-- The blocks were `Counted`, and the next one is above the floor. -/
structure IsAbove (floor : Nat) (s : Emission) : Prop where
  counted : s.Counted
  floor_le : floor ≤ s.draft.blocks

/-- A block to which one of `Draft.terminators` leads. -/
def Targets (s : Emission) (label : Nat) : Prop :=
  ∃ term ∈ s.draft.terminators, label ∈ term.successors

/-- `IsAbove` is kept whatever is emitted: the number of blocks only grows. -/
theorem IsAbove.of_changes {floor : Nat} (hs : s.IsAbove floor) (h : ReflTransGen Changes s t) :
    t.IsAbove floor := by
  refine ⟨hs.counted.of_changes h, ?_⟩
  -- blocks are counted by their names, and none of these is taken back
  have hnames := ((script_of_changes h).filterMap Edit.blockName?).length_le
  have hbefore : s.draft.blocks = s.draft.blockNames.length + 1 := hs.counted
  have hafter : t.draft.blocks = t.draft.blockNames.length + 1 := hs.counted.of_changes h
  have hfloor := hs.floor_le
  have hle : s.draft.blockNames.length ≤ t.draft.blockNames.length := hnames
  omega

section

variable (h : s.draft.script.toList <+: t.draft.script.toList)
include h

theorem getElem?_blockNames {k : Nat} {name : String}
    (hname : s.draft.blockNames[k]? = some name) : t.draft.blockNames[k]? = some name := by
  have hnames : s.draft.blockNames <+: t.draft.blockNames := h.filterMap Edit.blockName?
  obtain ⟨hk, rfl⟩ := List.getElem?_eq_some_iff.mp hname
  exact (List.prefix_iff_getElem?.mp hnames) k hk

theorem IsTail.mono (hl : s.IsTail l) : t.IsTail l := by
  obtain ⟨k, name, hlabel, hname, htail⟩ := hl
  exact ⟨k, name, hlabel, getElem?_blockNames h hname, htail⟩

/-- A block on which jumps may land stays one when the script goes on, since names of blocks
stay. -/
theorem Lands.mono {floor : Nat} (hl : s.Lands floor l) : t.Lands floor l := by
  obtain ⟨hfloor, k, name, hlabel, hname, htail⟩ := hl
  exact ⟨hfloor, k, name, hlabel, getElem?_blockNames h hname, htail⟩

theorem Admits.mono (hl : s.Admits B l) : t.Admits B l :=
  hl.imp_left (·.mono h)

/-- A block to which a terminator leads stays one when the script goes on. -/
theorem Targets.mono (hl : s.Targets l) : t.Targets l := by
  obtain ⟨term, hterm, hlabel⟩ := hl
  exact ⟨term, (h.filterMap Edit.terminator?).subset hterm, hlabel⟩

end

/-- `withBlock` names its block by the next label, behind the names that are there. -/
theorem getElem?_blockNames_withBlock (hs : s.Counted) (name : String) :
    ∃ k, s.draft.blocks = k + 1 ∧ (s.withBlock name).draft.blockNames[k]?
      = some (name ++ "." ++ toString s.stock.labels) := by
  have hnames := s.blockNames_edited (.addBlock (name ++ "." ++ toString s.stock.labels))
  refine ⟨s.draft.blockNames.length, hs, ?_⟩
  rw [show (s.withBlock name).draft.blockNames = _ from hnames]
  exact List.getElem?_concat_length

/-- A new block `Lands` jumps unless it has a name of `tailNames`. -/
theorem lands_withBlock {floor : Nat} (hs : s.IsAbove floor) {name : String}
    (hname : name ∉ tailNames) : (s.withBlock name).Lands floor s.draft.blocks := by
  obtain ⟨k, hk, hlabel⟩ := getElem?_blockNames_withBlock hs.counted name
  exact ⟨hs.floor_le, k, _, hk, hlabel, fun htail => hname (isTailName_label.mp htail)⟩

/-- A new block with a name of `tailNames` takes what stands behind an early exit. -/
theorem isTail_withBlock (hs : s.Counted) {name : String} (hname : name ∈ tailNames) :
    (s.withBlock name).IsTail s.draft.blocks := by
  obtain ⟨k, hk, hlabel⟩ := getElem?_blockNames_withBlock hs name
  exact ⟨k, _, hk, hlabel, isTailName_label.mpr hname⟩

/-- `Draft.terminators` gains the terminator that the new edit sets, if it sets one. -/
theorem terminators_edited (s : Emission) (e : Edit) :
    (s.edited e).draft.terminators = s.draft.terminators ++ e.terminator?.toList :=
  filterMap_edited Edit.terminator? s e

theorem terminators_edited_of_none (s : Emission) {e : Edit} (he : e.terminator? = none) :
    (s.edited e).draft.terminators = s.draft.terminators := by
  rw [terminators_edited, he]
  exact List.append_nil _

/-- A step of `Extends`, which is straight-line code, ends no block. -/
theorem Extends.terminators (h : s.Extends t) : t.draft.terminators = s.draft.terminators := by
  cases h with
  | push h => exact s.terminators_edited_of_none rfl
  | define h hcell => exact s.drawn.terminators_edited_of_none rfl
  | string text => rfl

theorem terminators_terminated (s : Emission) (term : Terminator) :
    (s.terminated term).draft.terminators = s.draft.terminators ++ [term] :=
  s.terminators_edited (.terminate term)

/-- After `terminated`, the script leads to the successors of the terminator. -/
theorem targets_terminated (s : Emission) (term : Terminator) (hl : l ∈ term.successors) :
    (s.terminated term).Targets l := by
  refine ⟨term, ?_, hl⟩
  rw [terminators_terminated]
  exact List.mem_append_right _ (List.mem_singleton_self term)

/-- The ways between blocks, `HasEdge`, are those of the script. -/
theorem targets_of_hasEdge {source : Nat} (h : HasEdge s.build.blocks source l) :
    s.Targets l := by
  obtain ⟨b, term, hb, hterm, hl⟩ := h
  have hrun : s.build = s.draft.script.toList.foldl Builder.apply (.start "" [] .void "" none) := by
    rw [Array.foldl_toList]
    rfl
  rw [hrun] at hb
  rcases Builder.terminate_mem_of_foldl hb hterm with ⟨d, hd, hterm'⟩ | hmem
  · obtain rfl : d = { name := "" } := by
      simpa [Builder.start] using Array.mem_of_getElem? hd
    cases hterm'
  · exact ⟨term, List.mem_filterMap.mpr ⟨_, hmem, rfl⟩, hl⟩

/-- Every one of `Draft.terminators` is the terminator of a block. -/
def IsFaithful (s : Emission) : Prop :=
  ∀ term ∈ s.draft.terminators,
    ∃ (l : Nat) (b : Block), s.build.blocks[l]? = some b ∧ b.terminator = some term

/-- In a faithful emission the terminators of the script are ways between blocks. -/
theorem IsFaithful.hasEdge (h : s.IsFaithful) (hl : s.Targets l) :
    ∃ source, HasEdge s.build.blocks source l := by
  obtain ⟨term, hterm, hl⟩ := hl
  obtain ⟨source, b, hb, hend⟩ := h term hterm
  exact ⟨source, b, term, hb, hend, hl⟩

/-- Blocks that were not worked on, as `Works` has it, lead where they led. -/
theorem Works.hasEdge (h : s.Works t) {source target : Nat} (hlt : source < s.draft.blocks)
    (hne : source ≠ s.build.cursor) (hedge : HasEdge t.build.blocks source target) :
    HasEdge s.build.blocks source target := by
  unfold HasEdge at hedge
  rw [h.kept source hlt hne] at hedge
  exact hedge

/-! ## Blocks that have ended -/

/-- A block that has ended. -/
def HasEnded (s : Emission) (label : Nat) : Prop :=
  ∃ b term, s.build.blocks[label]? = some b ∧ b.terminator = some term

/-- A block that has ended stays so, since blocks only grow. -/
theorem HasEnded.precede (h : s.HasEnded l) (hst : Precede s.build.blocks t.build.blocks) :
    t.HasEnded l := by
  obtain ⟨b, term, hb, hterm⟩ := h
  obtain ⟨c, hc, -, hend⟩ := hst l b hb
  exact ⟨c, term, hc, (hend term hterm).2⟩

/-- Where `IsOpen` holds, the current block takes the terminator that it is given. -/
theorem IsOpen.ended (hs : s.IsOpen) (term : Terminator) :
    ∃ b, (s.terminated term).build.blocks[s.build.cursor]? = some b
      ∧ b.terminator = some term := by
  obtain ⟨b, hb, hopen⟩ := hs.here
  exact ⟨b.terminate term, getElem?_terminated hb term, by simp [Block.terminate, hopen]⟩

theorem IsOpen.hasEnded_terminated (hs : s.IsOpen) (term : Terminator) :
    (s.terminated term).HasEnded s.build.cursor := by
  obtain ⟨b, hb, hterm⟩ := hs.ended term
  exact ⟨b, term, hb, hterm⟩

/-- A block that has ended is not blank, so it is none of those to come. -/
theorem HasEnded.not_isBlank (h : s.HasEnded l) : ¬ s.IsBlank l := by
  rintro ⟨b, hb, -, hopen⟩
  obtain ⟨b', term, hb', hterm⟩ := h
  obtain rfl := Option.some.inj (hb.symm.trans hb')
  rw [hopen] at hterm
  cases hterm

theorem IsOpen.isOpen_build (hs : s.IsOpen) : s.build.isOpen = true := by
  obtain ⟨b, hb, hopen⟩ := hs.here
  rw [Builder.isOpen, hb, Option.map_some, hopen]
  rfl

end Emission

/-! ## Outlines -/

/-- An emission, and the blocks that it has added and still has to go to. -/
structure Outline where
  emission : Emission
  pending : List Nat

namespace Outline

/-- What an outline can do next. -/
inductive Step (B : Bounds) : Outline → Outline → Prop
  | extend {s t : Emission} {P : List Nat} (h : s.Extends t) : Step B ⟨s, P⟩ ⟨t, P⟩
  /-- A block is added, which is still to come. -/
  | block (s : Emission) (P : List Nat) {name : String} (hname : name ∉ tailNames) :
    Step B ⟨s, P⟩ ⟨s.withBlock name, s.draft.blocks :: P⟩
  /-- The current block ends, and one that was to come begins, to which some block leads. -/
  | turn {s : Emission} {P Q : List Nat} {term : Terminator} {l : Nat} (hl : P.Perm (l :: Q))
    (haims : s.Aims B term) (htarget : (s.terminated term).Targets l) :
    Step B ⟨s, P⟩ ⟨(s.terminated term).moved l, Q⟩
  /-- The current block ends, and one begins that nothing leads to. -/
  | leave {s : Emission} {P : List Nat} {term : Terminator} {name : String}
    (hexit : B.exits) (hname : name ∈ tailNames) (haims : s.Aims B term) :
    Step B ⟨s, P⟩ ⟨((s.terminated term).withBlock name).moved s.draft.blocks, P⟩

variable {B : Bounds} {x y z : Outline}

/-- A `Step` within some bounds is one within bounds that allow more exits. -/
theorem Step.mono {floor : Nat} {outer : Nat → Prop} {exits exits' : Prop}
    (hexits : exits → exits') (h : x.Step ⟨floor, outer, exits⟩ y) :
    x.Step ⟨floor, outer, exits'⟩ y := by
  cases h with
  | extend h => exact .extend h
  | block s P hname => exact .block s P hname
  | turn hl haims htarget => exact .turn hl haims htarget
  | leave hexit hname haims => exact .leave (hexits hexit) hname haims

/-- A `Step` of an outline is made of steps of `Emission.Changes`. -/
theorem Step.changes (h : x.Step B y) : ReflTransGen Emission.Changes x.emission y.emission := by
  cases h with
  | extend h => exact .single (.extend h)
  | block s P hname => exact .single (.block s _)
  | turn hl haims htarget => exact .tail (.single (.terminate _ _)) (.move _ _)
  | leave hexit hname haims =>
    exact .tail (.tail (.single (.terminate _ _)) (.block _ _)) (.move _ _)

theorem Step.script (h : x.Step B y) :
    x.emission.draft.script.toList <+: y.emission.draft.script.toList :=
  Emission.script_of_changes h.changes

/-- The current block `IsOpen`, and the blocks that are still to come are blank. -/
structure IsSound (x : Outline) : Prop where
  isOpen : x.emission.IsOpen
  nodup : x.pending.Nodup
  awaits : ∀ l ∈ x.pending, x.emission.Awaits l

/-- In a sound outline the blocks to come are among those that were added. -/
theorem IsSound.lt (hx : x.IsSound) {l : Nat} (hl : l ∈ x.pending) :
    l < x.emission.draft.blocks :=
  (hx.awaits l hl).isBlank.lt hx.isOpen.count

/-- A block of `pending` becomes the current one, and the others are still to come. -/
theorem IsSound.turns {s : Emission} {P Q : List Nat} {l : Nat} (hx : IsSound ⟨s, P⟩)
    (hl : P.Perm (l :: Q)) (term : Terminator) :
    s.Turns term l ((s.terminated term).moved l) ∧ IsSound ⟨(s.terminated term).moved l, Q⟩ := by
  have hnodup := List.nodup_cons.mp (hl.nodup_iff.mp hx.nodup)
  have hawaits : ∀ l' ∈ l :: Q, s.Awaits l' := fun l' hl' => hx.awaits l' (hl.mem_iff.mpr hl')
  have hturns := (hawaits l List.mem_cons_self).turns hx.isOpen term
  refine ⟨hturns, hturns.isOpen, hnodup.2, ?_⟩
  intro l' hl'
  have hne : l' ≠ l := by
    rintro rfl
    exact hnodup.1 hl'
  exact (hawaits l' (List.mem_cons_of_mem l hl')).turned hx.isOpen hne term

/-- Behind an early exit the outline stays sound: the new block is the current one. -/
theorem IsSound.leaves {s : Emission} {P : List Nat} (hx : IsSound ⟨s, P⟩) (term : Terminator)
    (name : String) :
    IsSound ⟨((s.terminated term).withBlock name).moved s.draft.blocks, P⟩ := by
  have hturns := hx.isOpen.turns_leave term name
  refine ⟨hturns.isOpen, hx.nodup, ?_⟩
  intro l hl
  have hlt : l < s.draft.blocks := hx.lt hl
  have hl' : s.Awaits l := hx.awaits l hl
  refine ⟨hturns.works.isBlank hl'.isBlank hlt hl'.ne, ?_⟩
  rw [hturns.cursor]
  exact hlt.ne

/-- `IsSound` is an invariant of `Step`. -/
theorem IsSound.step (hx : x.IsSound) (h : x.Step B y) : y.IsSound := by
  cases h with
  | extend h =>
    obtain ⟨code, hcode⟩ := Emission.exists_adds (.single h)
    have hweaves := hx.isOpen.weaves_adds hcode
    exact ⟨hweaves.isOpen, hx.nodup, fun l hl => (hx.awaits l hl).weaves hx.isOpen hweaves⟩
  | @block s P name hname =>
    have hs : s.IsOpen := hx.isOpen
    have hprepares := hs.prepares_withBlock name
    refine ⟨hprepares.isOpen hs, List.nodup_cons.mpr ⟨?_, hx.nodup⟩, ?_⟩
    · intro hmem
      exact absurd (hx.lt hmem) (Nat.lt_irrefl _)
    · intro l hl
      rcases List.mem_cons.mp hl with rfl | hl
      · exact hs.awaits_withBlock _
      · exact (hx.awaits l hl).prepares hs hprepares
  | turn hl haims htarget => exact (hx.turns hl _).2
  | leave hexit hname haims => exact hx.leaves _ _

/-- A `Step` works on the current block and on new ones. -/
theorem IsSound.works (hx : x.IsSound) (h : x.Step B y) : x.emission.Works y.emission := by
  cases h with
  | extend h =>
    obtain ⟨code, hcode⟩ := Emission.exists_adds (.single h)
    exact hx.isOpen.works_adds hcode
  | block s P hname => exact Emission.works_withBlock hx.isOpen.count _
  | turn hl haims htarget => exact (hx.turns hl _).1.works
  | leave hexit hname haims => exact (hx.isOpen.turns_leave _ _).works

/-- `IsSound` holds along every run of steps. -/
theorem IsSound.steps (hx : x.IsSound) (h : ReflTransGen (Step B) x y) : y.IsSound := by
  induction h with
  | refl => exact hx
  | tail _ hstep ih => exact ih.step hstep

end Outline

/-! ## No edit is in vain -/

/-- What `Emission.build` has gained is what the new edits of the script make. -/
theorem Emission.build_of_script {s t : Emission} {edits : List Edit}
    (h : t.draft.script.toList = s.draft.script.toList ++ edits) :
    t.build = edits.foldl Builder.apply s.build := by
  show t.draft.script.foldl _ _ = edits.foldl _ (s.draft.script.foldl _ _)
  rw [← Array.foldl_toList, ← Array.foldl_toList, h, List.foldl_append]

/-- A later state of an emission; all edits since then took effect, by `takesAll`. -/
def Emission.Takes (s t : Emission) : Prop :=
  ∃ edits, t.draft.script.toList = s.draft.script.toList ++ edits ∧ s.build.takesAll edits = true

namespace Emission.Takes

variable {s t u : Emission}

theorem refl (s : Emission) : s.Takes s :=
  ⟨[], (List.append_nil _).symm, rfl⟩

/-- `Takes` composes: if all edits took effect up to the middle and from there on, all did. -/
theorem trans (h : s.Takes t) (h' : t.Takes u) : s.Takes u := by
  obtain ⟨first, hfirst, htaken⟩ := h
  obtain ⟨second, hsecond, htaken'⟩ := h'
  refine ⟨first ++ second, by rw [hsecond, hfirst, List.append_assoc], ?_⟩
  rw [Builder.takesAll_append, htaken, ← build_of_script hfirst, htaken']
  rfl

theorem edited {e : Edit} (h : s.build.takes e = true) : s.Takes (s.edited e) := by
  refine ⟨[e], Array.toList_push, ?_⟩
  rw [Builder.takesAll, Builder.takesAll, h]
  rfl

/-- Where the current block is open, its terminator takes effect. -/
theorem terminated (hs : s.IsOpen) (term : Terminator) : s.Takes (s.terminated term) :=
  .edited (e := .terminate term) hs.isOpen_build

end Emission.Takes

namespace Outline

variable {B : Bounds} {x y z : Outline}

/-- In a sound outline every edit of a `Step` takes effect. -/
theorem IsSound.takes_step (hx : x.IsSound) (h : x.Step B y) : x.emission.Takes y.emission := by
  have hopen := hx.isOpen.isOpen_build
  cases h with
  | extend h =>
    cases h with
    | push h => exact .edited hopen
    | define h hcell =>
      -- drawing a temporary changes nothing of the function under construction
      exact Emission.Takes.edited (s := Emission.drawn _) hopen
    | string text => exact .refl _
  | block s P hname => exact Emission.Takes.edited rfl
  | turn hl haims htarget => exact .trans (.terminated hx.isOpen _) (.edited rfl)
  | leave hexit hname haims =>
    exact .trans (.trans (.terminated hx.isOpen _) (Emission.Takes.edited rfl)) (.edited rfl)

/-- In a sound outline every edit of a run takes effect, so `Builder.takes` never fails. -/
theorem IsSound.takes (hx : x.IsSound) (h : ReflTransGen (Step B) x y) :
    x.emission.Takes y.emission := by
  induction h with
  | refl => exact .refl _
  | tail hsteps hstep ih => exact ih.trans ((hx.steps hsteps).takes_step hstep)

/-! ## Blocks end one after the other -/

/-- From block `n` on, all blocks but the current one and those to come have ended. -/
def EndsFrom (n : Nat) (x : Outline) : Prop :=
  ∀ l, n ≤ l → l < x.emission.draft.blocks →
    l = x.emission.build.cursor ∨ l ∈ x.pending ∨ x.emission.HasEnded l

/-- `EndsFrom` is an invariant of `Step`: the block that is left has ended. -/
theorem EndsFrom.step {n : Nat} (h : x.EndsFrom n) (hx : x.IsSound) (hstep : x.Step B y) :
    y.EndsFrom n := by
  have hprecede := (hx.works hstep).precede
  intro l hn hl
  cases hstep with
  | @extend s t P hext =>
    obtain ⟨code, hcode⟩ := Emission.exists_adds (.single hext)
    have hlt : l < s.draft.blocks := hcode.blocks ▸ hl
    rcases h l hn hlt with hcursor | hpending | hended
    · exact .inl (hcursor.trans hcode.build_eq.1.symm)
    · exact .inr (.inl hpending)
    · exact .inr (.inr (hended.precede hprecede))
  | @block s P name hname =>
    have hs : s.IsOpen := hx.isOpen
    rcases Nat.lt_succ_iff_lt_or_eq.mp hl with hlt | rfl
    · rcases h l hn hlt with hcursor | hpending | hended
      · exact .inl (hcursor.trans (hs.prepares_withBlock name).cursor.symm)
      · exact .inr (.inl (List.mem_cons_of_mem _ hpending))
      · exact .inr (.inr (hended.precede hprecede))
    -- the new block is not begun yet
    · exact .inr (.inl List.mem_cons_self)
  | @turn s P Q term target hperm haims htarget =>
    have hs : s.IsOpen := hx.isOpen
    rcases h l hn hl with rfl | hpending | hended
    -- the block that was current ends with this jump
    · refine .inr (.inr ?_)
      exact (hs.hasEnded_terminated term).precede (by rw [Emission.blocks_moved]; exact .refl _)
    · rcases List.mem_cons.mp (hperm.mem_iff.mp hpending) with rfl | hmem
      · exact .inl (Emission.cursor_moved _ _).symm
      · exact .inr (.inl hmem)
    · exact .inr (.inr (hended.precede hprecede))
  | @leave s P term name hexit hname haims =>
    have hs : s.IsOpen := hx.isOpen
    rcases Nat.lt_succ_iff_lt_or_eq.mp hl with hlt | rfl
    · rcases h l hn hlt with rfl | hpending | hended
      · have hended := hs.works_terminated term
        have hadded := Emission.works_withBlock hended.count name
        refine .inr (.inr ((hs.hasEnded_terminated term).precede ?_))
        rw [Emission.blocks_moved]
        exact hadded.precede
      · exact .inr (.inl hpending)
      · exact .inr (.inr (hended.precede hprecede))
    · exact .inl (Emission.cursor_moved _ _).symm

theorem EndsFrom.steps {n : Nat} (h : x.EndsFrom n) (hx : x.IsSound)
    (hsteps : ReflTransGen (Step B) x y) : y.EndsFrom n := by
  induction hsteps with
  | refl => exact h
  | tail hbefore hstep ih => exact ih.step (hx.steps hbefore) hstep

/-! ## All blocks are reached -/

/-- The first block, or one that `IsTail`. -/
def IsRoot (s : Emission) (label : Nat) : Prop :=
  label = 0 ∨ s.IsTail label

/-- An outline in which jumps lead to blocks that were added for them, and in which the blocks with
`IsRoot` lead to all blocks but those that are still to come. -/
structure IsRooted (B : Bounds) (x : Outline) : Prop where
  faithful : x.emission.IsFaithful
  lands : ∀ l, x.emission.Targets l → x.emission.Admits B l
  rooted : ∀ l < x.emission.draft.blocks, l ∉ x.pending →
    ∃ r, IsRoot x.emission r ∧ ReflTransGen (HasEdge x.emission.build.blocks) r l

/-- Only early exits make tails, so without `exits` there are no new ones. -/
theorem Step.tails {l : Nat} (h : x.Step B y) (hl : y.emission.IsTail l) :
    x.emission.IsTail l ∨ B.exits := by
  obtain ⟨k, name, hk, hname, htail⟩ := hl
  have hkept (hsame : y.emission.draft.blockNames = x.emission.draft.blockNames) :
      x.emission.IsTail l ∨ B.exits :=
    .inl ⟨k, name, hk, hsame ▸ hname, htail⟩
  cases h with
  | extend h => exact hkept h.blockNames
  | @block s P base hbase =>
    have hnames := s.blockNames_edited (.addBlock (base ++ "." ++ toString s.stock.labels))
    rw [show (s.withBlock base).draft.blockNames = _ from hnames] at hname
    by_cases hlt : k < s.draft.blockNames.length
    · rw [List.getElem?_append_left hlt] at hname
      exact .inl ⟨k, name, hk, hname, htail⟩
    · -- the block is the new one, which is no tail
      rw [List.getElem?_append_right (Nat.not_lt.mp hlt)] at hname
      rw [List.mem_singleton.mp (List.mem_of_getElem? hname)] at htail
      exact absurd (isTailName_label.mp htail) hbase
  | @turn s P Q term l hl haims htarget =>
    have hmoved := (s.terminated term).blockNames_edited_of_none (e := .switchTo l) rfl
    exact hkept (hmoved.trans (s.blockNames_edited_of_none rfl))
  | leave hexit hname haims => exact .inr hexit

/-- A `Step` makes no jump, or it ends the current block and leads to blocks that were added for
that. -/
theorem IsSound.terminators_step (hx : x.IsSound) (h : x.Step B y) :
    y.emission.draft.terminators = x.emission.draft.terminators
      ∨ ∃ term, y.emission.draft.terminators = x.emission.draft.terminators ++ [term]
        ∧ x.emission.Aims B term
        ∧ Precede (x.emission.terminated term).build.blocks y.emission.build.blocks := by
  cases h with
  | extend h => exact .inl h.terminators
  | block s P hname => exact .inl (s.terminators_edited_of_none rfl)
  | @turn s P Q term l hl haims htarget =>
    refine .inr ⟨term, ?_, haims, ?_⟩
    · have hmoved := (s.terminated term).terminators_edited_of_none (e := .switchTo l) rfl
      exact hmoved.trans (s.terminators_terminated term)
    · rw [Emission.blocks_moved]
      exact .refl _
  | @leave s P term name hexit hname haims =>
    have hs : s.IsOpen := hx.isOpen
    refine .inr ⟨term, ?_, haims, ?_⟩
    · have hblock : ((s.terminated term).withBlock name).draft.terminators
          = (s.terminated term).draft.terminators :=
        (s.terminated term).terminators_edited_of_none rfl
      have hmoved := ((s.terminated term).withBlock name).terminators_edited_of_none
        (e := .switchTo s.draft.blocks) rfl
      exact (hmoved.trans hblock).trans (s.terminators_terminated term)
    · rw [Emission.blocks_moved]
      exact (Emission.works_withBlock (hs.works_terminated term).count name).precede

/-- `IsFaithful` is an invariant of `Step`, since no terminator meets a block that has ended. -/
theorem IsSound.faithful_step (hx : x.IsSound) (h : x.Step B y) (hf : x.emission.IsFaithful) :
    y.emission.IsFaithful := by
  have hold : ∀ term ∈ x.emission.draft.terminators, ∃ (l : Nat) (b : Block),
      y.emission.build.blocks[l]? = some b ∧ b.terminator = some term := by
    intro term hterm
    obtain ⟨l, b, hb, hend⟩ := hf term hterm
    obtain ⟨c, hc, -, hkept⟩ := (hx.works h).precede l b hb
    exact ⟨l, c, hc, (hkept term hend).2⟩
  intro term hterm
  rcases hx.terminators_step h with hsame | ⟨term', hnew, -, hprecede⟩
  · exact hold term (hsame ▸ hterm)
  · rw [hnew] at hterm
    rcases List.mem_append.mp hterm with hterm | hterm
    · exact hold term hterm
    · obtain rfl := List.mem_singleton.mp hterm
      obtain ⟨b, hb, hend⟩ := hx.isOpen.ended term
      obtain ⟨c, hc, -, hkept⟩ := hprecede _ b hb
      exact ⟨_, c, hc, (hkept term hend).2⟩

/-- All targets stay within the `Bounds` of the code. -/
theorem IsSound.lands_step (hx : x.IsSound) (h : x.Step B y)
    (hlands : ∀ l, x.emission.Targets l → x.emission.Admits B l) {l : Nat}
    (hl : y.emission.Targets l) : y.emission.Admits B l := by
  obtain ⟨term, hterm, hmem⟩ := hl
  rcases hx.terminators_step h with hsame | ⟨term', hnew, haims, -⟩
  · exact (hlands l ⟨term, hsame ▸ hterm, hmem⟩).mono h.script
  · rw [hnew] at hterm
    rcases List.mem_append.mp hterm with hterm | hterm
    · exact (hlands l ⟨term, hterm, hmem⟩).mono h.script
    · obtain rfl := List.mem_singleton.mp hterm
      exact (haims l hmem).mono h.script

/-- A new way between blocks leads to where `Admits` allows jumps. -/
theorem IsSound.hasEdge_step (hx : x.IsSound) (h : x.Step B y) {source target : Nat}
    (hedge : HasEdge y.emission.build.blocks source target) :
    HasEdge x.emission.build.blocks source target ∨ y.emission.Admits B target := by
  obtain ⟨b, term, hb, hterm, htarget⟩ := hedge
  obtain ⟨edits, hedits⟩ := h.script
  rw [Emission.build_of_script hedits.symm] at hb
  rcases Builder.terminate_mem_of_foldl hb hterm with ⟨d, hd, hend⟩ | hmem
  · exact .inl ⟨d, term, hd, hend, htarget⟩
  · right
    have hnew : term ∈ edits.filterMap Edit.terminator? := List.mem_filterMap.mpr ⟨_, hmem, rfl⟩
    have hterminators : y.emission.draft.terminators
        = x.emission.draft.terminators ++ edits.filterMap Edit.terminator? := by
      rw [Draft.terminators, ← hedits, List.filterMap_append]
      rfl
    rcases hx.terminators_step h with hsame | ⟨term', hadded, haims, -⟩
    · rw [List.append_right_eq_self.mp (hterminators.symm.trans hsame)] at hnew
      cases hnew
    · rw [List.append_cancel_left (hterminators.symm.trans hadded)] at hnew
      obtain rfl := List.mem_singleton.mp hnew
      exact (haims target htarget).mono h.script

/-- After any run of steps a way between blocks is an old one, or leads to where `Admits` allows
jumps. -/
theorem IsSound.hasEdge_steps (hx : x.IsSound) (h : ReflTransGen (Step B) x y)
    {source target : Nat} (hedge : HasEdge y.emission.build.blocks source target) :
    HasEdge x.emission.build.blocks source target ∨ y.emission.Admits B target := by
  induction h with
  | refl => exact .inl hedge
  | tail hbefore hstep ih =>
    rcases (hx.steps hbefore).hasEdge_step hstep hedge with hedge | hadmits
    · exact (ih hedge).imp_right (·.mono hstep.script)
    · exact .inr hadmits

/-- What was reached from an `IsRoot` block stays so. -/
theorem IsSound.rooted_mono (hx : x.IsSound) (h : x.Step B y) {r l : Nat}
    (hr : IsRoot x.emission r)
    (hpath : ReflTransGen (HasEdge x.emission.build.blocks) r l) :
    IsRoot y.emission r ∧ ReflTransGen (HasEdge y.emission.build.blocks) r l := by
  refine ⟨hr.imp_right (·.mono h.script), ?_⟩
  exact ReflTransGen.mono (fun _ _ => HasEdge.precede (hx.works h).precede) _ _ hpath

/-- A block that begins is reached, as `IsRooted` wants: some block leads to it, which has ended and
so was reached before. -/
theorem IsRooted.turn {s : Emission} {P Q : List Nat} {term : Terminator} {l : Nat}
    (h : IsRooted B ⟨s, P⟩) (hx : IsSound ⟨s, P⟩)
    (hstep : Step B ⟨s, P⟩ ⟨(s.terminated term).moved l, Q⟩)
    (hperm : P.Perm (l :: Q)) (htarget : (s.terminated term).Targets l) :
    ∃ r, IsRoot ((s.terminated term).moved l) r
      ∧ ReflTransGen (HasEdge ((s.terminated term).moved l).build.blocks) r l := by
  have hy := hx.step hstep
  have hfaithful : ((s.terminated term).moved l).IsFaithful := hx.faithful_step hstep h.faithful
  have htarget' : ((s.terminated term).moved l).Targets l :=
    htarget.mono (Emission.script_of_changes (.single (.move _ _)))
  obtain ⟨source, hedge⟩ := hfaithful.hasEdge htarget'
  obtain ⟨b, term', hb, hterm, hmem⟩ := hedge
  have hended : ((s.terminated term).moved l).HasEnded source := ⟨b, term', hb, hterm⟩
  -- so it is none of those that begin now or later
  have hnew : source ≠ l := by
    rintro rfl
    exact hended.not_isBlank (hx.turns hperm term).1.isBlank
  have hpending : source ∉ P := by
    intro hsource
    rcases List.mem_cons.mp (hperm.mem_iff.mp hsource) with rfl | hsource
    · exact hnew rfl
    · exact hended.not_isBlank (hy.awaits source hsource).isBlank
  have hlt : source < s.draft.blocks := by
    have hcount := hy.isOpen.count
    have hsize : source < ((s.terminated term).moved l).build.blocks.size :=
      (Array.getElem?_eq_some_iff.mp hb).1
    exact hcount ▸ hsize
  obtain ⟨r, hr, hpath⟩ := h.rooted source hlt hpending
  obtain ⟨hr, hpath⟩ := hx.rooted_mono hstep hr hpath
  exact ⟨r, hr, hpath.tail ⟨b, term', hb, hterm, hmem⟩⟩

/-- `IsRooted` is an invariant of `Step`. -/
theorem IsRooted.step (h : x.IsRooted B) (hx : x.IsSound) (hstep : x.Step B y) : y.IsRooted B := by
  refine ⟨hx.faithful_step hstep h.faithful, fun l hl => hx.lands_step hstep h.lands hl, ?_⟩
  have hold : ∀ l < x.emission.draft.blocks, l ∉ x.pending →
      ∃ r, IsRoot y.emission r ∧ ReflTransGen (HasEdge y.emission.build.blocks) r l := by
    intro l hl hpending
    obtain ⟨r, hr, hpath⟩ := h.rooted l hl hpending
    exact ⟨r, hx.rooted_mono hstep hr hpath⟩
  intro l hl hpending
  cases hstep with
  | extend hext =>
    obtain ⟨code, hcode⟩ := Emission.exists_adds (.single hext)
    exact hold l (hcode.blocks ▸ hl) hpending
  | block s P hname =>
    rcases Nat.lt_succ_iff_lt_or_eq.mp hl with hlt | rfl
    · exact hold l hlt fun hmem => hpending (List.mem_cons_of_mem _ hmem)
    · exact absurd List.mem_cons_self hpending
  | @turn s P Q term target hperm haims htarget =>
    by_cases htaken : l = target
    · subst htaken
      exact h.turn hx (.turn hperm haims htarget) hperm htarget
    · refine hold l hl fun hmem => ?_
      rcases List.mem_cons.mp (hperm.mem_iff.mp hmem) with rfl | hmem
      · exact htaken rfl
      · exact hpending hmem
  | @leave s P term name hexit hname haims =>
    rcases Nat.lt_succ_iff_lt_or_eq.mp hl with hlt | rfl
    · exact hold l hlt hpending
    · -- the block is one of those that take what stands behind an early exit
      have hs : s.IsOpen := hx.isOpen
      have hcounted := hs.counted.of_changes (.single (.terminate s term))
      have htail : ((s.terminated term).withBlock name).IsTail s.draft.blocks :=
        Emission.isTail_withBlock hcounted hname
      exact ⟨_, .inr (htail.mono (Emission.script_of_changes (.single (.move _ _)))), .refl⟩

/-- `IsRooted` holds along every run of steps. -/
theorem IsRooted.steps (h : x.IsRooted B) (hx : x.IsSound) (hsteps : ReflTransGen (Step B) x y) :
    y.IsRooted B := by
  induction hsteps with
  | refl => exact h
  | tail hbefore hstep ih => exact ih.step (hx.steps hbefore) hstep

end Outline

end Oberon
