import Mathlib.Data.List.Induction
import Oberon.Proofs.Orderly

/-!
# What a script builds

While a script is carried out, the cursor goes from block to block and comes back to some of them,
and cells are reserved in the first block wherever the cursor is. What becomes of a block can be
read off the script: the edits made while the cursor was on the block give its code and its end, in
the order in which they stand. Cells come before all other code of the first block, in the order in
which they are reserved, however late that is.
-/

namespace Oberon.Code

namespace Edit

/-- The block to which an edit moves the cursor. -/
def target? : Edit → Option Nat
  | .switchTo label => some label
  | .addBlock _ | .push _ | .pushEntry _ | .terminate _ => none

/-- The instruction that an edit adds to the block at the cursor. -/
def instr? : Edit → Option Instr
  | .push i => some i
  | .addBlock _ | .switchTo _ | .pushEntry _ | .terminate _ => none

/-- The instruction that an edit adds to the first block, wherever the cursor is. -/
def cell? : Edit → Option Instr
  | .pushEntry i => some i
  | .addBlock _ | .switchTo _ | .push _ | .terminate _ => none

variable {e : Edit} {i : Instr}

theorem instr?_eq_some : e.instr? = some i ↔ e = .push i := by
  cases e <;> simp [instr?]

theorem cell?_eq_some : e.cell? = some i ↔ e = .pushEntry i := by
  cases e <;> simp [cell?]

end Edit

namespace Script

/-! ## Reading a script -/

/-- The edits of a script, each behind those made before it. -/
def steps (script : List Edit) : List (List Edit × Edit) :=
  script.zipIdx.map fun x => (script.take x.2, x.1)

/-- Where a script leaves the cursor: at the block to which it moved it last, or at the first. -/
def cursor (script : List Edit) : Nat :=
  (script.filterMap Edit.target?).getLastD 0

/-- What the edits made while the cursor was on a block stand for, as far as `f` reads them. -/
def collect {α : Type} (f : Edit → Option α) (script : List Edit) (label : Nat) : List α :=
  (steps script).filterMap fun x => if cursor x.1 = label then f x.2 else none

/-- The instructions pushed while the cursor was on a block, which `collect` reads. -/
def code (script : List Edit) (label : Nat) : List Instr :=
  collect Edit.instr? script label

/-- The terminators issued while the cursor was on a block, which `collect` reads. -/
def ends (script : List Edit) (label : Nat) : List Terminator :=
  collect Edit.terminator? script label

/-- The cells that a script reserves. -/
def cells (script : List Edit) : List Instr :=
  script.filterMap Edit.cell?

/-- The names of the blocks that a script adds. -/
def blockNames (script : List Edit) : List String :=
  script.filterMap Edit.blockName?

/-- Whether an edit may follow a script: the cursor moves only to blocks that are there, what is put
into the first block from elsewhere is a cell, and cells come in no other way. -/
def admits (script : List Edit) : Edit → Bool
  | .switchTo label => label < (blockNames script).length + 1
  | .push i => !i.isAlloca
  | .pushEntry i => i.isAlloca
  | .addBlock _ | .terminate _ => true

/-- Every edit may follow those before it, as `admits` decides. -/
def IsSound (script : List Edit) : Prop :=
  ∀ x ∈ steps script, admits x.1 x.2 = true

instance (script : List Edit) : Decidable (IsSound script) :=
  inferInstanceAs (Decidable (∀ x ∈ steps script, admits x.1 x.2 = true))

variable {script : List Edit} {e : Edit} {label : Nat}

/-- `steps` of one more edit, which comes after all others. -/
theorem steps_concat (script : List Edit) (e : Edit) :
    steps (script ++ [e]) = steps script ++ [(script, e)] := by
  -- what stands before the earlier edits is the same
  have hbefore : script.zipIdx.map (fun x => ((script ++ [e]).take x.2, x.1))
      = script.zipIdx.map fun x => (script.take x.2, x.1) := by
    apply List.map_congr_left
    intro x hx
    have hlt : x.2 < 0 + script.length := List.snd_lt_add_of_mem_zipIdx hx
    rw [List.take_append_of_le_length (by omega)]
  unfold steps
  rw [List.zipIdx_append, List.map_append, hbefore]
  simp

/-- Every edit of a script is one of its `steps`. -/
theorem exists_mem_steps (h : e ∈ script) : ∃ before, (before, e) ∈ steps script := by
  obtain ⟨n, hn⟩ := List.mem_iff_getElem?.mp h
  refine ⟨script.take n, ?_⟩
  unfold steps
  exact List.mem_map.mpr ⟨(e, n), List.mem_zipIdx_iff_getElem?.mpr hn, rfl⟩

/-- The `cursor` after one more edit, which may have moved it. -/
theorem cursor_concat (script : List Edit) (e : Edit) :
    cursor (script ++ [e]) = e.target?.getD (cursor script) := by
  unfold cursor
  rw [filterMap_concat]
  cases e.target? <;> simp

/-- One more edit is read by `collect` where the cursor is. -/
theorem collect_concat {α : Type} (f : Edit → Option α) (script : List Edit) (e : Edit)
    (label : Nat) : collect f (script ++ [e]) label
      = collect f script label ++ (if cursor script = label then f e else none).toList := by
  unfold collect
  rw [steps_concat, List.filterMap_append]
  by_cases hcursor : cursor script = label
  · cases h : f e <;> simp [hcursor, h]
  · simp [hcursor]

theorem IsSound.of_concat (h : IsSound (script ++ [e])) :
    IsSound script ∧ admits script e = true := by
  unfold IsSound at h
  rw [steps_concat, List.forall_mem_append] at h
  exact ⟨h.1, h.2 _ List.mem_cons_self⟩

theorem IsSound.isAlloca_of_mem_cells (h : IsSound script) {i : Instr} (hi : i ∈ cells script) :
    i.isAlloca = true := by
  obtain ⟨e, he, hcell⟩ := List.mem_filterMap.mp hi
  obtain ⟨before, hstep⟩ := exists_mem_steps he
  obtain rfl := Edit.cell?_eq_some.mp hcell
  exact h _ hstep

theorem IsSound.isAlloca_of_mem_code (h : IsSound script) {i : Instr}
    (hi : i ∈ code script label) : i.isAlloca = false := by
  obtain ⟨x, hx, hinstr⟩ := List.mem_filterMap.mp hi
  by_cases hcursor : cursor x.1 = label
  · rw [if_pos hcursor] at hinstr
    have hadmits := h x hx
    rw [Edit.instr?_eq_some.mp hinstr] at hadmits
    simpa [admits] using hadmits
  · rw [if_neg hcursor] at hinstr
    cases hinstr

end Script

/-! ## Blocks under construction -/

namespace Builder

/-- The instructions that a block has so far, none if it is not there. -/
def codeAt (b : Builder) (label : Nat) : List Instr :=
  (b.blocks[label]?.map (·.instrs)).getD []

/-- The terminator that a block has so far. -/
def endAt (b : Builder) (label : Nat) : Option Terminator :=
  b.blocks[label]?.bind (·.terminator)

variable {b : Builder}

/-- `Builder.apply` ends the block at the cursor as the edit is read, unless that block has
ended. -/
theorem endAt_apply (hcursor : b.cursor < b.blocks.size) (e : Edit) (label : Nat) :
    (b.apply e).endAt label
      = (b.endAt label).or (if b.cursor = label then e.terminator? else none) := by
  -- the edits that push change instructions only
  have hkept (place : Nat) (f : Block → Block) (hf : ∀ c, (f c).terminator = c.terminator) :
      ({ b with blocks := b.blocks.modify place f } : Builder).endAt label = b.endAt label := by
    simp only [endAt, Array.getElem?_modify]
    by_cases hplace : place = label
    · rw [if_pos hplace, Option.bind_map]
      exact congrArg (b.blocks[label]?.bind ·) (funext hf)
    · rw [if_neg hplace]
  cases e with
  | addBlock name =>
    simp only [endAt, apply, Array.getElem?_push, Edit.terminator?, ite_self, Option.or_none]
    by_cases hlabel : label = b.blocks.size
    · simp [hlabel]
    · simp [hlabel]
  | switchTo target => simp [endAt, apply, Edit.terminator?]
  | push i =>
    rw [Edit.terminator?, ite_self, Option.or_none]
    exact hkept b.cursor (·.push i) fun _ => rfl
  | pushEntry i =>
    rw [Edit.terminator?, ite_self, Option.or_none]
    exact hkept 0 (·.pushCell i) fun _ => rfl
  | terminate t =>
    simp only [endAt, apply, Array.getElem?_modify, Edit.terminator?]
    by_cases hlabel : b.cursor = label
    · subst hlabel
      simp [Array.getElem?_eq_getElem hcursor, Block.terminate]
    · simp [hlabel]

/-- `Builder.apply` of an edit that reserves no cell adds its code to the block at the cursor. -/
theorem codeAt_apply (hcursor : b.cursor < b.blocks.size) {e : Edit} (he : e.cell? = none)
    (label : Nat) :
    (b.apply e).codeAt label
      = b.codeAt label ++ (if b.cursor = label then e.instr? else none).toList := by
  cases e with
  | addBlock name =>
    simp only [codeAt, apply, Array.getElem?_push, Edit.instr?, ite_self, Option.toList_none,
      List.append_nil]
    -- a new block has no code, as if it were not there
    by_cases hlabel : label = b.blocks.size
    · simp [hlabel]
    · simp [hlabel]
  | switchTo target => simp [codeAt, apply, Edit.instr?]
  | push i =>
    simp only [codeAt, apply, Array.getElem?_modify, Edit.instr?]
    by_cases hlabel : b.cursor = label
    · subst hlabel
      simp [Array.getElem?_eq_getElem hcursor, Block.push]
    · simp [hlabel]
  | pushEntry i => cases he
  | terminate t =>
    simp only [codeAt, apply, Array.getElem?_modify, Edit.instr?]
    by_cases hlabel : b.cursor = label
    · subst hlabel
      simp [Array.getElem?_eq_getElem hcursor, Block.terminate]
    · simp [hlabel]

/-- A `pushEntry` puts its cell behind the other cells of the first block, and before all other
code. -/
theorem codeAt_pushEntry {cells code : List Instr} (hentry : 0 < b.blocks.size)
    (hat : b.codeAt 0 = cells ++ code) (hcells : ∀ i ∈ cells, i.isAlloca = true)
    (hcode : ∀ i ∈ code, i.isAlloca = false) (i : Instr) :
    (b.apply (.pushEntry i)).codeAt 0 = cells ++ [i] ++ code := by
  have htake : code.takeWhile Instr.isAlloca = [] := by
    cases code with
    | nil => rfl
    | cons c rest => simp [hcode c List.mem_cons_self]
  have hdrop : code.dropWhile Instr.isAlloca = code := by
    cases code with
    | nil => rfl
    | cons c rest => simp [hcode c List.mem_cons_self]
  simp only [codeAt, Array.getElem?_eq_getElem hentry, Option.map_some, Option.getD_some] at hat
  simp only [codeAt, apply, Array.getElem?_modify, Array.getElem?_eq_getElem hentry, if_pos,
    Option.map_some, Option.getD_some, Block.pushCell, hat]
  rw [List.takeWhile_append_of_pos hcells, List.dropWhile_append_of_pos hcells, htake, hdrop]
  simp

theorem codeAt_pushEntry_of_ne {label : Nat} (hlabel : label ≠ 0) (i : Instr) :
    (b.apply (.pushEntry i)).codeAt label = b.codeAt label := by
  simp [codeAt, apply, Array.getElem?_modify, Ne.symm hlabel]

/-! ## Builders and scripts -/

/-- A builder whose blocks are as a script describes them, by `Script.code` and `Script.ends`. -/
structure Realises (b : Builder) (script : List Edit) : Prop where
  cursor : b.cursor = Script.cursor script
  size : b.blocks.size = (Script.blockNames script).length + 1
  cursor_lt : b.cursor < b.blocks.size
  ends : ∀ label, b.endAt label = (Script.ends script label).head?
  code : ∀ label, b.codeAt label
    = (if label = 0 then Script.cells script else []) ++ Script.code script label

/-- `Builder.start` realises the empty script. -/
theorem realises_start (name : String) (parameters : List Ty) (result : Ty) (entry : String)
    (origin : Option String) : (start name parameters result entry origin).Realises [] := by
  refine ⟨rfl, rfl, Nat.zero_lt_one, ?_, ?_⟩
  · intro label
    cases label <;> rfl
  · intro label
    cases label <;> rfl

namespace Realises

variable {script : List Edit} {e : Edit}

theorem size_apply (h : b.Realises script) (e : Edit) :
    (b.apply e).blocks.size = (Script.blockNames (script ++ [e])).length + 1 := by
  have hbefore : b.blocks.size = (script.filterMap Edit.blockName?).length + 1 := h.size
  rw [Script.blockNames, filterMap_concat, List.length_append]
  cases e <;> simp [Builder.apply, Edit.blockName?, hbefore]

theorem cursor_lt_apply (h : b.Realises script) (he : Script.admits script e = true) :
    (b.apply e).cursor < (b.apply e).blocks.size := by
  have hbefore := h.cursor_lt
  cases e with
  | addBlock name =>
    simp only [Builder.apply, Array.size_push]
    omega
  | switchTo target =>
    have htarget : target < (Script.blockNames script).length + 1 := of_decide_eq_true he
    show target < b.blocks.size
    rw [h.size]
    exact htarget
  | push i => simpa [Builder.apply] using hbefore
  | pushEntry i => simpa [Builder.apply] using hbefore
  | terminate t => simpa [Builder.apply] using hbefore

/-- One more edit leaves `codeAt` each block what the longer script is read as. -/
theorem code_apply (h : b.Realises script) (hsound : Script.IsSound script) (e : Edit)
    (label : Nat) : (b.apply e).codeAt label
      = (if label = 0 then Script.cells (script ++ [e]) else [])
        ++ Script.code (script ++ [e]) label := by
  cases hcell : e.cell? with
  | none =>
    rw [codeAt_apply h.cursor_lt hcell, h.code, h.cursor, Script.code, Script.code,
      Script.collect_concat, Script.cells, Script.cells, filterMap_concat, hcell]
    simp
  | some i =>
    obtain rfl := Edit.cell?_eq_some.mp hcell
    have hcode : Script.code (script ++ [.pushEntry i]) label = Script.code script label := by
      rw [Script.code, Script.collect_concat]
      simp [Edit.instr?, Script.code]
    rw [hcode]
    by_cases hlabel : label = 0
    · -- the new cell goes between the cells and the code that were there
      subst hlabel
      rw [codeAt_pushEntry (Nat.zero_lt_of_lt h.cursor_lt) (h.code 0)
        (fun _ hi => hsound.isAlloca_of_mem_cells hi) fun _ hi => hsound.isAlloca_of_mem_code hi]
      simp [Script.cells, Edit.cell?]
    · rw [codeAt_pushEntry_of_ne hlabel, h.code, if_neg hlabel, if_neg hlabel]

/-- An edit that `Script.admits` does what it is read as: the builder `Realises` the longer
script. -/
theorem apply (h : b.Realises script) (hsound : Script.IsSound script)
    (he : Script.admits script e = true) : (b.apply e).Realises (script ++ [e]) := by
  constructor
  case cursor =>
    rw [Script.cursor_concat, ← h.cursor]
    cases e <;> rfl
  case size => exact h.size_apply e
  case cursor_lt => exact h.cursor_lt_apply he
  case ends =>
    intro label
    rw [endAt_apply h.cursor_lt, h.ends, Script.ends, Script.ends, Script.collect_concat,
      List.head?_append, h.cursor, Option.head?_toList]
  case code => exact h.code_apply hsound e

end Realises

/-- `Builder.run` realises a sound script. -/
theorem realises_run (hb : b.Realises []) {script : Array Edit}
    (h : Script.IsSound script.toList) : (b.run script).Realises script.toList := by
  rw [run, ← Array.foldl_toList]
  generalize script.toList = edits at h ⊢
  -- what an edit is read as depends on those before it, so the induction adds edits at the end
  induction edits using List.reverseRecOn with
  | nil => exact hb
  | append_singleton edits e ih =>
    obtain ⟨hsound, he⟩ := h.of_concat
    rw [List.foldl_append]
    exact (ih hsound).apply hsound he

theorem mem_unterminated {label : Nat} :
    label ∈ b.unterminated ↔ ∃ c, b.blocks[label]? = some c ∧ c.terminator = none := by
  unfold unterminated
  rw [List.mem_filter, List.mem_range]
  by_cases hlabel : label < b.blocks.size
  · simp [hlabel]
  · simp [Array.getElem?_eq_none (Nat.le_of_not_lt hlabel)]

theorem unterminated_increasing (b : Builder) : b.unterminated.Pairwise (· < ·) :=
  List.pairwise_lt_range.filter _

/-- What a sound script makes of a new function: the first block and those that were added, in the
order in which they were; each ends as it was first ended while the cursor was on it, and has the
code that was pushed meanwhile, the first one behind all cells. The open blocks are those that were
never ended, in increasing order. -/
theorem finish_run_eq {b : Builder} {name entry : String} {parameters : List Ty} {result : Ty}
    {origin : Option String} {script : Array Edit} (hsound : Script.IsSound script.toList)
    (hb : (start name parameters result entry origin).run script = b) :
    b.finish.blockNames = entry :: Script.blockNames script.toList
      ∧ (∀ (label : Nat) (c : Block), b.finish.blocks[label]? = some c →
        c.terminator = (Script.ends script.toList label).head?
          ∧ c.instrs = (if label = 0 then Script.cells script.toList else [])
            ++ Script.code script.toList label)
      ∧ b.unterminated.Pairwise (· < ·)
      ∧ ∀ label, label ∈ b.unterminated
        ↔ ∃ c, b.finish.blocks[label]? = some c ∧ c.terminator = none := by
  subst hb
  have hrun := realises_run (realises_start name parameters result entry origin) hsound
  refine ⟨names_run _ script, ?_, unterminated_increasing _, fun _ => mem_unterminated⟩
  intro label c hc
  have hblock : ((start name parameters result entry origin).run script).blocks[label]? = some c :=
    hc
  have hends := hrun.ends label
  have hcode := hrun.code label
  rw [endAt, hblock] at hends
  rw [codeAt, hblock] at hcode
  exact ⟨hends, hcode⟩

/-- A script that goes to another block and back, reserves a cell in each of them, and tries to end
the first block twice. -/
def roundabout : Array Edit :=
  #[.push (.store (.integer 1) (.temp 0 .ptr)), .addBlock "body", .switchTo 1,
    .pushEntry (.alloca 0 .integer), .push (.load 2 .integer (.temp 0 .ptr)), .addBlock "exit",
    .switchTo 0, .pushEntry (.alloca 1 .integer), .push (.load 3 .integer (.temp 1 .ptr)),
    .terminate (.jump 1), .terminate (.ret none), .switchTo 1, .terminate (.jump 2)]

theorem finish_run_eq_roundabout :
    Script.IsSound roundabout.toList
      ∧ ∃ b, (start "M.P" [] .void "entry" none).run roundabout = b
        ∧ b.finish.blockNames = ["entry", "body", "exit"]
        ∧ (∀ c, b.finish.blocks[0]? = some c → c.terminator = some (.jump 1)
          ∧ c.instrs = [.alloca 0 .integer, .alloca 1 .integer,
            .store (.integer 1) (.temp 0 .ptr), .load 3 .integer (.temp 1 .ptr)])
        ∧ (∀ c, b.finish.blocks[1]? = some c → c.terminator = some (.jump 2)
          ∧ c.instrs = [.load 2 .integer (.temp 0 .ptr)])
        ∧ ∀ c, b.finish.blocks[2]? = some c → c.terminator = none ∧ 2 ∈ b.unterminated := by
  have hsound : Script.IsSound roundabout.toList := by decide
  obtain ⟨hnames, hblocks, -, hopen⟩ :=
    finish_run_eq (b := (start "M.P" [] .void "entry" none).run roundabout) hsound rfl
  refine ⟨hsound, _, rfl, hnames, fun c hc => hblocks 0 c hc, fun c hc => hblocks 1 c hc, ?_⟩
  intro c hc
  have hend : c.terminator = none := (hblocks 2 c hc).1
  exact ⟨hend, (hopen 2).mpr ⟨c, hc, hend⟩⟩

end Builder
end Oberon.Code
