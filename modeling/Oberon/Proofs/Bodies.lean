import Oberon.Proofs.Outlines

/-!
# Bodies

What statements leave behind in the body that they are emitted into. They never add code behind the
end of a block and never lose a terminator, and where every IF has a branch they end all the blocks
that they add but the current one. So a body whose statements are all emitted has one open block,
and what becomes of it is settled: it is the one that gets the return at the end of the function.
-/

namespace Oberon

open Code Relation Emit Emission Outline

theorem emitStatements_append (scene : Scene) (loop : Option Loop) (body rest : List Statement) :
    emitStatements scene loop (body ++ rest)
      = (do emitStatements scene loop body; emitStatements scene loop rest) := by
  induction body with
  | nil => rfl
  | cons s body ih => simp only [List.cons_append, emitStatements, ih, bind_assoc]

namespace Code.Builder

/-- The cursor after `Builder.run` depends on the edits alone. -/
theorem cursor_run {b c : Builder} (h : b.cursor = c.cursor) (script : Array Edit) :
    (b.run script).cursor = (c.run script).cursor := by
  rw [run, run, ← Array.foldl_toList, ← Array.foldl_toList]
  induction script.toList generalizing b c with
  | nil => exact h
  | cons e rest ih =>
    refine ih ?_
    cases e with
    | switchTo label => rfl
    | _ => exact h

variable {b : Builder}

/-- If all blocks but the one at the cursor have ended, this one is all of `unterminated`. -/
theorem unterminated_eq (hopen : b.isOpen = true)
    (hended : ∀ (l : Nat) (c : Block), b.blocks[l]? = some c → l ≠ b.cursor →
      c.terminator.isSome = true) : b.unterminated = [b.cursor] := by
  obtain ⟨c, hc, hcursor⟩ : ∃ c, b.blocks[b.cursor]? = some c ∧ c.terminator.isNone = true := by
    unfold isOpen at hopen
    cases hc : b.blocks[b.cursor]? with
    | none => simp [hc] at hopen
    | some c => exact ⟨c, rfl, by simpa [hc] using hopen⟩
  have hlt : b.cursor < b.blocks.size := (Array.getElem?_eq_some_iff.mp hc).1
  -- so to ask whether a block is open is to ask whether it is the current one
  have htest : ∀ l ∈ List.range b.blocks.size,
      (b.blocks[l]?.map (·.terminator.isNone)).getD false = (l == b.cursor) := by
    intro l hl
    obtain ⟨d, hd⟩ : ∃ d, b.blocks[l]? = some d :=
      ⟨_, Array.getElem?_eq_getElem (List.mem_range.mp hl)⟩
    by_cases hsame : l = b.cursor
    · rw [hsame, hc, Option.map_some, hcursor]
      simp
    · have hsome := hended l d hd hsame
      have hnone : d.terminator.isNone = false := by
        rw [← Option.not_isSome, hsome]
        rfl
      rw [hd, Option.map_some, hnone]
      simp [hsame]
  rw [unterminated, List.filter_congr htest, List.filter_beq,
    List.count_eq_one_of_mem List.nodup_range (List.mem_range.mpr hlt)]
  rfl

/-- If all blocks but the one at the cursor have ended, `closeAll` closes only this one. -/
theorem closeAll_eq (hended : ∀ (l : Nat) (c : Block), b.blocks[l]? = some c → l ≠ b.cursor →
      c.terminator.isSome = true) (term : Terminator) :
    b.closeAll term = b.apply (.terminate term) := by
  have hblocks : b.blocks.map (·.terminate term) = b.blocks.modify b.cursor (·.terminate term) := by
    refine Array.ext_getElem? fun l => ?_
    rw [Array.getElem?_map, Array.getElem?_modify]
    by_cases hl : b.cursor = l
    · rw [if_pos hl]
    · rw [if_neg hl]
      cases hc : b.blocks[l]? with
      | none => rfl
      | some c =>
        obtain ⟨t, ht⟩ := Option.isSome_iff_exists.mp (hended l c hc (Ne.symm hl))
        have hsame : c.terminate term = c := by
          obtain ⟨name, instrs, terminator⟩ := c
          obtain rfl : terminator = some t := ht
          rfl
        rw [Option.map_some, hsame]
  rw [closeAll, hblocks]
  rfl

end Code.Builder

/-- A function of which there is one empty block. -/
structure Code.Builder.IsBegun (b : Builder) : Prop where
  cursor : b.cursor = 0
  blocks : b.blocks.map Block.content = #[([], none)]

theorem Code.Builder.isBegun_start (name : String) (parameters : List Ty) (result : Ty)
    (entry : String) (origin : Option String) :
    (Builder.start name parameters result entry origin).IsBegun :=
  ⟨rfl, by simp [Builder.start, Block.content]⟩

section

variable {start : Builder} (hstart : start.IsBegun) (d : Draft)
include hstart

/-- A draft describes the same blocks for every function that `IsBegun`. -/
theorem Draft.content_run_of_isBegun :
    (start.run d.script).blocks.map Block.content = d.build.blocks.map Block.content :=
  Builder.content_run hstart.cursor
    (hstart.blocks.trans (Builder.isBegun_start "" [] .void "" none).blocks.symm) d.script

theorem Draft.cursor_run : (start.run d.script).cursor = d.build.cursor :=
  Builder.cursor_run hstart.cursor d.script

theorem Draft.exists_content {l : Nat} {c : Block}
    (h : (start.run d.script).blocks[l]? = some c) :
    ∃ b, d.build.blocks[l]? = some b ∧ b.content = c.content := by
  have hcontent := congrArg (·[l]?) (d.content_run_of_isBegun hstart)
  simp only [Array.getElem?_map, h, Option.map_some] at hcontent
  exact Option.map_eq_some_iff.mp hcontent.symm

end

section

variable {scene : Scene} {loop : Option Loop} {body : List Statement} {s t : Emission} {u : Unit}

theorem Emission.HasEnded.not_open (h : s.HasEnded s.build.cursor) (hs : s.IsOpen) : False := by
  obtain ⟨b, hb, hnone⟩ := hs.here
  obtain ⟨b', term, hb', hterm⟩ := h
  obtain rfl := Option.some.inj (hb.symm.trans hb')
  rw [hnone] at hterm
  cases hterm

/-- The current block `isOpen`, whatever the function is called. -/
theorem Emission.isOpen_run (hs : s.IsOpen) {start : Builder} (hstart : start.IsBegun) :
    (start.run s.draft.script).isOpen = true := by
  obtain ⟨b, hb, hnone⟩ := hs.here
  have hcontent := congrArg (·[s.build.cursor]?) (s.draft.content_run_of_isBegun hstart)
  have hb : s.draft.build.blocks[s.build.cursor]? = some b := hb
  simp only [Array.getElem?_map, hb, Option.map_some] at hcontent
  obtain ⟨c, hc, hsame⟩ := Option.map_eq_some_iff.mp hcontent
  have hterm : c.terminator = none := (Prod.mk.inj hsame).2.trans hnone
  have hcursor : (start.run s.draft.script).cursor = s.build.cursor := s.draft.cursor_run hstart
  rw [Builder.isOpen, hcursor, hc, Option.map_some, hterm]
  rfl

theorem isSound_nil (hs : s.IsOpen) : IsSound ⟨s, []⟩ :=
  ⟨hs, List.nodup_nil, List.forall_mem_nil _⟩

/-- A block to which the statements of the loop around jump. -/
def Loop.IsLabel (loop : Option Loop) (label : Nat) : Prop :=
  ∃ l ∈ loop, label = l.next ∨ label = l.exit

/-- `emitStatements` jumps to blocks that it adds, and to those of the loop around. -/
theorem steps_emitStatements (h : emitStatements scene loop body s = .ok (u, t)) (hs : s.IsOpen) :
    ∃ strays, Steps ⟨s.draft.blocks, Loop.IsLabel loop, ¬ Passes Statement.fallsThrough body⟩
        ⟨s, []⟩ ⟨t, strays⟩
      ∧ (Passes Statement.hasBranch body → strays = []) := by
  have hloop : s.AdmitsLoop
      ⟨s.draft.blocks, Loop.IsLabel loop, ¬ Passes Statement.fallsThrough body⟩ loop :=
    fun l hl => ⟨.inr ⟨l, hl, .inl rfl⟩, .inr ⟨l, hl, .inr rfl⟩⟩
  obtain ⟨strays, hsteps, hnone⟩ := isOutlined_emitStatements s.draft.blocks (Loop.IsLabel loop)
    scene loop body h ⟨hs.counted, le_rfl⟩ hloop []
  rw [List.append_nil] at hsteps
  exact ⟨strays, hsteps, hnone⟩

/-- The current block and those that `emitStatements` adds lead to others that it adds, and to those
of the loop around. -/
theorem hasEdge_emitStatements (h : emitStatements scene loop body s = .ok (u, t)) (hs : s.IsOpen)
    {source target : Nat} (hsource : source = s.build.cursor ∨ s.draft.blocks ≤ source)
    (hedge : HasEdge t.build.blocks source target) :
    (s.draft.blocks ≤ target ∧ target < t.draft.blocks) ∨ Loop.IsLabel loop target := by
  obtain ⟨strays, hsteps, -⟩ := steps_emitStatements h hs
  rcases (isSound_nil hs).hasEdge_steps hsteps hedge with ⟨b, term, hb, hterm, -⟩ | hlands | houter
  · -- nothing has ended there before
    exfalso
    rcases hsource with rfl | hsource
    · exact HasEnded.not_open ⟨b, term, hb, hterm⟩ hs
    · have hlt : source < s.build.blocks.size := (Array.getElem?_eq_some_iff.mp hb).1
      have hcount := hs.count
      omega
  · obtain ⟨hfloor, k, name, rfl, hname, -⟩ := hlands
    have hcounted : t.Counted := hs.counted.of_changes (changes_of_steps hsteps)
    have hlt : k < t.draft.blockNames.length := (List.getElem?_eq_some_iff.mp hname).1
    unfold Counted at hcounted
    exact .inl ⟨hfloor, by omega⟩
  · exact .inr houter

/-- Where every IF has a branch, all blocks that `emitStatements` adds have ended, but for the
current one. -/
theorem hasEnded_of_passes (h : emitStatements scene loop body s = .ok (u, t)) (hs : s.IsOpen)
    (hbody : Passes Statement.hasBranch body) {n : Nat} (hn : EndsFrom n ⟨s, []⟩) {l : Nat}
    (hl : n ≤ l) (hlt : l < t.draft.blocks) (hcursor : l ≠ t.build.cursor) : t.HasEnded l := by
  obtain ⟨strays, hsteps, hnone⟩ := steps_emitStatements h hs
  rw [hnone hbody] at hsteps
  rcases hn.steps (isSound_nil hs) hsteps l hl hlt with hhere | hpending | hended
  · exact absurd hhere hcursor
  · cases hpending
  · exact hended

/-- `emitStatements` for a body with one block ends all blocks but the current one. -/
theorem terminator_isSome_iff (h : emitStatements scene loop body s = .ok (u, t)) (hs : s.IsOpen)
    (hbody : Passes Statement.hasBranch body) (hone : s.draft.blocks = 1) {start : Builder}
    (hstart : start.IsBegun) {l : Nat} {c : Block}
    (hc : (start.run t.draft.script).blocks[l]? = some c) :
    c.terminator.isSome = true ↔ l ≠ t.build.cursor := by
  have hopen := (isWoven_emitStatements scene loop body h hs).isOpen
  obtain ⟨b, hb, hsame⟩ := t.draft.exists_content hstart hc
  have hterm : b.terminator = c.terminator := (Prod.mk.inj hsame).2
  rw [← hterm]
  constructor
  · rintro hsome rfl
    obtain ⟨term, hterm⟩ := Option.isSome_iff_exists.mp hsome
    exact HasEnded.not_open ⟨b, term, hb, hterm⟩ hopen
  · intro hcursor
    -- the one block that there was is the current one, so none is left open from before
    have hbegun : EndsFrom 0 ⟨s, []⟩ := by
      intro l _ hl
      have hlt := hs.cursor_lt
      left
      show l = s.build.cursor
      have hl : l < s.draft.blocks := hl
      omega
    have hlt : l < t.draft.blocks := by
      rw [hopen.count]
      exact (Array.getElem?_eq_some_iff.mp hb).1
    obtain ⟨b', term, hb', hend⟩ := hasEnded_of_passes h hs hbody hbegun (Nat.zero_le l) hlt hcursor
    obtain rfl := Option.some.inj (hb.symm.trans hb')
    rw [hend]
    rfl

/-- Statements never add code behind the end of a block, and no terminator is lost. Emitted in an
open block, all their edits take effect, blocks that had ended stay as they are, and the code goes
on in an open block, inside of the same loop. Where every IF has a branch, all blocks that were
added have ended, but for the current one; so a body that has become a function gets one return
more, at the end of the current block. -/
theorem emitStatements_orderly (h : emitStatements scene loop body s = .ok (u, t))
    (hs : s.IsOpen) :
    s.Takes t ∧ (∀ l, s.HasEnded l → t.build.blocks[l]? = s.build.blocks[l]?)
      ∧ (∀ rest, emitStatements scene loop (body ++ rest) s = emitStatements scene loop rest t)
      ∧ t.IsOpen
      ∧ (Passes Statement.hasBranch body →
        (∀ l, s.draft.blocks ≤ l → l < t.draft.blocks → l ≠ t.build.cursor → t.HasEnded l)
        ∧ (s.draft.blocks = 1 → ∀ start : Builder, start.IsBegun →
          (start.run t.draft.script).unterminated = [(start.run t.draft.script).cursor]
            ∧ ∀ term, (start.run t.draft.script).closeAll term
              = (start.run t.draft.script).apply (.terminate term))) := by
  have hweaves := isWoven_emitStatements scene loop body h hs
  obtain ⟨strays, hsteps, -⟩ := steps_emitStatements h hs
  refine ⟨(isSound_nil hs).takes hsteps, ?_, ?_, hweaves.isOpen, fun hbody => ⟨?_, ?_⟩⟩
  · intro l hended
    have hne : l ≠ s.build.cursor := by
      rintro rfl
      exact hended.not_open hs
    obtain ⟨b, term, hb, -⟩ := hended
    exact hweaves.works.kept l (hs.count ▸ (Array.getElem?_eq_some_iff.mp hb).1) hne
  · intro rest
    have hseq : emitStatements scene loop (body ++ rest) s
        = emitStatements scene loop body s >>= fun r => emitStatements scene loop rest r.2 := by
      rw [emitStatements_append]
      rfl
    rw [hseq, h]
    rfl
  · intro l hl hlt hcursor
    refine hasEnded_of_passes h hs hbody ?_ hl hlt hcursor
    intro l hl hlt
    exact absurd hlt (Nat.not_lt.mpr hl)
  · intro hone start hstart
    have hcursor := t.draft.cursor_run hstart
    have hended : ∀ (l : Nat) (c : Block), (start.run t.draft.script).blocks[l]? = some c →
        l ≠ (start.run t.draft.script).cursor → c.terminator.isSome = true := by
      intro l c hc hne
      exact (terminator_isSome_iff h hs hbody hone hstart hc).mpr (hcursor ▸ hne)
    exact ⟨Builder.unterminated_eq (isOpen_run hweaves.isOpen hstart) hended,
      Builder.closeAll_eq hended⟩

end

namespace Detour

/-- A loop that is left at once, or else begun again, and a RETURN behind it. -/
def body : List Statement :=
  [.whileDo (.literal (.boolean true))
    [.ifThen [(.literal (.boolean true), [.breakLoop])] (some [.continueLoop])],
   .returnWith none]

/-- A procedure without names. -/
def scene : Scene :=
  { env := {}, result := .void }

end Detour

/-- Ten blocks are made for the loop with its early exits; the last one alone is open. -/
theorem emitStatements_orderly_detour :
    IsOpen ⟨{}, {}⟩ ∧ Passes Statement.hasBranch Detour.body
      ∧ ∃ t, emitStatements Detour.scene none Detour.body ⟨{}, {}⟩ = .ok ((), t)
        ∧ t.draft.blocks = 10 ∧ Takes ⟨{}, {}⟩ t ∧ t.IsOpen
        ∧ (∀ l, 1 ≤ l → l < 10 → l ≠ t.build.cursor → t.HasEnded l)
        ∧ ((Builder.start "M.P" [] .void "entry.0" none).run t.draft.script).unterminated
          = [((Builder.start "M.P" [] .void "entry.0" none).run t.draft.script).cursor] := by
  have hopen : IsOpen ⟨{}, {}⟩ := ⟨rfl, _, rfl, rfl⟩
  have hbody : Passes Statement.hasBranch Detour.body := by
    have hbreak : Statement.breakLoop.Every Statement.hasBranch := .mk rfl (List.forall_mem_nil _)
    have hcontinue : Statement.continueLoop.Every Statement.hasBranch :=
      .mk rfl (List.forall_mem_nil _)
    have hchoice : (Statement.ifThen [(.literal (.boolean true), [.breakLoop])]
        (some [.continueLoop])).Every Statement.hasBranch :=
      .mk rfl (List.forall_mem_cons.mpr ⟨hbreak, List.forall_mem_singleton.mpr hcontinue⟩)
    refine List.forall_mem_cons.mpr ⟨.mk rfl (List.forall_mem_singleton.mpr hchoice), ?_⟩
    exact List.forall_mem_singleton.mpr (.mk rfl (List.forall_mem_nil _))
  have hcount : (emitStatements Detour.scene none Detour.body ⟨{}, {}⟩).toOption.map
      (·.2.draft.blocks) = some 10 := by
    decide +kernel
  cases hemit : emitStatements Detour.scene none Detour.body ⟨{}, {}⟩ with
  | error e =>
    rw [hemit] at hcount
    cases hcount
  | ok r =>
    rw [hemit] at hcount
    have hten : r.2.draft.blocks = 10 := Option.some.inj hcount
    obtain ⟨htakes, -, -, hend, hwhole⟩ := emitStatements_orderly hemit hopen
    obtain ⟨hended, hone⟩ := hwhole hbody
    refine ⟨hopen, hbody, r.2, rfl, hten, htakes, hend, ?_, ?_⟩
    · intro l hl hlt
      exact hended l hl (hten ▸ hlt)
    · exact (hone rfl _ (Builder.isBegun_start "M.P" [] .void "entry.0" none)).1

end Oberon
