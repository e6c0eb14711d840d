import Oberon.Proofs.Traces
import Oberon.Proofs.Typing

/-!
# Emitting typed code

An emission is typed in a context if the blocks built so far are, and if the context describes
the point that the emission has reached. Each kind of edit keeps the emission typed, in a context
where at least as much is known; `Emit.Yields` says the same of a whole action, together with
what its result is. Operations and expressions are then typed one by one.
-/

namespace Oberon

open Code

/-! ## The function under construction -/

/-- The function that a draft describes, but for its name and signature. -/
def Draft.build (d : Draft) : Builder :=
  (Builder.start "" [] .void "" none).run d.script

/-- The function under construction, as `Draft.build` makes it. -/
def Emission.build (s : Emission) : Builder :=
  s.draft.build

namespace Emission

/-- `Emission.edited` applies the edit to what is built. -/
@[simp]
theorem build_edited (s : Emission) (e : Edit) : (s.edited e).build = s.build.apply e := by
  simp only [build, Draft.build, Builder.run, edited, Array.foldl_push]

@[simp]
theorem build_withBlock (s : Emission) (name : String) :
    (s.withBlock name).build
      = s.build.apply (.addBlock (name ++ "." ++ toString s.stock.labels)) :=
  s.build_edited _

@[simp]
theorem build_withString (s : Emission) (text : String) : (s.withString text).build = s.build :=
  rfl

@[simp]
theorem build_drawn (s : Emission) : s.drawn.build = s.build :=
  rfl

end Emission

/-- The context with one more block, which expects `H`. -/
def Context.withBlock (Γ : Context) (H : Held) : Context :=
  { Γ with blocks := Γ.blocks ++ [H] }

/-- The context with other strings. -/
def Context.withStrings (Γ : Context) (strings : List StringConstant) : Context :=
  { Γ with strings }

theorem Context.le_withStrings {Γ : Context} {strings : List StringConstant}
    (h : Γ.strings ⊆ strings) : Γ ≤ Γ.withStrings strings :=
  ⟨⟨List.Subset.refl _, h, List.Subset.refl _, rfl, rfl, List.prefix_rfl, List.Subset.refl _⟩,
    rfl, rfl⟩

theorem Context.le_withBlock (Γ : Context) (H : Held) : Γ ≤ Γ.withBlock H :=
  ⟨⟨List.Subset.refl _, List.Subset.refl _, List.Subset.refl _, rfl, rfl, List.prefix_append _ _,
    List.Subset.refl _⟩, rfl, rfl⟩

theorem Context.le_withHeld_append (Γ : Context) (H : Held) :
    Γ ≤ Γ.withHeld (Γ.held ++ H) :=
  Context.le_withHeld le_rfl (List.subset_append_left _ _)

/-- What was defined last can be used: it `HasKind` as it was defined. -/
theorem Context.hasKind_last (Γ : Context) (n : Nat) (k : Kind) :
    HasKind (Γ.withHeld (Γ.held ++ [(n, k)])) (.temp n k.ty) k :=
  .temp (List.mem_append_right _ (List.mem_singleton.mpr rfl))

/-- An emission of typed code, `BlocksTyped`, that has reached the point which the context
describes. -/
structure Emission.Typed (Γ : Context) (s : Emission) : Prop where
  isProper : Γ.IsProper
  strings : Γ.strings = s.stock.strings
  count : s.draft.blocks = Γ.blocks.length
  blocks : BlocksTyped Γ s.build.blocks
  bounded : ∀ {label : Nat} {H : Held} {b : Block}, Γ.blocks[label]? = some H →
    s.build.blocks[label]? = some b → ∀ x ∈ b.held H, x.1 < s.stock.temps
  here : ∃ H b, Γ.blocks[s.build.cursor]? = some H ∧ s.build.blocks[s.build.cursor]? = some b
    ∧ Γ.held ⊆ b.held H

theorem Code.Block.definitions_push (b : Block) (i : Instr) :
    definitions (b.push i).instrs = definitions b.instrs ++ i.defines := by
  simp [Block.push, definitions]

theorem Code.Block.held_push (b : Block) (i : Instr) (H : Held) :
    (b.push i).held H = b.held H ++ i.defines := by
  rw [Block.held, definitions_push, ← List.append_assoc]
  rfl

/-- `Block.push` of a typed instruction whose results are new keeps a block typed. -/
theorem Code.Block.Typed.push {Γ : Context} {H : Held} {b : Block} {i : Instr} (h : b.Typed Γ H)
    (hi : i.Typed (Γ.withHeld (b.held H))) (hfresh : ∀ x ∈ i.defines, ∀ y ∈ b.held H, y.1 ≠ x.1) :
    (b.push i).Typed Γ H := by
  refine ⟨CodeTyped.append_iff.mpr ⟨h.code, hi, hfresh, trivial⟩, fun t ht => ?_⟩
  rw [Block.held_push]
  exact (h.terminator t ht).mono
    (Context.withHeld_le_withHeld le_rfl (List.subset_append_left _ _))

/-- `Block.terminate` by a typed terminator keeps a block typed. -/
theorem Code.Block.Typed.terminate {Γ : Context} {H : Held} {b : Block} {t : Terminator}
    (h : b.Typed Γ H) (ht : t.Typed (Γ.withHeld (b.held H))) : (b.terminate t).Typed Γ H := by
  refine ⟨h.code, fun t' ht' => ?_⟩
  cases hb : b.terminator with
  | none =>
    obtain rfl : t = t' := by simpa [Block.terminate, hb] using ht'
    exact ht
  | some first =>
    obtain rfl : first = t' := by simpa [Block.terminate, hb] using ht'
    exact h.terminator first hb

namespace Emission.Typed

variable {Γ : Context} {s t : Emission} {i : Instr} {H : Held}

/-- What a typed emission holds `IsDefined` by an instruction. -/
theorem isDefined (h : s.Typed Γ) : ∀ x ∈ Γ.held, IsDefined s.build.blocks x := by
  obtain ⟨H, b, hl, hb, hheld⟩ := h.here
  intro x hx
  rcases List.mem_append.mp (hheld hx) with hx | hx
  · exact h.blocks.defined H (List.mem_of_getElem? hl) x hx
  · exact ⟨b, Array.mem_of_getElem? hb, hx⟩

/-- What a typed emission holds was defined by temporaries drawn so far, as `Stock.temps` counts
them. -/
theorem held_lt (h : s.Typed Γ) : ∀ x ∈ Γ.held, x.1 < s.stock.temps := by
  obtain ⟨H, b, hl, hb, hheld⟩ := h.here
  exact fun x hx => h.bounded hl hb x (hheld hx)

/-- The current block is changed to one that defines `added` as well, all of it new, and stays
typed. -/
theorem modify (h : s.Typed Γ) {f : Block → Block} {added : Held}
    (hstrings : t.stock.strings = s.stock.strings) (hcount : t.draft.blocks = s.draft.blocks)
    (htemps : s.stock.temps ≤ t.stock.temps) (hcursor : t.build.cursor = s.build.cursor)
    (hblocks : t.build.blocks = s.build.blocks.modify s.build.cursor f)
    (hadded : ∀ x ∈ added, x.2.IsProper ∧ x.1 < t.stock.temps)
    (hdefines : ∀ b x, x ∈ definitions (f b).instrs ↔ x ∈ definitions b.instrs ∨ x ∈ added)
    (hf : ∀ {H : Held} {b : Block}, Γ.held ⊆ b.held H → (∀ x ∈ b.held H, x.1 < s.stock.temps) →
      b.Typed Γ H → (f b).Typed Γ H) :
    t.Typed (Γ.withHeld (Γ.held ++ added)) := by
  obtain ⟨H, b, hl, hb, hheld⟩ := h.here
  have hholds (b : Block) (H : Held) (x : Nat × Kind) :
      x ∈ (f b).held H ↔ x ∈ b.held H ∨ x ∈ added := by
    simp only [Block.held, List.mem_append, hdefines, or_assoc]
  have hp := h.isProper
  refine ⟨⟨hp.linkage, hp.parameters, hp.result, hp.blocks, ?_⟩, h.strings.trans hstrings.symm,
    hcount.trans h.count, ?_, ?_, H, f b, hcursor ▸ hl, ?_, ?_⟩
  · exact List.forall_mem_append.mpr ⟨hp.held, fun x hx => (hadded x hx).1⟩
  · rw [hblocks]
    refine (h.blocks.modify (fun b x hx => ?_) fun {H' b'} hl' hb' => ?_).grow
      (fun _ => .refl _) rfl
    · exact (hdefines b x).mpr (.inl hx)
    -- the block that is changed is the one at the cursor
    obtain rfl := Option.some.inj (hl.symm.trans hl')
    obtain rfl := Option.some.inj (hb.symm.trans hb')
    exact hf hheld (h.bounded hl hb) (h.blocks.block hl hb)
  · intro l H' b' hl' hb' x hx
    rw [hblocks, Array.getElem?_modify] at hb'
    split at hb'
    · rename_i heq
      subst heq
      obtain ⟨b₀, hb₀, rfl⟩ := Option.map_eq_some_iff.mp hb'
      rcases (hholds b₀ H' x).mp hx with hx | hx
      · exact (h.bounded hl' hb₀ x hx).trans_le htemps
      · exact (hadded x hx).2
    · exact (h.bounded hl' hb' x hx).trans_le htemps
  · rw [hcursor, hblocks, Array.getElem?_modify, if_pos rfl, hb]
    rfl
  · intro x hx
    exact (hholds b H x).mpr ((List.mem_append.mp hx).imp_left fun hx => hheld hx)

/-- One more instruction in the current block, by `Edit.push`, whose results are all new. -/
theorem instr (h : s.Typed Γ) (hi : i.Typed Γ) (hstrings : t.stock.strings = s.stock.strings)
    (hcount : t.draft.blocks = s.draft.blocks) (htemps : s.stock.temps ≤ t.stock.temps)
    (hbuild : t.build = s.build.apply (.push i))
    (hnew : ∀ x ∈ i.defines, s.stock.temps ≤ x.1 ∧ x.1 < t.stock.temps) :
    t.Typed (Γ.withHeld (Γ.held ++ i.defines)) := by
  refine h.modify (f := (·.push i)) hstrings hcount htemps (by rw [hbuild]; rfl)
    (by rw [hbuild]; rfl) (fun x hx => ⟨hi.isProper h.isProper x hx, (hnew x hx).2⟩)
    (fun b x => ?_) fun {H b} hheld hdrawn hb => ?_
  · rw [Block.definitions_push, List.mem_append]
  · refine hb.push (hi.mono (Context.le_withHeld le_rfl hheld)) fun x hx y hy => ?_
    exact ((hdrawn y hy).trans_le (hnew x hx).1).ne

/-- `Emission.pushed` by an instruction without a result. -/
theorem push (h : s.Typed Γ) (hi : i.Typed Γ) (hnone : i.defines = []) : (s.pushed i).Typed Γ := by
  have hkept := h.instr (t := s.pushed i) hi rfl rfl le_rfl (s.build_edited _) (by simp [hnone])
  rwa [hnone, List.append_nil] at hkept

/-- `Emission.defined` by an instruction whose result is the temporary just drawn. -/
theorem define (h : s.Typed Γ) (hi : i.Typed Γ) {k : Kind}
    (hdef : i.defines = [(s.stock.temps, k)]) :
    (s.defined i).Typed (Γ.withHeld (Γ.held ++ [(s.stock.temps, k)])) := by
  rw [← hdef]
  refine h.instr hi rfl rfl (Nat.le_succ _) (s.drawn.build_edited _) ?_
  rw [hdef]
  exact List.forall_mem_singleton.mpr ⟨le_rfl, Nat.lt_succ_self _⟩

/-- `Emission.terminated` by a typed terminator. -/
theorem terminate (h : s.Typed Γ) {terminator : Terminator} (ht : terminator.Typed Γ) :
    (s.terminated terminator).Typed Γ := by
  have hbuild : (s.terminated terminator).build = s.build.apply (.terminate terminator) :=
    s.build_edited _
  have hkept : (s.terminated terminator).Typed (Γ.withHeld (Γ.held ++ [])) := by
    refine h.modify (f := (·.terminate terminator)) rfl rfl le_rfl (by rw [hbuild]; rfl)
      (by rw [hbuild]; rfl) (List.forall_mem_nil _) (fun b x => ?_) fun hheld _ hb => ?_
    · simp [Block.terminate]
    · exact hb.terminate (ht.mono (Context.le_withHeld le_rfl hheld))
  rwa [List.append_nil] at hkept

/-- `Emission.moved` makes another block the current one, and what that expects is held. -/
theorem move (h : s.Typed Γ) {label : Nat} (hl : Γ.blocks[label]? = some H) :
    (s.moved label).Typed (Γ.withHeld H) := by
  have hlt : label < s.build.blocks.size := by
    rw [h.blocks.size]
    exact (List.getElem?_eq_some_iff.mp hl).1
  have hp := h.isProper
  refine ⟨⟨hp.linkage, hp.parameters, hp.result, hp.blocks,
    hp.blocks H (List.mem_of_getElem? hl)⟩, h.strings, h.count, ?_, ?_, ?_⟩
  · rw [moved, build_edited]
    exact h.blocks.grow (fun _ => .refl _) rfl
  · rw [moved, build_edited]
    exact h.bounded
  · rw [moved, build_edited]
    exact ⟨H, s.build.blocks[label], hl, Array.getElem?_eq_getElem hlt,
      List.subset_append_left _ _⟩

/-- `Emission.withBlock` adds a block that may expect what is held here. -/
theorem block (h : s.Typed Γ) (hH : H ⊆ Γ.held) (name : String) :
    (s.withBlock name).Typed (Γ.withBlock H) := by
  obtain ⟨H₀, b₀, hl₀, hb₀, hheld⟩ := h.here
  have hp := h.isProper
  have hsize := h.blocks.size
  have hblocks : (s.withBlock name).build.blocks
      = s.build.blocks.push { name := name ++ "." ++ toString s.stock.labels } := by
    rw [build_withBlock]; rfl
  have hcursor : (s.withBlock name).build.cursor = s.build.cursor := by
    rw [build_withBlock]; rfl
  -- a block of the longer list is an old one or the new one
  have hcases : ∀ {l : Nat} {H' : Held} {b' : Block}, (Γ.withBlock H).blocks[l]? = some H' →
      (s.withBlock name).build.blocks[l]? = some b' →
      (Γ.blocks[l]? = some H' ∧ s.build.blocks[l]? = some b') ∨ (H' = H ∧ b'.instrs = []
        ∧ b'.terminator = none) := by
    intro l H' b' hl hb
    rw [hblocks, Array.getElem?_push] at hb
    rw [Context.withBlock, List.getElem?_append] at hl
    by_cases hlt : l < Γ.blocks.length
    · rw [if_pos hlt] at hl
      rw [if_neg (by omega)] at hb
      exact .inl ⟨hl, hb⟩
    · rw [if_neg hlt] at hl
      have hlast : l = Γ.blocks.length := by
        have := (List.getElem?_eq_some_iff.mp hl).1
        simp at this
        omega
      rw [if_pos (by omega)] at hb
      rw [hlast, Nat.sub_self] at hl
      obtain rfl := Option.some.inj hl
      obtain rfl := Option.some.inj hb
      exact .inr ⟨rfl, rfl, rfl⟩
  refine ⟨⟨hp.linkage, hp.parameters, hp.result, ?_, hp.held⟩, h.strings, ?_,
    ⟨?_, ?_, ?_, ?_⟩, ?_, H₀, b₀, ?_, ?_, hheld⟩
  · intro H' hH'
    rcases List.mem_append.mp hH' with hH' | hH'
    · exact hp.blocks H' hH'
    · obtain rfl := List.mem_singleton.mp hH'
      exact fun x hx => hp.held x (hH hx)
  · show s.draft.blocks + 1 = (Γ.blocks ++ [H]).length
    rw [h.count, List.length_append, List.length_singleton]
  · rw [hblocks, Array.size_push, hsize]
    simp [Context.withBlock]
  · exact Context.getElem?_blocks (Γ.le_withBlock H) h.blocks.entry
  · intro H' hH' x hx
    have hbefore : IsDefined s.build.blocks x := by
      rcases List.mem_append.mp hH' with hH' | hH'
      · exact h.blocks.defined H' hH' x hx
      · exact h.isDefined x (hH (List.mem_singleton.mp hH' ▸ hx))
    obtain ⟨b, hb, hx⟩ := hbefore
    rw [hblocks]
    exact ⟨b, Array.mem_push_of_mem _ hb, hx⟩
  · intro l H' b' hl hb
    rcases hcases hl hb with ⟨hl, hb⟩ | ⟨rfl, hcode, hterm⟩
    · exact (h.blocks.block hl hb).grow fun _ => ((Γ.withHeld _).le_withBlock H).toSub
    · exact ⟨hcode ▸ trivial, by simp [hterm]⟩
  · intro l H' b' hl hb x hx
    rcases hcases hl hb with ⟨hl, hb⟩ | ⟨rfl, hcode, hterm⟩
    · exact h.bounded hl hb x hx
    · have hx : x ∈ H' := by simpa [Block.held, definitions, hcode] using hx
      exact h.held_lt x (hH hx)
  · rw [hcursor]
    exact Context.getElem?_blocks (Γ.le_withBlock H) hl₀
  · rw [hcursor, hblocks, Array.getElem?_push, if_neg, hb₀]
    have := (Array.getElem?_eq_some_iff.mp hb₀).1
    omega

theorem le_withString (h : s.Typed Γ) (text : String) :
    Γ ≤ Γ.withStrings (s.withString text).stock.strings :=
  Context.le_withStrings (h.strings ▸ (s.stock.grows_intern _).strings.subset)

/-- `Emission.withString` adds one string at most. -/
theorem string (h : s.Typed Γ) (text : String) :
    (s.withString text).Typed (Γ.withStrings (s.withString text).stock.strings) := by
  have hp := h.isProper
  have hle := h.le_withString text
  refine ⟨⟨⟨hp.linkage.globals, hp.linkage.signatures⟩, hp.parameters, hp.result, hp.blocks,
    hp.held⟩, rfl, h.count,
    h.blocks.grow (fun _ => hle.toSub.withHeld (List.Subset.refl _)) rfl,
    fun hl hb x hx => ?_, h.here⟩
  have := h.bounded hl hb x hx
  rwa [← s.stock.temps_intern (Text.utf8Bytes text)] at this

end Emission.Typed

end Oberon
