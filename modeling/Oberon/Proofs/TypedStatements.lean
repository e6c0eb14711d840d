import Oberon.Proofs.TypedExpressions

/-!
# Typed statements

Every statement that can be compiled emits typed code. The blocks of a control structure expect
what was defined where the structure began; only the tests of a CASE expect its selector too,
and those of a FOR its limit.
-/

namespace Oberon

open Code Emit

/-! ## Simple statements -/

section

variable {Γ : Context} {env : Environment}

/-- `printable` gives a conversion and a value of the type that it prints. -/
theorem Emit.yields_printable {v : Value} (hv : IsValue Γ v) :
    Yields Γ (printable v) fun Δ p =>
      ∃ ty, printFormat? ty = some p.1 ∧ HasKind Δ p.2 (.value ty) := by
  unfold printable
  split
  · rename_i hty
    have hv : HasKind Γ v (.value (.int 64)) := hty ▸ hv
    exact .pure ⟨_, rfl, hv⟩
  · exact .bind (yields_coerce hv ⟨by decide, Nat.le_refl 64⟩) fun _ hw => .pure ⟨_, rfl, hw⟩
  · rename_i hty
    have hv : HasKind Γ v (.value .real) := hty ▸ hv
    exact .pure ⟨_, rfl, hv⟩
  · rename_i hty
    have hv : HasKind Γ v (.value .ptr) := hty ▸ hv
    exact .pure ⟨_, rfl, hv⟩
  · exact .fail _
  · exact .fail _

/-- `print` is a typed call of what the machine provides: the format is interned with its ending. -/
theorem Emit.yields_print {v : Value} {ending : String} (hv : IsValue Γ v)
    (he : ending = "" ∨ ending = "\n") : Yields Γ (print v ending) fun _ _ => True := by
  refine .bind (yields_printable hv) fun {Δ p} _ hp => ?_
  obtain ⟨conversion, value⟩ := p
  obtain ⟨ty, hformat, hvalue⟩ := hp
  refine .bind (yields_string (conversion ++ ending)) fun hle hc => ?_
  obtain ⟨c, hc, hbytes, rfl⟩ := hc
  exact .push (.print hc hbytes hformat he (hvalue.mono hle)) rfl

/-- `emitPrints` is typed, with one ending for the last value. -/
theorem yields_emitPrints {ending : String} {es : List Expr} (henv : env.Typed Γ)
    (he : ending = "" ∨ ending = "\n") : Yields Γ (emitPrints env ending es) fun _ _ => True := by
  induction es generalizing Γ with
  | nil => exact .pure trivial
  | cons e rest ih =>
    cases rest with
    | nil => exact .bind (e.yields_emit henv) fun _ hv => yields_print hv he
    | cons e' rest =>
      refine .bind (e.yields_emit henv) fun hle hv => ?_
      refine .bind (yields_print hv (.inl rfl)) fun hle' _ => ?_
      exact ih (henv.mono (hle.trans hle'))

theorem yields_emitWriteln {es : List Expr} (henv : env.Typed Γ) :
    Yields Γ (emitWriteln env es) fun _ _ => True := by
  unfold emitWriteln
  split
  · refine .bind (yields_string "") fun _ hc => ?_
    obtain ⟨c, hc, _, rfl⟩ := hc
    exact .push (.newline hc) rfl
  · exact yields_emitPrints henv (.inr rfl)

/-- `emitRead` is typed: `readFormat?` gives a format for the type of the place. -/
theorem yields_emitRead {es : List Expr} (henv : env.Typed Γ) :
    Yields Γ (emitRead env es) fun _ _ => True := by
  unfold emitRead
  split
  · refine .bind (yields_address henv (.pure ⟨rfl, by simp [AreIndices]⟩)) fun {Δ p} _ hp => ?_
    obtain ⟨place, ty⟩ := p
    dsimp only
    split
    · rename_i format hformat
      refine .bind (yields_string format) fun hle hc => ?_
      obtain ⟨c, hc, hbytes, rfl⟩ := hc
      exact .push (.read hc hbytes hformat (hp.mono hle)) rfl
    · exact .fail _
  · exact .fail _

theorem yields_emitCall {name : String} {es : List Expr} (henv : env.Typed Γ) :
    Yields Γ (emitCall env name es) fun _ _ => True := by
  refine .bind (yields_call henv fun parameters hlen hp => ?_) fun _ _ => .pure trivial
  exact yields_emitArguments henv hlen hp fun e _ => e.isTyped env

/-- `emitCallStatement` is typed, be it a call of a procedure or of what is built in. -/
theorem yields_emitCallStatement {name : String} {es : List Expr} (henv : env.Typed Γ) :
    Yields Γ (emitCallStatement env name es) fun _ _ => True := by
  unfold emitCallStatement
  split
  · exact yields_emitPrints henv (.inl rfl)
  · split
    · exact yields_emitWriteln henv
    · split
      · exact yields_emitRead henv
      · exact yields_emitCall henv

/-- `emitArrayCopy` copies as many bytes as the type of both places has. -/
theorem yields_emitArrayCopy {place : Value} {ty : Ty} {source : Designator}
    (henv : env.Typed Γ) (hp : HasKind Γ place (.place ty)) :
    Yields Γ (emitArrayCopy env place ty source) fun _ _ => True := by
  refine .bind (source.yields_emitAddress henv) fun {Δ p} hle h => ?_
  obtain ⟨source, found⟩ := p
  dsimp only
  split
  · rename_i hty
    subst hty
    split
    · rename_i bytes hsize
      exact .push (.copy (hp.mono hle) h hsize) rfl
    · exact .fail _
  · exact .fail _

/-- `emitStore` converts to the type of the place before it stores. -/
theorem yields_emitStore {place : Value} {ty : Ty} {e : Expr} (henv : env.Typed Γ)
    (hp : HasKind Γ place (.place ty)) : Yields Γ (emitStore env place ty e) fun _ _ => True := by
  refine .bind (e.yields_emit henv) fun {Δ v} hle hv => ?_
  -- an array is no value, so the conversion to an array type fails
  by_cases hty : ty.isArray
  · refine .bind (Q := fun _ _ => False) (fun s w t hok hs => ?_) fun _ h => h.elim
    have hscalar : v.ty.IsScalar := hv.isProper hs.isProper
    obtain ⟨length, element, rfl⟩ : ∃ length element, ty = .array length element := by
      cases ty <;> first | exact ⟨_, _, rfl⟩ | exact nomatch hty
    unfold coerce at hok
    rw [if_neg (by rintro heq; rw [heq] at hscalar; exact hscalar)] at hok
    cases hv' : v.ty <;> rw [hv'] at hok <;> exact (fail_eq_ok.mp hok).elim
  · refine .of_isProper fun hΔ => ?_
    have hproper : ty.IsProper := (hp.mono hle).isProper hΔ
    have hscalar := hproper.shaped.isScalar (by simpa using hty)
    refine .bind (yields_coerce hv hscalar) fun hle' hw => ?_
    exact .push (.store hw (hp.mono (hle.trans hle'))) rfl

/-- `emitAssign` is typed, for scalars and for arrays. -/
theorem yields_emitAssign {target : Designator} {e : Expr} (henv : env.Typed Γ) :
    Yields Γ (emitAssign env target e) fun _ _ => True := by
  refine .bind (target.yields_emitAddress henv) fun {Δ p} hle hp => ?_
  obtain ⟨place, ty⟩ := p
  dsimp only
  split
  · exact yields_emitArrayCopy (henv.mono hle) hp
  · exact yields_emitStore (henv.mono hle) hp

/-- `emitCounter` gives a place of an integer type, with its width. -/
theorem yields_emitCounter {name : String} (henv : env.Typed Γ) :
    Yields Γ (emitCounter env name) fun Δ p => HasKind Δ p.1 (.place (.int p.2)) := by
  unfold emitCounter
  split
  · exact .fail _
  · exact .fail _
  · rename_i cell hcell
    split
    · rename_i bits hty
      split
      · exact .fail _
      · exact .pure (hty ▸ henv.cell hcell)
    · exact .fail _

end

/-! ## Control structures -/

/-- A loop whose targets this point `Accepts`. -/
structure Loop.Typed (Γ : Context) (l : Loop) : Prop where
  next : Γ.Accepts l.next
  exit : Γ.Accepts l.exit

/-- A scene that fits the context, inside of `loop`. -/
structure Scene.Typed (Γ : Context) (scene : Scene) (loop : Option Loop) : Prop where
  env : scene.env.Typed Γ
  result : Γ.result = scene.result
  loop : ∀ l ∈ loop, l.Typed Γ

/-- A `Scene` stays typed if more is known. -/
theorem Scene.Typed.mono {Γ Δ : Context} {scene : Scene} {loop : Option Loop}
    (h : scene.Typed Γ loop) (hle : Γ ≤ Δ) : scene.Typed Δ loop :=
  ⟨h.env.mono hle, hle.result ▸ h.result,
    fun l hl => ⟨(h.loop l hl).next.mono hle, (h.loop l hl).exit.mono hle⟩⟩

/-- Inside of a typed loop a `Scene` is typed with that loop. -/
theorem Scene.Typed.inside {Γ : Context} {scene : Scene} {loop : Option Loop} {l : Loop}
    (h : scene.Typed Γ loop) (hl : l.Typed Γ) : scene.Typed Γ (some l) :=
  ⟨h.env, h.result, fun _ h => Option.some.inj h ▸ hl⟩

/-- `Emission.Typed` holds as well where less is said to be defined. -/
theorem Emission.Typed.weaken {Γ : Context} {s : Emission} {H : Held} (h : s.Typed Γ)
    (hH : H ⊆ Γ.held) : s.Typed (Γ.withHeld H) := by
  obtain ⟨H₀, b, hl, hb, hheld⟩ := h.here
  have hp := h.isProper
  exact ⟨⟨hp.linkage, hp.parameters, hp.result, hp.blocks,
    fun x hx => hp.held x (hH hx)⟩, h.strings, h.count, h.blocks.grow (fun _ => .refl _) rfl,
    h.bounded, H₀, b, hl, hb, fun x hx => hheld (hH hx)⟩

/-- `withBlock` adds what a new block expects behind that of the others. -/
theorem Context.getElem?_withBlock (Γ : Context) (H : Held) :
    (Γ.withBlock H).blocks[Γ.blocks.length]? = some H := by
  simp [Context.withBlock]

/-- A block that expects what is defined here can be entered from here on. -/
theorem Context.accepts_of_le {Γ Δ : Context} {label : Nat} (h : Γ.blocks[label]? = some Γ.held)
    (hle : Γ ≤ Δ) : Δ.Accepts label :=
  ⟨Γ.held, Context.getElem?_blocks hle h, hle.held⟩

/-- The context with several blocks that expect what is defined here. -/
def Context.withBlocks (Γ : Context) (count : Nat) : Context :=
  { Γ with blocks := Γ.blocks ++ List.replicate count Γ.held }

theorem Context.le_withBlocks (Γ : Context) (count : Nat) : Γ ≤ Γ.withBlocks count :=
  ⟨⟨List.Subset.refl _, List.Subset.refl _, List.Subset.refl _, rfl, rfl, List.prefix_append _ _,
    List.Subset.refl _⟩, rfl, rfl⟩

namespace Emission.Typed

variable {Γ : Context} {s : Emission}

theorem withBlocks_zero (h : s.Typed Γ) : s.Typed (Γ.withBlocks 0) := by
  rwa [Context.withBlocks, List.replicate_zero, List.append_nil]

/-- A new block keeps an emission typed, with one more block in `withBlocks`. -/
theorem withBlocks_succ {count : Nat} (h : s.Typed (Γ.withBlocks count)) (name : String) :
    (s.withBlock name).Typed (Γ.withBlocks (count + 1)) := by
  have hsucc : (Γ.withBlocks count).withBlock Γ.held = Γ.withBlocks (count + 1) := by
    simp [Context.withBlocks, Context.withBlock, List.replicate_succ']
  rw [← hsucc]
  exact h.block (List.Subset.refl _) name

/-- The labels of the blocks of `withBlocks` count from the number of blocks before. -/
theorem getElem?_withBlocks (h : s.Typed Γ) {count k : Nat} (hk : k < count) :
    (Γ.withBlocks count).blocks[s.draft.blocks + k]? = some Γ.held := by
  rw [h.count]
  simp [Context.withBlocks, hk]

end Emission.Typed

namespace Emit

variable {Γ : Context}

/-- `leave` ends the block with a typed terminator, and goes on in a new block. -/
theorem yields_leave {t : Terminator} {name : String} (ht : t.Typed Γ) :
    Yields Γ (leave t name) fun _ _ => True := by
  intro s u r hok hs
  obtain rfl := leave_ok hok
  have hblock := (hs.terminate ht).block (List.Subset.refl _) name
  have hlabel : (Γ.withBlock Γ.held).blocks[s.draft.blocks]? = some Γ.held := by
    rw [hs.count]
    exact Γ.getElem?_withBlock _
  exact ⟨_, Context.le_withHeld (Γ.le_withBlock _) (List.Subset.refl _), hblock.move hlabel,
    trivial⟩

/-- `blockIf` gives a block, new or given, that can be entered from here; a new one expects `H`. -/
theorem yields_blockIf {wanted : Bool} {name : String} {label : Nat} {H : Held}
    (hH : H ⊆ Γ.held) (hl : Γ.Accepts label) :
    Yields Γ (blockIf wanted name label) fun Δ l =>
      Δ.Accepts l ∧ Δ.held = Γ.held ∧ (wanted = true → Δ.blocks[l]? = some H)
        ∧ (wanted = false → l = label) := by
  intro s l t hok hs
  unfold blockIf at hok
  split at hok
  · rename_i hwanted
    obtain ⟨rfl, rfl⟩ := newBlock_eq_ok.mp hok
    have hlabel : (Γ.withBlock H).blocks[s.draft.blocks]? = some H := by
      rw [hs.count]
      exact Γ.getElem?_withBlock _
    exact ⟨_, Γ.le_withBlock H, hs.block hH name, ⟨H, hlabel, hH⟩, rfl, fun _ => hlabel,
      fun hnot => by simp [hwanted] at hnot⟩
  · rename_i hwanted
    obtain ⟨rfl, rfl⟩ := pure_eq_ok.mp hok
    exact ⟨Γ, le_rfl, hs, hl, rfl, fun h => absurd h hwanted, fun _ => rfl⟩

/-- `ifBranch` is typed from a point where what is defined is what `done` expects. -/
theorem yields_ifBranch {condition : Emit Value} {next : Emit Nat} {done : Nat}
    {body : Emit Unit} (hdone : Γ.blocks[done]? = some Γ.held)
    (hc : Yields Γ condition fun Δ v => HasKind Δ v (.value .boolean))
    (hn : ∀ Δ, Γ ≤ Δ → Yields Δ next fun Θ l => Θ.blocks[l]? = some Γ.held)
    (hb : ∀ Δ, Γ ≤ Δ → Yields Δ body fun _ _ => True) :
    Yields Γ (ifBranch condition next done body) fun Δ _ => Δ.held = Γ.held := by
  intro s u t hok hs
  obtain ⟨c, s₁, l, s₂, s₃, hc₁, hn₁, hb₁, rfl⟩ := ifBranch_ok hok
  obtain ⟨Δ, hle, hs₁, hcond⟩ := hc hc₁ hs
  have hblock := hs₁.block (H := Γ.held) hle.held "if.then"
  have hinner : (Δ.withBlock Γ.held).blocks[s₁.draft.blocks]? = some Γ.held := by
    rw [hs₁.count]
    exact Δ.getElem?_withBlock _
  have hle₁ : Γ ≤ Δ.withBlock Γ.held := hle.trans (Δ.le_withBlock _)
  obtain ⟨Θ, hle₂, hs₂, hnext⟩ := hn _ hle₁ hn₁ hblock
  have hle₃ : Γ ≤ Θ := hle₁.trans hle₂
  have hbranch : (Terminator.branch c s₁.draft.blocks l).Typed Θ :=
    .branch (hcond.mono ((Δ.le_withBlock _).trans hle₂))
      ⟨_, Context.getElem?_blocks hle₂ hinner, hle₃.held⟩ ⟨_, hnext, hle₃.held⟩
  have hmoved := (hs₂.terminate hbranch).move (Context.getElem?_blocks hle₂ hinner)
  obtain ⟨Ψ, hle₄, hs₃, -⟩ :=
    hb _ (Context.le_withHeld hle₃ (List.Subset.refl _)) hb₁ hmoved
  -- the body leads to `done`, and the next test begins where the condition began
  have hle₅ : Γ ≤ Ψ := (Context.le_withHeld hle₃ (List.Subset.refl _)).trans hle₄
  have hend := hs₃.terminate (.jump (Context.accepts_of_le hdone hle₅))
  have hl : Ψ.blocks[l]? = some Γ.held := Context.getElem?_blocks hle₄ hnext
  exact ⟨_, Context.le_withHeld hle₅ (List.Subset.refl _), hend.move hl, rfl⟩

theorem yields_elsePart {done : Nat} {body : Emit Unit} (hdone : Γ.blocks[done]? = some Γ.held)
    (hb : Yields Γ body fun _ _ => True) : Yields Γ (elsePart done body) fun _ _ => True := by
  intro s u t hok hs
  obtain ⟨s₁, hb₁, rfl⟩ := elsePart_ok hok
  obtain ⟨Δ, hle, hs₁, -⟩ := hb hb₁ hs
  have hend := hs₁.terminate (.jump (Context.accepts_of_le hdone hle))
  exact ⟨_, Context.le_withHeld hle (List.Subset.refl _),
    hend.move (Context.getElem?_blocks hle hdone), trivial⟩

/-- `whileDo` is typed if condition and body are: all three blocks expect what is defined before the
loop. -/
theorem yields_whileDo {condition : Emit Value} {body : Loop → Emit Unit}
    (hc : ∀ Δ, Γ ≤ Δ → Yields Δ condition fun Θ v => HasKind Θ v (.value .boolean))
    (hb : ∀ Δ l, Γ ≤ Δ → l.Typed Δ → Yields Δ (body l) fun _ _ => True) :
    Yields Γ (whileDo condition body) fun _ _ => True := by
  intro s u t hok hs
  obtain ⟨c, s₁, s₂, hc₁, hb₁, rfl⟩ := whileDo_ok hok
  have hblocks := ((hs.withBlocks_zero.withBlocks_succ "while.cond").withBlocks_succ
    "while.body").withBlocks_succ "while.end"
  have htest := hs.getElem?_withBlocks (show 0 < 3 by decide)
  have hinner := hs.getElem?_withBlocks (show 1 < 3 by decide)
  have hexit := hs.getElem?_withBlocks (show 2 < 3 by decide)
  have hle := Γ.le_withBlocks 3
  have hstart := (hblocks.terminate (.jump ⟨_, htest, List.Subset.refl _⟩)).move htest
  obtain ⟨Δ, hle₁, hs₁, hcond⟩ := hc _ hle hc₁ hstart
  have hle₂ : Γ ≤ Δ := hle.trans hle₁
  have hbranch : (Terminator.branch c (s.draft.blocks + 1) (s.draft.blocks + 2)).Typed Δ :=
    .branch hcond ⟨_, Context.getElem?_blocks hle₁ hinner, hle₂.held⟩
      ⟨_, Context.getElem?_blocks hle₁ hexit, hle₂.held⟩
  have hbody := (hs₁.terminate hbranch).move (Context.getElem?_blocks hle₁ hinner)
  have hle₃ : Γ ≤ Δ.withHeld Γ.held := Context.le_withHeld hle₂ (List.Subset.refl _)
  have hle₄ : Γ.withBlocks 3 ≤ Δ.withHeld Γ.held :=
    Context.le_withHeld hle₁ (List.Subset.refl _)
  have hloop : Loop.Typed (Δ.withHeld Γ.held) ⟨s.draft.blocks, s.draft.blocks + 2⟩ :=
    ⟨Context.accepts_of_le htest hle₄, Context.accepts_of_le hexit hle₄⟩
  obtain ⟨Θ, hle₅, hs₂, -⟩ := hb _ _ hle₃ hloop hb₁ hbody
  have hend := hs₂.terminate (.jump (hloop.next.mono hle₅))
  have hdone := Context.getElem?_blocks (hle₄.trans hle₅) hexit
  exact ⟨_, Context.le_withHeld (hle₃.trans hle₅) (List.Subset.refl _), hend.move hdone, trivial⟩

/-- `repeatUntil` is typed if body and condition are. -/
theorem yields_repeatUntil {condition : Emit Value} {body : Loop → Emit Unit}
    (hc : ∀ Δ, Γ ≤ Δ → Yields Δ condition fun Θ v => HasKind Θ v (.value .boolean))
    (hb : ∀ Δ l, Γ ≤ Δ → l.Typed Δ → Yields Δ (body l) fun _ _ => True) :
    Yields Γ (repeatUntil body condition) fun _ _ => True := by
  intro s u t hok hs
  obtain ⟨s₁, c, s₂, hb₁, hc₁, rfl⟩ := repeatUntil_ok hok
  have hblocks := ((hs.withBlocks_zero.withBlocks_succ "repeat.body").withBlocks_succ
    "repeat.cond").withBlocks_succ "repeat.end"
  have hinner := hs.getElem?_withBlocks (show 0 < 3 by decide)
  have htest := hs.getElem?_withBlocks (show 1 < 3 by decide)
  have hexit := hs.getElem?_withBlocks (show 2 < 3 by decide)
  have hle := Γ.le_withBlocks 3
  have hstart := (hblocks.terminate (.jump ⟨_, hinner, List.Subset.refl _⟩)).move hinner
  have hloop : Loop.Typed (Γ.withBlocks 3) ⟨s.draft.blocks + 1, s.draft.blocks + 2⟩ :=
    ⟨⟨_, htest, List.Subset.refl _⟩, ⟨_, hexit, List.Subset.refl _⟩⟩
  obtain ⟨Δ, hle₁, hs₁, -⟩ := hb _ _ hle hloop hb₁ hstart
  have htest' := Context.getElem?_blocks hle₁ htest
  have hmoved := (hs₁.terminate (.jump (hloop.next.mono hle₁))).move htest'
  have hle₂ : Γ.withBlocks 3 ≤ Δ.withHeld Γ.held :=
    Context.le_withHeld hle₁ (List.Subset.refl _)
  obtain ⟨Θ, hle₃, hs₂, hcond⟩ := hc _ (hle.trans hle₂) hc₁ hmoved
  have hle₄ := hle₂.trans hle₃
  have hbranch : (Terminator.branch c (s.draft.blocks + 2) s.draft.blocks).Typed Θ :=
    .branch hcond (Context.accepts_of_le hexit hle₄) (Context.accepts_of_le hinner hle₄)
  exact ⟨_, Context.le_withHeld (hle.trans hle₄) (List.Subset.refl _),
    (hs₂.terminate hbranch).move (Context.getElem?_blocks hle₄ hexit), trivial⟩

/-- `countTo` is typed if counter and limit have one width; what the limit is stays defined in the
loop. -/
theorem yields_countTo {place limit : Value} {bits : Nat} {direction : Direction}
    {body : Loop → Emit Unit} (hp : HasKind Γ place (.place (.int bits)))
    (hlimit : HasKind Γ limit (.value (.int bits)))
    (hb : ∀ Δ l, Γ ≤ Δ → l.Typed Δ → Yields Δ (body l) fun _ _ => True) :
    Yields Γ (countTo place bits limit direction body) fun _ _ => True := by
  intro s u t hok hs
  obtain ⟨more, s₁, s₂, next, s₃, hm₁, hb₁, hn₁, rfl⟩ := countTo_ok hok
  have hbits : (Ty.int bits).IsScalar := hlimit.isProper hs.isProper
  have hblocks := (((hs.withBlocks_zero.withBlocks_succ "for.cond").withBlocks_succ
    "for.body").withBlocks_succ "for.inc").withBlocks_succ "for.end"
  have htest := hs.getElem?_withBlocks (show 0 < 4 by decide)
  have hinner := hs.getElem?_withBlocks (show 1 < 4 by decide)
  have hstep := hs.getElem?_withBlocks (show 2 < 4 by decide)
  have hexit := hs.getElem?_withBlocks (show 3 < 4 by decide)
  have hle := Γ.le_withBlocks 4
  have hstart := (hblocks.terminate (.jump ⟨_, htest, List.Subset.refl _⟩)).move htest
  -- the test: the counter against the limit
  have hload := hstart.define (i := .load s.stock.temps (.int bits) place)
    (.load hbits (hp.mono hle)) rfl
  have hle₁ := hle.trans (Context.le_withHeld_append _ [(s.stock.temps, .value (.int bits))])
  have hcurrent := (Γ.withBlocks 4).hasKind_last s.stock.temps (.value (.int bits))
  obtain ⟨Δ, hle₂, hs₁, hmore⟩ :=
    yields_compare _ hcurrent.isValue (hlimit.mono hle₁).isValue hm₁ hload
  have hle₃ : Γ.withBlocks 4 ≤ Δ := (Context.le_withHeld_append _ _).trans hle₂
  have hbranch : (Terminator.branch more (s.draft.blocks + 1) (s.draft.blocks + 3)).Typed Δ :=
    .branch hmore (Context.accepts_of_le hinner hle₃) (Context.accepts_of_le hexit hle₃)
  -- the body
  have hbody := (hs₁.terminate hbranch).move (Context.getElem?_blocks hle₃ hinner)
  have hle₄ : Γ.withBlocks 4 ≤ Δ.withHeld Γ.held :=
    Context.le_withHeld hle₃ (List.Subset.refl _)
  have hloop : Loop.Typed (Δ.withHeld Γ.held) ⟨s.draft.blocks + 2, s.draft.blocks + 3⟩ :=
    ⟨Context.accepts_of_le hstep hle₄, Context.accepts_of_le hexit hle₄⟩
  obtain ⟨Θ, hle₅, hs₂, -⟩ := hb _ _ (hle.trans hle₄) hloop hb₁ hbody
  -- the step: the counter with one more or one less
  have hle₆ : Γ.withBlocks 4 ≤ Θ.withHeld Γ.held :=
    Context.le_withHeld (hle₄.trans hle₅) (List.Subset.refl _)
  have hmoved := (hs₂.terminate (.jump (hloop.next.mono hle₅))).move
    (Context.getElem?_blocks (hle₄.trans hle₅) hstep)
  have hload' := hmoved.define (i := .load s₂.stock.temps (.int bits) place)
    (.load hbits (hp.mono (hle.trans hle₆))) rfl
  have hcurrent' := (Θ.withHeld Γ.held).hasKind_last s₂.stock.temps (.value (.int bits))
  have hop : (advance direction).isReal = false := by cases direction <;> rfl
  obtain ⟨Ψ, hle₇, hs₃, hnext⟩ :=
    yields_integerBinary hop hcurrent' (.int 1 hbits) hn₁ hload'
  have hle₈ : Γ.withBlocks 4 ≤ Ψ :=
    hle₆.trans ((Context.le_withHeld_append _ _).trans hle₇)
  have hstore := hs₃.push (.store hnext (hp.mono (hle.trans hle₈))) rfl
  have hend := hstore.terminate (.jump (Context.accepts_of_le htest hle₈))
  exact ⟨_, Context.le_withHeld (hle.trans hle₈) (List.Subset.refl _),
    hend.move (Context.getElem?_blocks hle₈ hexit), trivial⟩

/-- `forDo` is typed: start and limit are converted to the width of the counter. -/
theorem yields_forDo {counter : Emit (Value × Nat)} {start limit : Emit Value}
    {direction : Direction} {body : Loop → Emit Unit}
    (hn : Yields Γ counter fun Δ p => HasKind Δ p.1 (.place (.int p.2)))
    (hs : ∀ Δ, Γ ≤ Δ → Yields Δ start IsValue) (hl : ∀ Δ, Γ ≤ Δ → Yields Δ limit IsValue)
    (hb : ∀ Δ l, Γ ≤ Δ → l.Typed Δ → Yields Δ (body l) fun _ _ => True) :
    Yields Γ (forDo counter start limit direction body) fun _ _ => True := by
  refine .bind hn fun {Δ p} hle hp => ?_
  obtain ⟨place, bits⟩ := p
  refine .of_isProper fun hΔ => ?_
  have hproper : (Ty.int bits).IsProper := hp.isProper hΔ
  have hbits : (Ty.int bits).IsScalar := hproper.shaped
  refine .bind (hs Δ hle) fun hle₁ ha => ?_
  refine .bind (yields_coerce ha hbits) fun hle₂ hfirst => ?_
  have hle₃ := hle₁.trans hle₂
  refine .bind (.push (.store hfirst (hp.mono hle₃)) rfl) fun hle₄ _ => ?_
  refine .bind (hl _ (hle.trans (hle₃.trans hle₄))) fun hle₅ hlast => ?_
  refine .bind (yields_coerce hlast hbits) fun hle₆ hlimit => ?_
  have hle₇ := (hle₃.trans hle₄).trans (hle₅.trans hle₆)
  exact yields_countTo (hp.mono hle₇) hlimit fun Θ l h hl => hb Θ l (hle.trans (hle₇.trans h)) hl

/-! ### CASE -/

/-- `matchLabels` gives a BOOLEAN. -/
theorem yields_matchLabels {selector : Value} {found : Option Value} {labels : List Literal}
    (hv : IsValue Γ selector) (hf : ∀ v ∈ found, HasKind Γ v (.value .boolean)) :
    Yields Γ (matchLabels selector found labels) fun Δ v => HasKind Δ v (.value .boolean) := by
  induction labels generalizing Γ found with
  | nil =>
    cases found with
    | none => exact .pure (hasKind_boolean false)
    | some v => exact .pure (hf v rfl)
  | cons label rest ih =>
    refine .bind (yields_literal label) fun hle hlabel => ?_
    refine .bind (yields_compare .equal (hv.mono hle) hlabel) fun {Δ test} hle' htest => ?_
    have heither : Yields Δ (either found test) fun Θ v => HasKind Θ v (.value .boolean) := by
      cases found with
      | none => exact .pure htest
      | some v => exact yields_integerBinary rfl ((hf v rfl).mono (hle.trans hle')) htest
    refine .bind heither fun hle'' hfound => ?_
    exact ih (hv.mono (hle.trans (hle'.trans hle''))) fun v hv => Option.some.inj hv ▸ hfound

/-- `caseHead` leads to a context in which the tests expect at least what was defined before, and
the selector besides. -/
theorem yields_caseHead {selector : Emit Value} {hasElse : Bool}
    (hv : Yields Γ selector IsValue) :
    Yields Γ (caseHead selector hasElse) fun Δ p => Δ.held = Γ.held
      ∧ Δ.blocks[p.2.1]? = some Γ.held ∧ Δ.blocks[p.2.2.1]? = some Γ.held
      ∧ ∃ H, Δ.blocks[p.2.2.2]? = some H ∧ Γ.held ⊆ H ∧ IsValue (Δ.withHeld H) p.1 := by
  intro s p t hok hs
  obtain ⟨v, done, fallback, test⟩ := p
  obtain ⟨s₁, s₂, hv₁, rfl, hf₁, rfl, rfl⟩ := caseHead_ok hok
  obtain ⟨Δ, hle, hs₁, hvalue⟩ := hv hv₁ hs
  have hblock := hs₁.block (H := Γ.held) hle.held "case.end"
  have hdone : (Δ.withBlock Γ.held).blocks[s₁.draft.blocks]? = some Γ.held := by
    rw [hs₁.count]
    exact Δ.getElem?_withBlock _
  obtain ⟨Θ, hle₁, hs₂, -, hheld, hnew, hold⟩ :=
    yields_blockIf (Γ := Δ.withBlock Γ.held) hle.held ⟨_, hdone, hle.held⟩ hf₁ hblock
  have hdone' := Context.getElem?_blocks hle₁ hdone
  have hfallback : Θ.blocks[fallback]? = some Γ.held := by
    cases hasElse with
    | true => exact hnew rfl
    | false => exact hold rfl ▸ hdone'
  have hle₂ : Γ ≤ Θ := hle.trans ((Δ.le_withBlock _).trans hle₁)
  -- the first test expects all that is defined once the selector is
  have hblock' := hs₂.block (List.Subset.refl _) "case.cond"
  have htest : (Θ.withBlock Θ.held).blocks[s₂.draft.blocks]? = some Θ.held := by
    rw [hs₂.count]
    exact Θ.getElem?_withBlock _
  have hend := hblock'.terminate (.jump ⟨_, htest, List.Subset.refl _⟩)
  have hle₃ := Θ.le_withBlock Θ.held
  exact ⟨_, Context.le_withHeld (hle₂.trans hle₃) (List.Subset.refl _), hend.weaken hle₂.held,
    rfl, Context.getElem?_blocks hle₃ hdone', Context.getElem?_blocks hle₃ hfallback, Θ.held,
    htest, hle₂.held, hvalue.mono ((Δ.le_withBlock _).trans (hle₁.trans hle₃))⟩

/-- `caseBranch` is typed; the next test, if there is one, expects what this one does. -/
theorem yields_caseBranch {selector : Value} {labels : List Literal} {test done fallback : Nat}
    {isLast : Bool} {body : Emit Unit} {H : Held} (htest : Γ.blocks[test]? = some H)
    (hH : Γ.held ⊆ H) (hv : IsValue (Γ.withHeld H) selector) (hdone : Γ.Accepts done)
    (hfallback : Γ.Accepts fallback) (hb : ∀ Δ, Γ ≤ Δ → Yields Δ body fun _ _ => True) :
    Yields Γ (caseBranch selector labels test done (blockIf (!isLast) "case.cond" fallback) body)
      fun Δ l => Δ.held = Γ.held ∧ (isLast = false → Δ.blocks[l]? = some H) := by
  intro s l t hok hs
  obtain ⟨c, s₁, s₂, s₃, hc₁, hn₁, hb₁, rfl⟩ := caseBranch_ok hok
  have hle : Γ ≤ Γ.withHeld H := Context.le_withHeld le_rfl hH
  obtain ⟨Δ, hle₁, hs₁, hcond⟩ :=
    yields_matchLabels hv (by simp) hc₁ (hs.move htest)
  have hheld : Γ.held ⊆ Δ.held := (hle.trans hle₁).held
  have hblock := hs₁.block hheld "case.body"
  have hinner : (Δ.withBlock Γ.held).blocks[s₁.draft.blocks]? = some Γ.held := by
    rw [hs₁.count]
    exact Δ.getElem?_withBlock _
  have hle₂ : Γ.withHeld H ≤ Δ.withBlock Γ.held := hle₁.trans (Δ.le_withBlock _)
  obtain ⟨Θ, hle₃, hs₂, hnext, -, hnew, -⟩ :=
    yields_blockIf (Γ := Δ.withBlock Γ.held) hle₁.held
      (hfallback.mono (hle.trans hle₂)) hn₁ hblock
  have hinner' := Context.getElem?_blocks hle₃ hinner
  have hle₄ : Γ ≤ Θ := hle.trans (hle₂.trans hle₃)
  have hbranch : (Terminator.branch c s₁.draft.blocks l).Typed Θ :=
    .branch (hcond.mono ((Δ.le_withBlock _).trans hle₃)) ⟨_, hinner', hle₄.held⟩ hnext
  have hle₅ : Γ ≤ Θ.withHeld Γ.held := Context.le_withHeld hle₄ (List.Subset.refl _)
  obtain ⟨Ψ, hle₆, hs₃, -⟩ := hb _ hle₅ hb₁ ((hs₂.terminate hbranch).move hinner')
  have hend := hs₃.terminate (.jump (hdone.mono (hle₅.trans hle₆)))
  have hle₇ := hle₅.trans hle₆
  exact ⟨_, Context.le_withHeld hle₇ (List.Subset.refl _), hend.weaken hle₇.held, rfl,
    fun hlast => Context.getElem?_blocks hle₆ (hnew (by rw [hlast]; rfl))⟩

/-- `caseFallback` goes on where only what was defined before the CASE is defined. -/
theorem yields_caseFallback {isEmpty : Bool} {test fallback : Nat} {H : Held}
    (htest : isEmpty = true → Γ.blocks[test]? = some H) (hH : Γ.held ⊆ H)
    (hfallback : Γ.blocks[fallback]? = some Γ.held) :
    Yields Γ (caseFallback isEmpty test fallback) fun Δ _ => Δ.held = Γ.held := by
  intro s u t hok hs
  have hle : Γ ≤ Γ.withHeld H := Context.le_withHeld le_rfl hH
  rcases caseFallback_ok hok with ⟨hempty, rfl⟩ | ⟨-, rfl⟩
  · have hend := (hs.move (htest hempty)).terminate (.jump (Context.accepts_of_le hfallback hle))
    exact ⟨_, Context.le_withHeld hle (List.Subset.refl _), hend.move hfallback, rfl⟩
  · exact ⟨_, Context.le_withHeld le_rfl (List.Subset.refl _), hs.move hfallback, rfl⟩

end Emit

/-! ## Statements -/

section

variable {Γ : Context} {scene : Scene} {loop : Option Loop}

/-- `Value.zero?` of a result type can be returned. -/
theorem typed_ret_zero (hΓ : Γ.IsProper) : (Terminator.ret (Value.zero? Γ.result)).Typed Γ := by
  rcases hΓ.result with hvoid | hscalar
  · rw [hvoid]
    exact .ret hvoid
  · cases hr : Γ.result with
    | int bits => exact .retValue (hr ▸ .int 0 (hr ▸ hscalar))
    | real => exact .retValue (hr ▸ .real .zero)
    | ptr => exact .retValue (hr ▸ .null)
    | void => exact (hr ▸ hscalar : Ty.IsScalar .void).elim
    | array length element => exact (hr ▸ hscalar : Ty.IsScalar (.array length element)).elim

/-- `emitResult` gives a value of the result type, or none if there is no result. -/
theorem yields_emitResult {value : Option Expr} (h : scene.Typed Γ loop) :
    Yields Γ (emitResult scene value) fun Δ v => (Terminator.ret v).Typed Δ := by
  refine .of_isProper fun hΓ => ?_
  cases value with
  | none =>
    refine .pure ?_
    rw [← h.result]
    exact typed_ret_zero hΓ
  | some e =>
    refine .bind (e.yields_emit h.env) fun {Δ v} hle hv => ?_
    have hresult : Δ.result = scene.result := hle.result ▸ h.result
    split
    · rename_i hvoid
      exact .pure (.ret (hresult.trans hvoid))
    · rename_i hvalue
      have hscalar : scene.result.IsScalar := (h.result ▸ hΓ.result).resolve_left hvalue
      refine .bind (yields_coerce hv hscalar) fun hle' hw => .pure (.retValue ?_)
      rwa [← hle'.result, hresult]

theorem yields_emitReturn {value : Option Expr} (h : scene.Typed Γ loop) :
    Yields Γ (emitReturn scene value) fun _ _ => True :=
  .bind (yields_emitResult h) fun _ hret => yields_leave hret

/-- `emitBreak` jumps to a block of the loop, which the `Scene` has typed. -/
theorem yields_emitBreak (h : scene.Typed Γ loop) :
    Yields Γ (emitBreak loop) fun _ _ => True := by
  cases loop with
  | none => exact .fail _
  | some l => exact yields_leave (.jump (h.loop l rfl).exit)

theorem yields_emitContinue (h : scene.Typed Γ loop) :
    Yields Γ (emitContinue loop) fun _ _ => True := by
  cases loop with
  | none => exact .fail _
  | some l => exact yields_leave (.jump (h.loop l rfl).next)

/-- `afterBranch` gives a block that expects what `done` does. -/
theorem yields_afterBranch {Δ : Context} {isLast hasElse : Bool} {done : Nat}
    (hdone : Γ.blocks[done]? = some Γ.held) (hle : Γ ≤ Δ) :
    Yields Δ (afterBranch isLast hasElse done) fun Θ l => Θ.blocks[l]? = some Γ.held := by
  unfold afterBranch
  split
  · refine (yields_blockIf hle.held (Context.accepts_of_le hdone hle)).imp fun hle' hl => ?_
    obtain ⟨-, -, hnew, hold⟩ := hl
    cases hasElse with
    | true => exact hnew rfl
    | false => exact hold rfl ▸ Context.getElem?_blocks (hle.trans hle') hdone
  · have hblock : Yields Δ (blockIf true "elsif.cond" done) _ :=
      yields_blockIf hle.held (Context.accepts_of_le hdone hle)
    exact hblock.imp fun _ hl => hl.2.2.1 rfl

/-- What is known of a statement: in every scene that fits, `Statement.emit` yields typed code. -/
def Statement.IsTyped (scene : Scene) (s : Statement) : Prop :=
  ∀ Γ loop, scene.Typed Γ loop → Yields Γ (s.emit scene loop) fun _ _ => True

/-- `emitStatements` is typed if each statement is. -/
theorem yields_emitStatements_of {body : List Statement} (h : scene.Typed Γ loop)
    (hb : ∀ s ∈ body, s.IsTyped scene) :
    Yields Γ (emitStatements scene loop body) fun _ _ => True := by
  induction body generalizing Γ with
  | nil => exact .pure trivial
  | cons s rest ih =>
    rw [emitStatements]
    refine .bind (hb s List.mem_cons_self Γ loop h) fun hle _ => ?_
    exact ih (h.mono hle) fun s hs => hb s (List.mem_cons_of_mem _ hs)

theorem yields_emitElse_of {done : Nat} {otherwise : Option (List Statement)}
    (h : scene.Typed Γ loop) (hdone : Γ.blocks[done]? = some Γ.held)
    (hb : ∀ body ∈ otherwise, ∀ s ∈ body, s.IsTyped scene) :
    Yields Γ (emitElse scene loop done otherwise) fun _ _ => True := by
  cases otherwise with
  | none => exact .pure trivial
  | some body => exact yields_elsePart hdone (yields_emitStatements_of h (hb body rfl))

/-- `emitBranches` is typed if the statements of all branches are; every branch starts from what
`done` expects. -/
theorem yields_emitBranches_of {done : Nat} {hasElse : Bool}
    {branches : List (Expr × List Statement)} (h : scene.Typed Γ loop)
    (hdone : Γ.blocks[done]? = some Γ.held)
    (hb : ∀ branch ∈ branches, ∀ s ∈ branch.2, s.IsTyped scene) :
    Yields Γ (emitBranches scene loop done hasElse branches) fun Δ _ => Δ.held = Γ.held := by
  induction branches generalizing Γ with
  | nil => exact .pure rfl
  | cons branch rest ih =>
    obtain ⟨condition, body⟩ := branch
    rw [emitBranches]
    refine .bind (yields_ifBranch hdone (condition.yields_emitCondition h.env)
      (fun Δ hle => yields_afterBranch hdone hle)
      fun Δ hle => yields_emitStatements_of (h.mono hle) (hb _ List.mem_cons_self))
      fun {Δ _} hle hheld => ?_
    have hdone' : Δ.blocks[done]? = some Δ.held := hheld ▸ Context.getElem?_blocks hle hdone
    have hrest := ih (h.mono hle) hdone' fun branch hbr => hb branch (List.mem_cons_of_mem _ hbr)
    exact hrest.imp fun _ heq => heq.trans hheld

/-- `emitCases` is typed if the statements of all branches are; the selector stays defined from test
to test. -/
theorem yields_emitCases_of {selector : Value} {done fallback test : Nat} {H : Held}
    {branches : List (List Literal × List Statement)} (h : scene.Typed Γ loop)
    (htest : branches ≠ [] → Γ.blocks[test]? = some H) (hH : Γ.held ⊆ H)
    (hv : IsValue (Γ.withHeld H) selector) (hdone : Γ.Accepts done)
    (hfallback : Γ.Accepts fallback)
    (hb : ∀ branch ∈ branches, ∀ s ∈ branch.2, s.IsTyped scene) :
    Yields Γ (emitCases scene loop selector done fallback test branches)
      fun Δ _ => Δ.held = Γ.held := by
  induction branches generalizing Γ test with
  | nil => exact .pure rfl
  | cons branch rest ih =>
    obtain ⟨labels, body⟩ := branch
    rw [emitCases]
    refine .bind (yields_caseBranch (htest (List.cons_ne_nil _ _)) hH hv hdone hfallback
      fun Δ hle => yields_emitStatements_of (h.mono hle) (hb _ List.mem_cons_self))
      fun {Δ next} hle hnext => ?_
    obtain ⟨hheld, hnew⟩ := hnext
    have hrest := ih (h.mono hle) (fun hne => hnew (by simpa using hne)) (hheld ▸ hH)
      (hv.mono (Context.withHeld_le_withHeld hle (List.Subset.refl _))) (hdone.mono hle)
      (hfallback.mono hle) fun branch hbr => hb branch (List.mem_cons_of_mem _ hbr)
    exact hrest.imp fun _ heq => heq.trans hheld

/-- Every statement `IsTyped`, by induction on statements. -/
theorem Statement.isTyped (scene : Scene) (s : Statement) : s.IsTyped scene := by
  induction s using Statement.induction with
  | assign target value =>
    intro Γ loop h
    rw [Statement.emit]
    exact yields_emitAssign h.env
  | call name arguments =>
    intro Γ loop h
    rw [Statement.emit]
    exact yields_emitCallStatement h.env
  | ifThen branches otherwise ihb iho =>
    intro Γ loop h
    rw [Statement.emit]
    have hblock : Yields Γ (newBlock "if.end") fun Δ l =>
        Δ.held = Γ.held ∧ Δ.blocks[l]? = some Γ.held := by
      intro s l t hok hs
      obtain ⟨rfl, rfl⟩ := newBlock_eq_ok.mp hok
      refine ⟨_, Γ.le_withBlock Γ.held, hs.block (List.Subset.refl _) _, rfl, ?_⟩
      rw [hs.count]
      exact Γ.getElem?_withBlock _
    refine .bind hblock fun {Δ done} hle hdone => ?_
    have hdone' : Δ.blocks[done]? = some Δ.held := hdone.1 ▸ hdone.2
    refine .bind (yields_emitBranches_of (h.mono hle) hdone' ihb) fun {Θ _} hle' hheld => ?_
    exact yields_emitElse_of (h.mono (hle.trans hle'))
      (hheld ▸ Context.getElem?_blocks hle' hdone') iho
  | whileDo condition body ih =>
    intro Γ loop h
    rw [Statement.emit]
    exact yields_whileDo (fun Δ hle => condition.yields_emitCondition (h.env.mono hle))
      fun Δ l hle hl => yields_emitStatements_of ((h.mono hle).inside hl) ih
  | repeatUntil body condition ih =>
    intro Γ loop h
    rw [Statement.emit]
    exact yields_repeatUntil (fun Δ hle => condition.yields_emitCondition (h.env.mono hle))
      fun Δ l hle hl => yields_emitStatements_of ((h.mono hle).inside hl) ih
  | forDo counter start limit direction body ih =>
    intro Γ loop h
    rw [Statement.emit]
    exact yields_forDo (yields_emitCounter h.env)
      (fun Δ hle => start.yields_emit (h.env.mono hle))
      (fun Δ hle => limit.yields_emit (h.env.mono hle))
      fun Δ l hle hl => yields_emitStatements_of ((h.mono hle).inside hl) ih
  | caseOf selector branches otherwise ihb iho =>
    intro Γ loop h
    rw [Statement.emit]
    refine .bind (yields_caseHead (selector.yields_emit h.env)) fun {Δ p} hle hp => ?_
    obtain ⟨v, done, fallback, test⟩ := p
    obtain ⟨hheld, hdone, hfallback, H, htest, hH, hv⟩ := hp
    rw [← hheld] at hdone hfallback hH
    refine .bind (yields_emitCases_of (h.mono hle) (fun _ => htest) hH hv
      ⟨_, hdone, List.Subset.refl _⟩ ⟨_, hfallback, List.Subset.refl _⟩ ihb)
      fun {Θ _} hle₁ hheld₁ => ?_
    refine .bind (yields_caseFallback (fun _ => Context.getElem?_blocks hle₁ htest)
      (hheld₁ ▸ hH) (hheld₁ ▸ Context.getElem?_blocks hle₁ hfallback)) fun {Ψ _} hle₂ hheld₂ => ?_
    have hdone' : Ψ.blocks[done]? = some Ψ.held := by
      rw [hheld₂, hheld₁]
      exact Context.getElem?_blocks (hle₁.trans hle₂) hdone
    exact yields_emitElse_of (h.mono (hle.trans (hle₁.trans hle₂))) hdone' iho
  | breakLoop =>
    intro Γ loop h
    rw [Statement.emit]
    exact yields_emitBreak h
  | continueLoop =>
    intro Γ loop h
    rw [Statement.emit]
    exact yields_emitContinue h
  | returnWith value =>
    intro Γ loop h
    rw [Statement.emit]
    exact yields_emitReturn h

/-- `emitStatements` of any body is typed in a typed `Scene`. -/
theorem yields_emitStatements {body : List Statement} (h : scene.Typed Γ loop) :
    Yields Γ (emitStatements scene loop body) fun _ _ => True :=
  yields_emitStatements_of h fun s _ => s.isTyped scene

end

end Oberon
