import Mathlib.Algebra.Order.Ring.Nat
import Oberon.Proofs.Sections
import Oberon.Proofs.TypedStatements

/-!
# Typed declarations

Declarations make typed environments: resolved types have proper dimensions, variables are
stored in places of their types, and parameters are where the caller puts them. Inside of a
procedure the cells of its variables stand in the first block, so they are there for the whole
body.
-/

namespace Oberon

open Code Emit

/-! ## Resolved types -/

/-- `Expr.dimension` is a length from 1 to `2 ^ 32 - 1`. -/
theorem Expr.dimension_bounds (env : Environment) (e : Expr) :
    1 ≤ e.dimension env ∧ e.dimension env < 2 ^ 32 := by
  unfold Expr.dimension
  split
  · rename_i length _
    split
    · rename_i h
      simp only [Bool.and_eq_true, decide_eq_true_eq, Int64.lt_iff_toInt_lt,
        Int64.le_iff_toInt_le] at h
      obtain ⟨hpos, hle⟩ := h
      have hpos : (0 : Int) < length.toInt := hpos
      have hle : length.toInt ≤ 4294967295 := hle
      omega
    · omega
  · omega

theorem mem_of_lookup {β : Type} {entries : List (String × β)} {name : String} {b : β}
    (h : entries.lookup name = some b) : (name, b) ∈ entries := by
  obtain ⟨before, after, rfl, -⟩ := List.lookup_eq_some_iff.mp h
  exact List.mem_append_right _ List.mem_cons_self

/-- `Ty.arrayOf` lengths in range is a shaped type. -/
theorem Code.Ty.IsShaped.arrayOf {dimensions : List Nat} {element : Ty}
    (h : ∀ n ∈ dimensions, 1 ≤ n ∧ n < 2 ^ 32) (he : element.IsShaped) :
    (Ty.arrayOf dimensions element).IsShaped := by
  induction dimensions with
  | nil => exact he
  | cons n rest ih =>
    obtain ⟨hn, hrest⟩ := List.forall_mem_cons.mp h
    exact ⟨hn.1, hn.2, ih hrest⟩

/-- Scopes that remember only types with `IsShaped`. -/
def AreShaped (scopes : List TypeScope) : Prop :=
  ∀ scope ∈ scopes, ∀ x ∈ scope.resolved, x.2.IsShaped

/-- A resolution whose types, found and remembered, are all shaped. -/
structure Resolution.IsShaped (r : Resolution) : Prop where
  result : ∀ {ty}, r.result = .ok ty → ty.IsShaped
  scopes : AreShaped r.scopes

section

variable {dimension : Expr → Nat}

/-- `TypeExpr.resolve` gives shaped types, if it does so for names. -/
theorem TypeExpr.isShaped_resolve {named : String → Resolution} {scopes : List TypeScope}
    (hd : ∀ e, 1 ≤ dimension e ∧ dimension e < 2 ^ 32) (hs : AreShaped scopes)
    (hn : ∀ name, (named name).IsShaped) (resolving : List (Nat × String)) (type : TypeExpr) :
    (type.resolve dimension named scopes resolving).IsShaped := by
  have base {ty : Ty} (hty : ty.IsShaped) :
      Resolution.IsShaped { result := .ok ty, scopes, resolving } :=
    ⟨fun h => Except.ok.inj h ▸ hty, hs⟩
  induction type with
  | integer => exact base ⟨by decide, Nat.le_refl 64⟩
  | real => exact base trivial
  | boolean => exact base ⟨Nat.le_refl 1, by decide⟩
  | string => exact base trivial
  | named name => exact hn name
  | array dimensions element ih =>
    refine ⟨fun {ty} h => ?_, ih.scopes⟩
    have h : ((element.resolve dimension named scopes resolving).result.map
        (Ty.arrayOf (dimensions.map dimension))) = .ok ty := h
    cases hr : (element.resolve dimension named scopes resolving).result with
    | error e => rw [hr] at h; exact nomatch h
    | ok inner =>
      rw [hr] at h
      obtain rfl := Except.ok.inj h
      refine .arrayOf (fun n hn => ?_) (ih.result hr)
      obtain ⟨e, -, rfl⟩ := List.mem_map.mp hn
      exact hd e

theorem Resolution.IsShaped.release {r : Resolution} (h : r.IsShaped) (key : Nat × String) :
    (r.release key).IsShaped :=
  ⟨h.result, h.scopes⟩

theorem Resolution.IsShaped.remember {r : Resolution} (h : r.IsShaped) (name : String) :
    (r.remember name).IsShaped := by
  unfold Resolution.remember
  split
  · rename_i ty scope outer hresult hscopes
    have hall := h.scopes
    rw [hscopes] at hall
    obtain ⟨hscope, houter⟩ := List.forall_mem_cons.mp hall
    refine ⟨h.result, List.forall_mem_cons.mpr ⟨?_, houter⟩⟩
    exact List.forall_mem_cons.mpr ⟨h.result hresult, hscope⟩
  · exact h

/-- `resolveName` gives shaped types, if what scopes remember is shaped. -/
theorem isShaped_resolveName (hd : ∀ e, 1 ≤ dimension e ∧ dimension e < 2 ^ 32) (rounds : Nat)
    (resolving : List (Nat × String)) {scopes : List TypeScope} (name : String)
    (hs : AreShaped scopes) : (resolveName dimension rounds resolving scopes name).IsShaped := by
  induction rounds generalizing resolving scopes name with
  | zero => exact ⟨by rintro _ ⟨⟩, hs⟩
  | succ rounds ih =>
    rw [resolveName]
    split
    · exact ⟨by rintro _ ⟨⟩, hs⟩
    · rename_i scope outer hvisible
      have hsplit := List.prefix_iff_eq_append.mp
        (List.takeWhile_prefix (l := scopes) fun s => (s.declared.lookup name).isNone)
      rw [hvisible] at hsplit
      have hvis : AreShaped (scope :: outer) := fun s hsmem =>
        hs s (hsplit ▸ List.mem_append_right _ hsmem)
      split
      · rename_i ty _ hfound
        refine ⟨fun h => ?_, hs⟩
        obtain rfl := Except.ok.inj h
        exact hvis scope List.mem_cons_self _ (mem_of_lookup hfound)
      · exact ⟨by rintro _ ⟨⟩, hs⟩
      · dsimp only
        split
        · exact ⟨by rintro _ ⟨⟩, hs⟩
        · rename_i definition _ _ _
          have hnext (name' : String) :=
            ih (((scope :: outer).length, name) :: resolving) name' hvis
          have hinner := ((TypeExpr.isShaped_resolve hd hvis hnext
            (((scope :: outer).length, name) :: resolving) definition).release
              ((scope :: outer).length, name)).remember name
          refine ⟨hinner.result, List.forall_mem_append.mpr ⟨fun s hsmem => ?_, hinner.scopes⟩⟩
          exact hs s ((List.takeWhile_prefix _).subset hsmem)

theorem TypeTable.isShaped_resolve (hd : ∀ e, 1 ≤ dimension e ∧ dimension e < 2 ^ 32)
    {t : TypeTable} (h : AreShaped t.scopes) (type : TypeExpr) :
    (t.resolve dimension type).IsShaped :=
  TypeExpr.isShaped_resolve hd h (fun name => isShaped_resolveName hd _ _ name h) _ type

end

/-! ## Environments -/

namespace Environment

variable {env : Environment} {name : String} {named : Named}

theorem lookup_bind (env : Environment) (name other : String) (named : Named) :
    (env.bind name named).lookup other
      = if other = name then some named else env.lookup other := by
  by_cases h : other = name
  · subst h
    simp [bind, lookup]
  · have hne : (other == name) = false := by simpa using h
    obtain ⟨frames⟩ := env
    cases frames <;>
      simp [bind, lookup, innermost, List.lookup_cons, List.findSome?_cons, hne, h]

theorem level_bind (env : Environment) (name : String) (named : Named) :
    (env.bind name named).level = env.level := by
  obtain ⟨frames⟩ := env
  cases frames <;> rfl

theorem lookup_push (env : Environment) (name : String) : env.push.lookup name = env.lookup name :=
  rfl

/-- Where variables are stored that procedures of the section can use, and how deep they are
declared. -/
structure IsLevelled (globals : List Global) (env : Environment) : Prop where
  level : ∀ {name : String} {cell : Variable}, env.lookup name = some (.var cell) →
    cell.level ≤ env.level
  global : ∀ {name : String} {cell : Variable}, env.lookup name = some (.var cell) →
    cell.isGlobal = true → ∃ g ∈ globals, cell.storage = .global g.name ∧ cell.ty = g.ty

/-- `IsLevelled` is kept by a binding of a variable that is no deeper than the environment. -/
theorem IsLevelled.bind {globals : List Global} (h : env.IsLevelled globals)
    (hnew : ∀ {cell}, named = .var cell → cell.level ≤ env.level ∧
      (cell.isGlobal = true → ∃ g ∈ globals, cell.storage = .global g.name ∧ cell.ty = g.ty)) :
    (env.bind name named).IsLevelled globals := by
  constructor
  · intro other cell hcell
    rw [lookup_bind] at hcell
    rw [level_bind]
    split at hcell
    · exact (hnew (Option.some.inj hcell)).1
    · exact h.level hcell
  · intro other cell hcell
    rw [lookup_bind] at hcell
    split at hcell
    · exact (hnew (Option.some.inj hcell)).2
    · exact h.global hcell

/-- `IsLevelled` is kept by a new frame. -/
theorem IsLevelled.push {globals : List Global} (h : env.IsLevelled globals) :
    env.push.IsLevelled globals := by
  refine ⟨fun hcell => ?_, h.global⟩
  have hle : _ ≤ env.frames.length - 1 := h.level hcell
  show _ ≤ (env.frames.length + 1) - 1
  omega

end Environment

/-- What `findVariable` finds after a binding: the variable that was bound, or the one found
before. -/
theorem Emit.findVariable_bind {env : Environment} {name other : String} {named : Named}
    {cell : Variable} (h : findVariable (env.bind name named) other = .ok cell) :
    (other = name ∧ named = .var cell) ∨ findVariable env other = .ok cell := by
  unfold findVariable at h ⊢
  rw [Environment.lookup_bind, Environment.level_bind] at h
  by_cases hname : other = name
  · rw [if_pos hname] at h
    cases named with
    | var found =>
      dsimp only at h
      split at h
      · obtain rfl := Except.ok.inj h
        exact .inl ⟨hname, rfl⟩
      · exact nomatch h
    | constant value => exact nomatch h
    | procedure signature => exact nomatch h
  · rw [if_neg hname] at h
    exact .inr h

namespace Environment.Typed

variable {Γ : Context} {env : Environment}

/-- An environment stays typed by a binding to a place or to a known procedure,
`Environment.bind`. -/
theorem bind (h : env.Typed Γ) {name : String} {named : Named}
    (hvar : ∀ {cell}, named = .var cell → HasKind Γ cell.storage (.place cell.ty))
    (hproc : ∀ {signature}, named = .procedure signature → signature ∈ Γ.signatures) :
    (env.bind name named).Typed Γ := by
  constructor
  · intro other cell hcell
    rcases findVariable_bind hcell with ⟨-, hnamed⟩ | hold
    · exact hvar hnamed
    · exact h.cell hold
  · intro other signature hsig
    rw [lookup_bind] at hsig
    split at hsig
    · exact hproc (Option.some.inj hsig)
    · exact h.procedure hsig

/-- In a new section only globals can be used, so `Environment.push` is typed in the context of
another body. -/
theorem push {Δ : Context} (h : env.Typed Γ) (hlevel : env.IsLevelled Δ.globals)
    (hsigs : Γ.signatures ⊆ Δ.signatures) : env.push.Typed Δ := by
  constructor
  · intro name cell hcell
    unfold findVariable at hcell
    rw [lookup_push] at hcell
    split at hcell
    · rename_i found hfound
      split at hcell
      · rename_i husable
        obtain rfl := Except.ok.inj hcell
        have hframes : env.frames ≠ [] := by
          intro hnil
          rw [lookup, hnil] at hfound
          exact nomatch hfound
        have hlt : env.push.level = env.frames.length := rfl
        have hle := hlevel.level hfound
        have hpos := List.length_pos_iff.mpr hframes
        -- a variable of the new section itself cannot be there yet
        have hglobal : found.isGlobal = true := by
          simp only [Bool.or_eq_true, decide_eq_true_eq] at husable
          rcases husable with hglobal | hsame
          · exact hglobal
          · unfold level at hle
            omega
        obtain ⟨g, hg, hstorage, hty⟩ := hlevel.global hfound hglobal
        rw [hstorage, hty]
        exact .global hg
      · exact nomatch hcell
    · exact nomatch hcell
    · exact nomatch hcell
    · exact nomatch hcell
  · intro name signature hsig
    exact hsigs (h.procedure hsig)

end Environment.Typed

/-! ## Functions -/

/-- What is known in the body of a procedure, before its declarations, if its blocks expect
`expected`. -/
def Signature.context (sig : Signature) (L : Linkage) (expected : List Held) : Context :=
  { L with
    parameters := sig.parameters.map Parameter.kind
    result := sig.result
    blocks := expected }

/-- A function of the given signature whose code is typed, by `BlocksTyped`, and complete. -/
structure Code.Function.Implements (L : Linkage) (sig : Signature) (f : Function) : Prop where
  name : f.name = sig.symbol
  parameters : f.parameters = sig.parameterTypes
  result : f.result = sig.result
  body : ∃ blocks expected, f.body = .blocks blocks ∧ (sig.context L expected).IsProper
    ∧ BlocksTyped (sig.context L expected) blocks ∧ ∀ b ∈ blocks, b.terminator.isSome

/-- A function `Implements` its signature also in a larger linkage. -/
theorem Code.Function.Implements.mono {L M : Linkage} {sig : Signature} {f : Function}
    (h : f.Implements L sig) (hglobals : L.globals ⊆ M.globals) (hstrings : L.strings ⊆ M.strings)
    (hsigs : L.signatures ⊆ M.signatures) (hM : M.IsProper) : f.Implements M sig := by
  obtain ⟨blocks, expected, hbody, hp, htyped, hclosed⟩ := h.body
  refine ⟨h.name, h.parameters, h.result, blocks, expected, hbody,
    ⟨hM, hp.parameters, hp.result, hp.blocks, hp.held⟩, htyped.grow (fun H => ?_) rfl, hclosed⟩
  exact ⟨hglobals, hstrings, hsigs, rfl, rfl, List.prefix_rfl, List.Subset.refl _⟩

/-- The parts of a block that its typing depends on. -/
def Code.Block.content (b : Block) : List Instr × Option Terminator :=
  (b.instrs, b.terminator)

theorem Code.Block.Typed.of_content {Γ : Context} {H : Held} {b c : Block} (h : b.Typed Γ H)
    (heq : b.content = c.content) : c.Typed Γ H := by
  obtain ⟨hinstrs, hterm⟩ := Prod.mk.inj heq
  refine ⟨hinstrs ▸ h.code, fun t ht => ?_⟩
  have := h.terminator t (hterm ▸ ht)
  rwa [Block.held, hinstrs] at this

namespace Code.Builder

theorem map_content_modify {f : Block → Block}
    {g : List Instr × Option Terminator → List Instr × Option Terminator}
    (h : ∀ b, (f b).content = g b.content) (blocks : Array Block) (label : Nat) :
    (blocks.modify label f).map Block.content = (blocks.map Block.content).modify label g := by
  apply Array.ext_getElem?
  intro i
  simp only [Array.getElem?_map, Array.getElem?_modify]
  split
  · simp only [Option.map_map]
    exact congrArg (Option.map · _) (funext h)
  · rfl

/-- `Builder.apply` does the same to builders whose blocks have the same content. -/
theorem content_apply {b c : Builder} (hcursor : b.cursor = c.cursor)
    (hblocks : b.blocks.map Block.content = c.blocks.map Block.content) (e : Edit) :
    (b.apply e).cursor = (c.apply e).cursor
      ∧ (b.apply e).blocks.map Block.content = (c.apply e).blocks.map Block.content := by
  have hmodify {f : Block → Block}
      {g : List Instr × Option Terminator → List Instr × Option Terminator}
      (h : ∀ b, (f b).content = g b.content) (label : Nat) :
      (b.blocks.modify label f).map Block.content
        = (c.blocks.modify label f).map Block.content := by
    rw [map_content_modify h, map_content_modify h, hblocks]
  cases e with
  | addBlock name => exact ⟨hcursor, by simp only [apply, Array.map_push, hblocks, Block.content]⟩
  | switchTo label => exact ⟨rfl, hblocks⟩
  | push i =>
    refine ⟨hcursor, ?_⟩
    simp only [apply, hcursor]
    exact hmodify (g := fun p => (p.1 ++ [i], p.2)) (fun _ => rfl) _
  | pushEntry i =>
    refine ⟨hcursor, ?_⟩
    simp only [apply]
    exact hmodify (g := fun p => (p.1.takeWhile Instr.isAlloca ++ i :: p.1.dropWhile Instr.isAlloca,
      p.2)) (fun _ => rfl) _
  | terminate t =>
    refine ⟨hcursor, ?_⟩
    simp only [apply, hcursor]
    exact hmodify (g := fun p => (p.1, p.2.or (some t))) (fun _ => rfl) _

/-- `Builder.run` does the same to builders whose blocks have the same content. -/
theorem content_run {b c : Builder} (hcursor : b.cursor = c.cursor)
    (hblocks : b.blocks.map Block.content = c.blocks.map Block.content) (script : Array Edit) :
    (b.run script).blocks.map Block.content = (c.run script).blocks.map Block.content := by
  rw [run, run, ← Array.foldl_toList, ← Array.foldl_toList]
  induction script.toList generalizing b c with
  | nil => exact hblocks
  | cons e rest ih =>
    obtain ⟨hcursor', hblocks'⟩ := content_apply hcursor hblocks e
    exact ih hcursor' hblocks'

/-- `Builder.run` changes neither the name of a function nor its type. -/
theorem header_run (b : Builder) (script : Array Edit) :
    (b.run script).name = b.name ∧ (b.run script).parameters = b.parameters
      ∧ (b.run script).result = b.result := by
  rw [run, ← Array.foldl_toList]
  induction script.toList generalizing b with
  | nil => exact ⟨rfl, rfl, rfl⟩
  | cons e rest ih =>
    have hkept : (b.apply e).name = b.name ∧ (b.apply e).parameters = b.parameters
        ∧ (b.apply e).result = b.result := by
      cases e <;> exact ⟨rfl, rfl, rfl⟩
    obtain ⟨hname, hparams, hresult⟩ := ih (b.apply e)
    exact ⟨hname.trans hkept.1, hparams.trans hkept.2.1, hresult.trans hkept.2.2⟩

end Code.Builder

/-- A function under construction has the blocks of `Draft.build`, but for the name of the first
one. -/
theorem Draft.content_run (d : Draft) (name entry : String) (parameters : List Ty) (result : Ty)
    (origin : Option String) :
    ((Builder.start name parameters result entry origin).run d.script).blocks.map Block.content
      = d.build.blocks.map Block.content :=
  Builder.content_run (b := .start name parameters result entry origin)
    (c := .start "" [] .void "" none) rfl (by simp [Builder.start, Block.content]) d.script

/-- A body of typed code becomes a function that `Implements` its signature. -/
theorem Emission.Typed.implements {Γ : Context} {s : Emission} {sig : Signature} (h : s.Typed Γ)
    (hparams : Γ.parameters = sig.parameters.map Parameter.kind) (hresult : Γ.result = sig.result)
    (entry : String) (origin : Option String) :
    (s.draft.function (.start sig.symbol sig.parameterTypes sig.result entry origin)).Implements
      Γ.toLinkage sig := by
  have hp := h.isProper
  have hcontext : sig.context Γ.toLinkage Γ.blocks = Γ.withHeld [] := by
    unfold Signature.context Context.withHeld
    rw [← hparams, ← hresult]
  have hproper : (Γ.withHeld []).IsProper :=
    ⟨hp.linkage, hp.parameters, hp.result, hp.blocks, List.forall_mem_nil _⟩
  have hcontent := s.draft.content_run sig.symbol entry sig.parameterTypes sig.result origin
  have hsize : ((Builder.start sig.symbol sig.parameterTypes sig.result entry origin).run
      s.draft.script).blocks.size = s.build.blocks.size := by
    have := congrArg Array.size hcontent
    rwa [Array.size_map, Array.size_map] at this
  obtain ⟨hname, hptypes, hrty⟩ :=
    (Builder.start sig.symbol sig.parameterTypes sig.result entry origin).header_run s.draft.script
  refine ⟨hname, hptypes, hrty, _, Γ.blocks, rfl, hcontext ▸ hproper,
    ⟨?_, h.blocks.entry, ?_, ?_⟩, ?_⟩
  · exact (Array.size_map ..).trans (hsize.trans h.blocks.size)
  · intro H hH x hx
    obtain ⟨d, hd, hx⟩ := h.blocks.defined H hH x hx
    have hmem : d.content ∈ s.draft.build.blocks.map Block.content := Array.mem_map_of_mem hd
    rw [← hcontent] at hmem
    obtain ⟨c, hc, hdc⟩ := Array.mem_map.mp hmem
    refine ⟨c.terminate _, Array.mem_map_of_mem hc, ?_⟩
    rwa [← (Prod.mk.inj hdc).1] at hx
  · intro label H b hl hb
    rw [hcontext]
    obtain ⟨c, hc, rfl⟩ := Option.map_eq_some_iff.mp ((Array.getElem?_map ..).symm.trans hb)
    obtain ⟨d, hd, hdc⟩ : ∃ d, s.build.blocks[label]? = some d ∧ d.content = c.content := by
      have := congrArg (·[label]?) hcontent
      simp only [Array.getElem?_map, hc, Option.map_some] at this
      obtain ⟨d, hd, hdc⟩ := Option.map_eq_some_iff.mp this.symm
      exact ⟨d, hd, hdc⟩
    have htyped : c.Typed (Γ.withHeld []) H :=
      ((h.blocks.block hl hd).of_content hdc).grow fun _ => .refl _
    refine htyped.terminate ?_
    have hret := typed_ret_zero hproper
    rw [show (Γ.withHeld []).result = sig.result from hresult] at hret
    exact hret.mono (Context.withHeld_le_withHeld le_rfl (List.nil_subset _))
  · intro b hb
    obtain ⟨c, -, rfl⟩ := Array.mem_map.mp hb
    cases hterm : c.terminator <;> simp [Block.terminate, hterm]

end Oberon
