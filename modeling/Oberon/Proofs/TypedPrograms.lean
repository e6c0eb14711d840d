import Oberon.Proofs.TypedSections

/-!
# Typed programs

A module that compiles gives a program of typed functions: each of them has the signature that
calls rely on, and every procedure that is called is there in the end. The invariant is that of
a session between declarations, `Session.Typed`; statements come only at the end of a body.
-/

namespace Oberon

open Code Emit

/-! ## Bodies -/

/-- `pushCell` defines the cell and keeps all other definitions, though it stands before them. -/
theorem Code.Block.mem_definitions_pushCell {b : Block} {i : Instr} {x : Nat × Kind} :
    x ∈ definitions (b.pushCell i).instrs ↔ x ∈ definitions b.instrs ∨ x ∈ i.defines := by
  have hsplit := List.takeWhile_append_dropWhile (p := Instr.isAlloca) (l := b.instrs)
  have hcode : definitions b.instrs = definitions (b.instrs.takeWhile Instr.isAlloca
      ++ b.instrs.dropWhile Instr.isAlloca) := by rw [hsplit]
  rw [hcode]
  simp only [Block.pushCell, definitions, List.flatMap_append, List.flatMap_cons, List.mem_append]
  tauto

theorem Code.Block.mem_held_pushCell {b : Block} {i : Instr} {H : Held} {x : Nat × Kind} :
    x ∈ (b.pushCell i).held H ↔ x ∈ b.held H ∨ x ∈ i.defines := by
  simp only [Block.held, List.mem_append, mem_definitions_pushCell, or_assoc]

/-- `pushCell` may reserve a cell in a typed block before anything that uses it. -/
theorem Code.Block.Typed.pushCell {Γ : Context} {b : Block} {H : Held} {out : Nat} {ty : Ty}
    (h : b.Typed Γ H) (hty : ty.IsProper) (hfresh : ∀ x ∈ b.held H, x.1 ≠ out) :
    (b.pushCell (.alloca out ty)).Typed Γ H := by
  have hsplit := List.takeWhile_append_dropWhile (p := Instr.isAlloca) (l := b.instrs)
  have hcode := h.code
  rw [← hsplit, CodeTyped.append_iff] at hcode
  have hfresh' : ∀ x ∈ H ++ definitions (b.instrs.takeWhile Instr.isAlloca
      ++ b.instrs.dropWhile Instr.isAlloca), x.1 ≠ out := by rw [hsplit]; exact hfresh
  simp only [definitions, List.flatMap_append, List.mem_append] at hfresh'
  refine ⟨CodeTyped.append_iff.mpr ⟨hcode.1, .alloca hty, ?_, hcode.2.weaken ?_ ?_⟩, fun t ht => ?_⟩
  · refine List.forall_mem_singleton.mpr fun y hy => hfresh' y ?_
    rcases List.mem_append.mp hy with hy | hy
    · exact .inl hy
    · exact .inr (.inl hy)
  · exact List.subset_append_left _ _
  · intro y hy
    rcases List.mem_append.mp hy with hy | hy
    · exact .inl hy
    · obtain rfl := List.mem_singleton.mp hy
      exact .inr fun x hx => (hfresh' x (.inr (.inr hx))).symm
  · refine (h.terminator t ht).mono (Context.withHeld_le_withHeld le_rfl fun x hx => ?_)
    exact Block.mem_held_pushCell.mpr (.inl hx)

namespace Emission.Typed

variable {Γ Δ : Context} {s : Emission}

/-- A body without any code satisfies `Emission.Typed`. -/
theorem start {stock : Stock} (hΓ : Γ.IsProper) (hstrings : Γ.strings = stock.strings)
    (hblocks : Γ.blocks = [[]]) (hheld : Γ.held = []) :
    Emission.Typed Γ { stock, draft := {} } := by
  have hblock : ∀ {label : Nat} {H : Held} {b : Block}, Γ.blocks[label]? = some H →
      (Emission.build { stock, draft := {} }).blocks[label]? = some b →
      H = [] ∧ b = { name := "" } := by
    intro label H b hl hb
    rw [hblocks] at hl
    obtain ⟨hlt, rfl⟩ := List.getElem?_eq_some_iff.mp hl
    obtain rfl : label = 0 := by simpa using hlt
    exact ⟨rfl, (Option.some.inj hb).symm⟩
  refine ⟨hΓ, hstrings, by rw [hblocks]; rfl,
    ⟨by rw [hblocks]; rfl, by rw [hblocks]; rfl, by simp [hblocks], ?_⟩, ?_,
    [], { name := "" }, by rw [hblocks]; rfl, rfl, by rw [hheld]; exact List.nil_subset _⟩
  · intro label H b hl hb
    obtain ⟨rfl, rfl⟩ := hblock hl hb
    exact ⟨trivial, by simp⟩
  · intro label H b hl hb x hx
    obtain ⟨rfl, rfl⟩ := hblock hl hb
    exact nomatch hx

/-- `Emission.Typed` of a body that goes on after it was interrupted: the stock has grown, and more
may be known. -/
theorem resume {stock : Stock} (h : s.Typed Γ) (hsub : Γ.Sub Δ) (hΔ : Δ.IsProper)
    (hblocks : Γ.blocks = Δ.blocks) (hheld : Γ.held = Δ.held) (hstrings : Δ.strings = stock.strings)
    (htemps : s.stock.temps ≤ stock.temps) : Emission.Typed Δ { s with stock } := by
  obtain ⟨H, b, hl, hb, hsubset⟩ := h.here
  exact ⟨hΔ, hstrings, hblocks ▸ h.count,
    h.blocks.grow (fun _ => hsub.withHeld (List.Subset.refl _)) hblocks,
    fun hl hb x hx => (h.bounded (hblocks ▸ hl) hb x hx).trans_le htemps,
    H, b, hblocks ▸ hl, hb, hheld ▸ hsubset⟩

/-- `reserved` in the first block, which is the current one, makes the new place known. -/
theorem reserve (h : s.Typed Γ) {ty : Ty} (hty : ty.IsProper) (hcursor : s.build.cursor = 0) :
    (s.reserved ty).Typed (Γ.withHeld (Γ.held ++ [(s.stock.temps, .place ty)])) := by
  have hbuild : (s.reserved ty).build = s.build.apply (.pushEntry (.alloca s.stock.temps ty)) :=
    s.drawn.build_edited _
  have hblocks : (s.reserved ty).build.blocks
      = s.build.blocks.modify s.build.cursor (·.pushCell (.alloca s.stock.temps ty)) := by
    rw [hbuild, hcursor]; rfl
  refine h.modify rfl rfl (Nat.le_succ _) (by rw [hbuild]; rfl) hblocks
    (List.forall_mem_singleton.mpr ⟨hty, Nat.lt_succ_self _⟩)
    (fun b x => Block.mem_definitions_pushCell) fun _ hdrawn hb => ?_
  exact hb.pushCell hty fun x hx => (hdrawn x hx).ne

end Emission.Typed

/-! ## Sessions -/

/-- What holds of a compilation between declarations: all that was made so far is typed, and no
statement of the current body has been emitted. -/
structure Session.Typed (Γ : Context) (s : Session) : Prop where
  emission : s.emission.Typed Γ
  cursor : s.emission.build.cursor = 0
  env : s.env.Typed Γ
  levelled : s.env.IsLevelled Γ.globals
  globals : Γ.globals = s.globals
  types : AreShaped s.types.scopes
  functions : ∀ f ∈ s.functions,
    f ∈ Module.primitives ∨ ∃ sig ∈ Γ.signatures, f.Implements Γ.toLinkage sig

/-- A meaning that a name may get in an environment that is typed in `Γ`. -/
def Named.Fits (Γ : Context) (env : Environment) : Named → Prop
  | .var cell => HasKind Γ cell.storage (.place cell.ty) ∧ cell.level ≤ env.level
    ∧ (cell.isGlobal = true → ∃ g ∈ Γ.globals, cell.storage = .global g.name ∧ cell.ty = g.ty)
  | .constant _ => True
  | .procedure sig => sig ∈ Γ.signatures

/-- A context in which more is known, by `Context.Sub`, but no more procedures. -/
structure Context.Grows (Γ Δ : Context) : Prop extends Γ.Sub Δ where
  signatures_eq : Δ.signatures = Γ.signatures

theorem Context.Grows.refl (Γ : Context) : Γ.Grows Γ :=
  ⟨.refl Γ, rfl⟩

theorem Context.Grows.trans {Γ Δ Θ : Context} (h : Γ.Grows Δ) (h' : Δ.Grows Θ) : Γ.Grows Θ :=
  ⟨h.toSub.trans h'.toSub, h'.signatures_eq.trans h.signatures_eq⟩

/-- A context above another one, by `≤`, grows it: no signatures are added. -/
theorem Context.grows_of_le {Γ Δ : Context} (h : Γ ≤ Δ) : Γ.Grows Δ :=
  ⟨h.toSub, h.signatures_eq⟩

theorem Environment.IsLevelled.mono {env : Environment} {globals more : List Global}
    (h : env.IsLevelled globals) (hsub : globals ⊆ more) : env.IsLevelled more := by
  refine ⟨h.level, fun hcell hglobal => ?_⟩
  obtain ⟨g, hg, hcell⟩ := h.global hcell hglobal
  exact ⟨g, hsub hg, hcell⟩

namespace Session.Typed

variable {Γ Δ : Context} {s t : Session}

/-- The functions of a session stay typed if more is known, by `Function.Implements.mono`. -/
theorem functions_grow (h : s.Typed Γ) (hsub : Γ.Sub Δ) (hΔ : Δ.toLinkage.IsProper) :
    ∀ f ∈ s.functions,
      f ∈ Module.primitives ∨ ∃ sig ∈ Δ.signatures, f.Implements Δ.toLinkage sig := by
  intro f hf
  refine (h.functions f hf).imp_right fun ⟨sig, hsig, himpl⟩ => ?_
  exact ⟨sig, hsub.signatures hsig, himpl.mono hsub.globals hsub.strings hsub.signatures hΔ⟩

/-- A session stays typed when a name gets a meaning that `Fits`. -/
theorem bind (h : s.Typed Γ) {name : String} {named : Named} (hn : named.Fits Γ s.env) :
    (s.bind name named).Typed Γ := by
  refine ⟨h.emission, h.cursor, h.env.bind ?_ ?_, h.levelled.bind ?_, h.globals, h.types,
    h.functions⟩
  · rintro cell rfl
    exact hn.1
  · rintro sig rfl
    exact hn
  · rintro cell rfl
    exact hn.2

theorem withTypes (h : s.Typed Γ) {types : TypeTable} (hs : AreShaped types.scopes) :
    (s.withTypes types).Typed Γ :=
  ⟨h.emission, h.cursor, h.env, h.levelled, h.globals, hs, h.functions⟩

end Session.Typed

namespace Compile

variable {Γ : Context} {s t : Session}

/-- `resolve` gives a proper type and keeps the session typed. -/
theorem resolve_typed {type : TypeExpr} {ty : Ty} (h : resolve type s = .ok (ty, t))
    (hs : s.Typed Γ) : t.Typed Γ ∧ ty.IsProper := by
  obtain ⟨hresult, hsize, rfl⟩ := resolve_ok h
  have hshaped := TypeTable.isShaped_resolve (fun e => e.dimension_bounds s.env) hs.types type
  exact ⟨hs.withTypes hshaped.scopes, hshaped.result hresult, hsize⟩

/-- `constants` keep the session typed: a constant needs nothing of the context. -/
theorem constants_typed {constants : List (String × Expr)} {u : Unit}
    (h : Compile.constants constants s = .ok (u, t)) (hs : s.Typed Γ) : t.Typed Γ := by
  induction constants generalizing s with
  | nil =>
    obtain ⟨_, rfl⟩ := pure_eq_ok.mp h
    exact hs
  | cons c rest ih =>
    obtain ⟨_, r, hget, hbody⟩ := bind_eq_ok.mp h
    obtain ⟨rfl, rfl⟩ := get_eq_ok.mp hget
    cases hvalue : c.2.fold r.env with
    | none =>
      simp only [hvalue] at hbody
      exact (throw_eq_ok.mp hbody).elim
    | some value =>
      simp only [hvalue] at hbody
      obtain ⟨_, r', hdeclare, hrest⟩ := bind_eq_ok.mp hbody
      obtain ⟨_, rfl⟩ := declare_ok hdeclare
      exact ih hrest (hs.bind trivial)

/-- `types` keep the session typed: a scope forgets what it has resolved when a type is declared in
it. -/
theorem types_typed {declarations : List (String × TypeExpr)} {u : Unit}
    (h : types declarations s = .ok (u, t)) (hs : s.Typed Γ) : t.Typed Γ := by
  obtain rfl := modify_eq_ok.mp h
  have hshaped : ∀ table : TypeTable, AreShaped table.scopes → AreShaped
      (declarations.foldl (fun t d => t.declare d.1 d.2) table).scopes := by
    clear h
    induction declarations with
    | nil => exact fun _ h => h
    | cons d rest ih =>
      intro table htable
      refine ih _ ?_
      -- a declaration drops what its scope remembered
      refine List.forall_mem_cons.mpr ⟨List.forall_mem_nil _, fun scope hscope => ?_⟩
      exact htable scope (List.mem_of_mem_tail hscope)
  exact hs.withTypes (hshaped _ hs.types)

/-- `globalVariable` makes one more global known, in a place of its type. -/
theorem globalVariable_typed {moduleName name : String} {ty : Ty} {cell : Variable}
    (h : globalVariable moduleName name ty s = .ok (cell, t)) (hs : s.Typed Γ)
    (hty : ty.IsProper) :
    ∃ Δ, Γ.Grows Δ ∧ t.Typed Δ ∧ (Named.var cell).Fits Δ t.env := by
  simp only [globalVariable, bind_eq_ok, modify_eq_ok, get_eq_ok, pure_eq_ok] at h
  obtain ⟨_, _, rfl, _, _, ⟨rfl, rfl⟩, rfl, rfl⟩ := h
  set g : Global := ⟨moduleName ++ "." ++ name, ty⟩
  set Δ : Context := { Γ with globals := Γ.globals ++ [g] }
  have hsub : Γ.Sub Δ :=
    ⟨List.subset_append_left _ _, List.Subset.refl _, List.Subset.refl _, rfl, rfl,
      List.prefix_rfl, List.Subset.refl _⟩
  have hp := hs.emission.isProper
  have hlinkage : Δ.toLinkage.IsProper :=
    ⟨List.forall_mem_append.mpr ⟨hp.linkage.globals, List.forall_mem_singleton.mpr hty⟩,
      hp.linkage.signatures⟩
  have hΔ : Δ.IsProper := ⟨hlinkage, hp.parameters, hp.result, hp.blocks, hp.held⟩
  have hg : g ∈ Δ.globals := List.mem_append_right _ (List.mem_singleton.mpr rfl)
  refine ⟨Δ, ⟨hsub, rfl⟩, ⟨?_, hs.cursor, hs.env.grow hsub, hs.levelled.mono hsub.globals, ?_,
    hs.types, hs.functions_grow hsub hlinkage⟩, .global hg, le_rfl, fun _ => ⟨g, hg, rfl, rfl⟩⟩
  · exact hs.emission.resume hsub hΔ rfl rfl hs.emission.strings le_rfl
  · show Γ.globals ++ [g] = s.globals ++ [g]
    rw [hs.globals]

/-- `cell` makes one more place known, which the first block defines. -/
theorem cell_typed {ty : Ty} {v : Value} {e e' : Emission} (h : cell ty e = .ok (v, e'))
    (he : e.Typed Γ) (hcursor : e.build.cursor = 0) (hty : ty.IsProper) :
    ∃ Δ, Γ ≤ Δ ∧ e'.Typed Δ ∧ e'.build.cursor = 0 ∧ HasKind Δ v (.place ty) := by
  obtain ⟨rfl, rfl⟩ := cell_eq_ok.mp h
  refine ⟨_, Γ.le_withHeld_append _, he.reserve hty hcursor, ?_, Γ.hasKind_last _ (.place ty)⟩
  rw [Emission.reserved, Emission.build_edited, Emission.build_drawn]
  exact hcursor

/-- `withEmission` of code in the first block keeps a session typed. -/
theorem withEmission_typed {Δ : Context} {e : Emission} (hs : s.Typed Γ) (hle : Γ ≤ Δ)
    (he : e.Typed Δ) (hcursor : e.build.cursor = 0) : (s.withEmission e).Typed Δ :=
  ⟨he, hcursor, hs.env.mono hle, hle.globals_eq ▸ hs.levelled, hle.globals_eq.trans hs.globals,
    hs.types, hs.functions_grow hle.toSub he.isProper.linkage⟩

/-- `localVariable` makes a cell known that only the current frame may use. -/
theorem localVariable_typed {name : String} {ty : Ty} {cell : Variable}
    (h : localVariable name ty s = .ok (cell, t)) (hs : s.Typed Γ) (hty : ty.IsProper) :
    ∃ Δ, Γ.Grows Δ ∧ t.Typed Δ ∧ (Named.var cell).Fits Δ t.env := by
  simp only [localVariable, bind_eq_ok, emit_eq_ok, get_eq_ok, pure_eq_ok] at h
  obtain ⟨v, _, ⟨e, he, rfl⟩, _, _, ⟨rfl, rfl⟩, rfl, rfl⟩ := h
  obtain ⟨Δ, hle, htyped, hcursor, hv⟩ := cell_typed he hs.emission hs.cursor hty
  exact ⟨Δ, Context.grows_of_le hle, withEmission_typed hs hle htyped hcursor, hv, le_rfl,
    fun h => nomatch h⟩

/-- `varsOf` keeps a session typed if `make` does for proper types. -/
theorem varsOf_typed {make : String → Ty → Compile Variable} {ty : Ty} {names : List String}
    {u : Unit} (hmake : ∀ {name s cell t Γ}, make name ty s = .ok (cell, t) → s.Typed Γ →
      ∃ Δ, Γ.Grows Δ ∧ t.Typed Δ ∧ (Named.var cell).Fits Δ t.env)
    (h : varsOf make ty names s = .ok (u, t)) (hs : s.Typed Γ) :
    ∃ Δ, Γ.Grows Δ ∧ t.Typed Δ := by
  induction names generalizing s Γ with
  | nil =>
    obtain ⟨_, rfl⟩ := pure_eq_ok.mp h
    exact ⟨Γ, .refl Γ, hs⟩
  | cons name rest ih =>
    obtain ⟨cell, r, hcell, h⟩ := bind_eq_ok.mp h
    obtain ⟨_, r', hdeclare, hrest⟩ := bind_eq_ok.mp h
    obtain ⟨_, rfl⟩ := declare_ok hdeclare
    obtain ⟨Δ, hle, hr, hfits⟩ := hmake hcell hs
    obtain ⟨Θ, hle', ht⟩ := ih hrest (hr.bind hfits)
    exact ⟨Θ, hle.trans hle', ht⟩

theorem vars_typed {make : String → Ty → Compile Variable}
    {declarations : List (List String × TypeExpr)} {u : Unit}
    (hmake : ∀ {name ty s cell t Γ}, make name ty s = .ok (cell, t) → s.Typed Γ → ty.IsProper →
      ∃ Δ, Γ.Grows Δ ∧ t.Typed Δ ∧ (Named.var cell).Fits Δ t.env)
    (h : vars make declarations s = .ok (u, t)) (hs : s.Typed Γ) :
    ∃ Δ, Γ.Grows Δ ∧ t.Typed Δ := by
  induction declarations generalizing s Γ with
  | nil =>
    obtain ⟨_, rfl⟩ := pure_eq_ok.mp h
    exact ⟨Γ, .refl Γ, hs⟩
  | cons d rest ih =>
    obtain ⟨ty, r, hresolve, h⟩ := bind_eq_ok.mp h
    obtain ⟨_, r', hnames, hrest⟩ := bind_eq_ok.mp h
    obtain ⟨hr, hty⟩ := resolve_typed hresolve hs
    obtain ⟨Δ, hle, hr'⟩ := varsOf_typed (fun hcell hs => hmake hcell hs hty) hnames hr
    obtain ⟨Θ, hle', ht⟩ := ih hrest hr'
    exact ⟨Θ, hle.trans hle', ht⟩

/-- `resultType` is void or a scalar. -/
theorem resultType_typed {result : Option TypeExpr} {ty : Ty}
    (h : resultType result s = .ok (ty, t)) (hs : s.Typed Γ) : t.Typed Γ ∧ ty.IsResult := by
  cases result with
  | none =>
    obtain ⟨rfl, rfl⟩ := pure_eq_ok.mp h
    exact ⟨hs, .inl rfl⟩
  | some type =>
    obtain ⟨found, r, hresolve, h⟩ := bind_eq_ok.mp h
    obtain ⟨hr, hfound⟩ := resolve_typed hresolve hs
    split at h
    · exact (throw_eq_ok.mp h).elim
    · rename_i harray
      obtain ⟨rfl, rfl⟩ := pure_eq_ok.mp h
      exact ⟨hr, .inr (hfound.shaped.isScalar (Bool.not_eq_true _ ▸ harray))⟩

/-- `parameters` are of proper kinds: what is passed by value is no array. -/
theorem parameters_typed {formals : List FormalSection} {params : List Parameter}
    (h : parameters formals s = .ok (params, t)) (hs : s.Typed Γ) :
    t.Typed Γ ∧ ∀ p ∈ params, p.kind.IsProper := by
  induction formals generalizing s params with
  | nil =>
    obtain ⟨rfl, rfl⟩ := pure_eq_ok.mp h
    exact ⟨hs, List.forall_mem_nil _⟩
  | cons formal rest ih =>
    obtain ⟨ty, r, hresolve, h⟩ := bind_eq_ok.mp h
    obtain ⟨others, r', hothers, h⟩ := bind_eq_ok.mp h
    obtain ⟨rfl, rfl⟩ := pure_eq_ok.mp h
    obtain ⟨hr, hty⟩ := resolve_typed hresolve hs
    obtain ⟨ht, hothers⟩ := ih hothers hr
    refine ⟨ht, List.forall_mem_append.mpr ⟨List.forall_mem_map.mpr fun name _ => ?_, hothers⟩⟩
    unfold Parameter.kind
    split
    · exact hty
    · rename_i hvalue
      -- what is not passed by reference is no array
      have harray : ty.isArray = false := by
        simp only [Bool.or_eq_true, not_or, Bool.not_eq_true] at hvalue
        exact hvalue.2
      exact hty.shaped.isScalar harray

/-- `signature` is proper, so that functions may implement it. -/
theorem signature_typed {symbol : String} {formals : List FormalSection}
    {result : Option TypeExpr} {sig : Signature}
    (h : signature symbol formals result s = .ok (sig, t)) (hs : s.Typed Γ) :
    t.Typed Γ ∧ sig.IsProper := by
  obtain ⟨ty, r, hresult, h⟩ := bind_eq_ok.mp h
  obtain ⟨params, r', hparams, h⟩ := bind_eq_ok.mp h
  obtain ⟨rfl, rfl⟩ := pure_eq_ok.mp h
  obtain ⟨hr, hty⟩ := resultType_typed hresult hs
  obtain ⟨ht, hp⟩ := parameters_typed hparams hr
  exact ⟨ht, hty, hp⟩

/-- `storage` is the address that came in, or a cell with the value that did. -/
theorem storage_typed {index : Nat} {p : Parameter} {v : Value} {e e' : Emission}
    (h : storage index p e = .ok (v, e')) (he : e.Typed Γ) (hcursor : e.build.cursor = 0)
    (hp : Γ.parameters[index]? = some p.kind) :
    ∃ Δ, Γ ≤ Δ ∧ e'.Typed Δ ∧ e'.build.cursor = 0 ∧ HasKind Δ v (.place p.ty) := by
  have hkind : p.kind.IsProper := he.isProper.parameters _ (List.mem_of_getElem? hp)
  unfold storage at h
  unfold Parameter.kind at hp hkind
  split at h
  · rename_i href
    rw [if_pos href] at hp
    obtain ⟨rfl, rfl⟩ := pure_eq_ok.mp h
    exact ⟨Γ, le_rfl, he, hcursor, .param (k := .place p.ty) hp⟩
  · rename_i href
    rw [if_neg href] at hp hkind
    obtain ⟨slot, e₁, hcell, h⟩ := bind_eq_ok.mp h
    obtain ⟨_, e₂, hpush, h⟩ := bind_eq_ok.mp h
    obtain ⟨rfl, rfl⟩ := pure_eq_ok.mp h
    obtain ⟨Δ, hle, he₁, hcursor₁, hslot⟩ :=
      cell_typed hcell he hcursor (Ty.IsScalar.isProper hkind)
    obtain rfl := push_eq_ok.mp hpush
    -- the cell may have grown the context, but not the parameters
    have hvalue : HasKind Δ (.param index p.ty) (.value p.ty) :=
      .param (k := .value p.ty) (hle.parameters ▸ hp)
    refine ⟨Δ, hle, he₁.push (.store hvalue hslot) rfl, ?_, hslot⟩
    rw [Emission.pushed, Emission.build_edited]
    exact hcursor₁

/-- `bindParameters` keeps a session typed, from the parameter at `index` on. -/
theorem bindParameters_typed {index : Nat} {params : List Parameter} {u : Unit}
    (h : bindParameters index params s = .ok (u, t)) (hs : s.Typed Γ)
    (hparams : Γ.parameters.drop index = params.map Parameter.kind) :
    ∃ Δ, Γ.Grows Δ ∧ t.Typed Δ := by
  induction params generalizing index s Γ with
  | nil =>
    obtain ⟨_, rfl⟩ := pure_eq_ok.mp h
    exact ⟨Γ, .refl Γ, hs⟩
  | cons p rest ih =>
    simp only [bindParameters, bind_eq_ok, emit_eq_ok, get_eq_ok] at h
    obtain ⟨v, _, ⟨e, he, rfl⟩, _, r, ⟨rfl, rfl⟩, _, r', hdeclare, hrest⟩ := h
    obtain ⟨_, rfl⟩ := declare_ok hdeclare
    have hfirst : Γ.parameters[index]? = some p.kind := by
      rw [← List.head?_drop, hparams]
      rfl
    obtain ⟨Δ, hle, htyped, hcursor, hv⟩ := storage_typed he hs.emission hs.cursor hfirst
    have hothers : Δ.parameters.drop (index + 1) = rest.map Parameter.kind := by
      rw [← hle.parameters, ← List.tail_drop, hparams]
      rfl
    obtain ⟨Θ, hle', ht⟩ := ih hrest
      ((withEmission_typed hs hle htyped hcursor).bind ⟨hv, le_rfl, fun h => nomatch h⟩) hothers
    exact ⟨Θ, (Context.grows_of_le hle).trans hle', ht⟩

end Compile

/-! ## Procedures -/

mutual

/-- The names of the functions that a procedure and those inside of it become. -/
def Procedure.symbols (unit : String) : Procedure → List String
  | .mk name _ _ ⟨_, _, _, procedures⟩ _ =>
    (unit ++ "." ++ name) :: symbolsOf (unit ++ "." ++ name) procedures

/-- The `Procedure.symbols` of the procedures of a unit. -/
def symbolsOf (unit : String) : List Procedure → List String
  | [] => []
  | p :: rest => p.symbols unit ++ symbolsOf unit rest

end

mutual

/-- The signatures of a procedure and of those inside of it, in the order in which they get known
while it is compiled. -/
def Procedure.signatures (unit : String) : Procedure → Session → List Signature
  | .mk name formals result ⟨constants, types, vars, procedures⟩ _, s =>
    match Compile.openProcedure name (unit ++ "." ++ name) formals result constants types vars
      s with
    | .ok ((sig, _), t) => sig :: signaturesOf (unit ++ "." ++ name) procedures t
    | .error _ => []

/-- The `Procedure.signatures` of the procedures of a unit. -/
def signaturesOf (unit : String) : List Procedure → Session → List Signature
  | [], _ => []
  | p :: rest, s => p.signatures unit s ++
    match p.compile unit s with
    | .ok (_, t) => signaturesOf unit rest t
    | .error _ => []

end

/-- `Procedure.signatures` are that of the procedure, and then those inside of it. -/
theorem Procedure.signatures_mk {unit name entry : String} {formals : List FormalSection}
    {result : Option TypeExpr} {declarations : Declarations Procedure} {body : List Statement}
    {s t : Session} {sig : Signature} {outer : Draft}
    (h : Compile.openProcedure name (unit ++ "." ++ name) formals result declarations.constants
      declarations.types declarations.vars s = .ok ((sig, entry, outer), t)) :
    (Procedure.mk name formals result declarations body).signatures unit s
      = sig :: signaturesOf (unit ++ "." ++ name) declarations.procedures t := by
  obtain ⟨constants, types, vars, procedures⟩ := declarations
  simp only [Procedure.signatures, h]

theorem signaturesOf_cons {unit : String} {p : Procedure} {rest : List Procedure} {s t : Session}
    {u : Unit} (h : p.compile unit s = .ok (u, t)) :
    signaturesOf unit (p :: rest) s = p.signatures unit s ++ signaturesOf unit rest t := by
  simp only [signaturesOf, h]

/-- `signaturesOf` bear the names that `symbolsOf` lists, if those of each procedure do. -/
theorem symbol_signaturesOf_of {unit : String} {procedures : List Procedure}
    (h : ∀ p ∈ procedures, ∀ {unit s t u}, p.compile unit s = .ok (u, t) →
      (p.signatures unit s).map (·.symbol) = p.symbols unit) {s t : Session} {u : Unit}
    (hok : compileProcedures unit procedures s = .ok (u, t)) :
    (signaturesOf unit procedures s).map (·.symbol) = symbolsOf unit procedures := by
  induction procedures generalizing s with
  | nil => rw [signaturesOf, symbolsOf, List.map_nil]
  | cons p rest ih =>
    rw [compileProcedures] at hok
    obtain ⟨_, r, hp, hrest⟩ := bind_eq_ok.mp hok
    rw [signaturesOf_cons hp, symbolsOf, List.map_append, h p List.mem_cons_self hp,
      ih (fun p hp => h p (List.mem_cons_of_mem _ hp)) hrest]

/-- `Procedure.signatures` bear the names of their functions, `Procedure.symbols`. -/
theorem Procedure.symbol_signatures {p : Procedure} {unit : String} {s t : Session} {u : Unit}
    (h : p.compile unit s = .ok (u, t)) :
    (p.signatures unit s).map (·.symbol) = p.symbols unit := by
  induction p using Procedure.induction generalizing unit s t u with
  | mk name formals result declarations body ih =>
    obtain ⟨sig, entry, outer, a, b, ho, hn, -⟩ := Procedure.compile_ok h
    obtain ⟨r, -, -, -, hsig, -⟩ := Compile.openProcedure_ok ho
    rw [Procedure.signatures_mk ho, List.map_cons, Compile.signature_symbol hsig,
      symbol_signaturesOf_of (fun p hp {_ _ _ _} => ih p hp) hn, Procedure.symbols]

theorem symbol_signaturesOf {unit : String} {procedures : List Procedure} {s t : Session}
    {u : Unit} (h : compileProcedures unit procedures s = .ok (u, t)) :
    (signaturesOf unit procedures s).map (·.symbol) = symbolsOf unit procedures :=
  symbol_signaturesOf_of (fun p _ {_ _ _ _} h => p.symbol_signatures h) h

/-- The names of the functions made so far. -/
def Session.names (s : Session) : List String :=
  s.functions.map (·.name)

namespace Code.Program

/-- What `insertFunction` leaves is the new function or an old one. -/
theorem mem_insertFunction {f g : Function} {functions : List Function}
    (h : g ∈ insertFunction f functions) : g = f ∨ g ∈ functions := by
  induction functions with
  | nil => exact .inl (List.mem_singleton.mp h)
  | cons first rest ih =>
    rw [insertFunction] at h
    split at h
    · exact (List.mem_cons.mp h).imp_right (List.mem_cons_of_mem _)
    · rcases List.mem_cons.mp h with rfl | h
      · exact .inr List.mem_cons_self
      · exact (ih h).imp_right (List.mem_cons_of_mem _)

/-- No name is lost by `insertFunction`, and that of the new function is there afterwards. -/
theorem cons_names_subset_insertFunction (f : Function) (functions : List Function) :
    f.name :: functions.map (·.name) ⊆ (insertFunction f functions).map (·.name) := by
  induction functions with
  | nil => exact List.Subset.refl _
  | cons first rest ih =>
    obtain ⟨hf, hrest⟩ := List.cons_subset.mp ih
    rw [insertFunction]
    split
    · rename_i hname
      rw [List.map_cons, List.map_cons, beq_iff_eq.mp hname]
      exact List.cons_subset.mpr ⟨List.mem_cons_self, List.Subset.refl _⟩
    · refine List.cons_subset.mpr ⟨List.mem_cons_of_mem _ hf, ?_⟩
      exact List.cons_subset_cons _ hrest

end Code.Program

/-- What procedures add to a compilation: their signatures and functions of their names. -/
structure Session.Links (Γ Δ : Context) (s t : Session) (new : List Signature) : Prop
    extends Γ.Sub Δ where
  blocks_eq : Δ.blocks = Γ.blocks
  held_eq : Δ.held = Γ.held
  signatures_eq : Δ.signatures = Γ.signatures ++ new
  names : s.names ++ new.map (·.symbol) ⊆ t.names

namespace Session

variable {Γ Δ Θ : Context} {r s t : Session}

theorem Links.refl (Γ : Context) (s : Session) : Links Γ Γ s s [] :=
  ⟨.refl Γ, rfl, rfl, (List.append_nil _).symm,
    (List.append_nil s.names).symm ▸ List.Subset.refl _⟩

/-- `Links` composes, with the signatures of both parts in order. -/
theorem Links.trans {first second : List Signature} (h : Links Γ Δ r s first)
    (h' : Links Δ Θ s t second) : Links Γ Θ r t (first ++ second) := by
  refine ⟨h.toSub.trans h'.toSub, h'.blocks_eq.trans h.blocks_eq, h'.held_eq.trans h.held_eq,
    ?_, ?_⟩
  · rw [h'.signatures_eq, h.signatures_eq, List.append_assoc]
  · obtain ⟨hkept, hadded⟩ := List.append_subset.mp h'.names
    rw [List.map_append, ← List.append_assoc]
    exact List.append_subset.mpr ⟨List.Subset.trans h.names hkept, hadded⟩

/-- At the start of a body, after `opened`, only what all functions share is known. -/
theorem Typed.opened {sig : Signature} (h : s.Typed Γ) (hsig : sig.IsProper) :
    s.opened.Typed (sig.context Γ.toLinkage [[]]) := by
  have hproper : (sig.context Γ.toLinkage [[]]).IsProper :=
    ⟨h.emission.isProper.linkage, List.forall_mem_map.mpr hsig.parameters, hsig.result,
      List.forall_mem_singleton.mpr (List.forall_mem_nil _), List.forall_mem_nil _⟩
  refine ⟨.start hproper h.emission.strings rfl rfl, rfl, h.env.push h.levelled
    (List.Subset.refl _), h.levelled.push, h.globals, ?_, h.functions⟩
  exact List.forall_mem_cons.mpr ⟨List.forall_mem_nil _, h.types⟩

/-- A session stays typed when one more procedure gets known. -/
theorem Typed.signature {sig : Signature} (h : s.Typed Γ) (hsig : sig.IsProper) :
    s.Typed { Γ with signatures := Γ.signatures ++ [sig] } := by
  have hp := h.emission.isProper
  have hsub : Γ.Sub { Γ with signatures := Γ.signatures ++ [sig] } :=
    ⟨List.Subset.refl _, List.Subset.refl _, List.subset_append_left _ _, rfl, rfl,
      List.prefix_rfl, List.Subset.refl _⟩
  have hlinkage : Linkage.IsProper ⟨Γ.globals, Γ.strings, Γ.signatures ++ [sig]⟩ :=
    ⟨hp.linkage.globals,
      List.forall_mem_append.mpr ⟨hp.linkage.signatures, List.forall_mem_singleton.mpr hsig⟩⟩
  refine ⟨?_, h.cursor, h.env.grow hsub, h.levelled, h.globals, h.types,
    h.functions_grow hsub hlinkage⟩
  exact h.emission.resume hsub ⟨hlinkage, hp.parameters, hp.result, hp.blocks, hp.held⟩ rfl rfl
    h.emission.strings le_rfl

end Session

/-- `compileProcedures` keeps a session typed if each procedure does, and links all of their
functions. -/
theorem compileProcedures_typed_of {unit : String} {procedures : List Procedure}
    (h : ∀ p ∈ procedures, ∀ {unit Γ s t u}, p.compile unit s = .ok (u, t) → s.Typed Γ →
      ∃ Δ, Session.Links Γ Δ s t (p.signatures unit s) ∧ t.Typed Δ) {Γ : Context} {s t : Session}
    {u : Unit} (hok : compileProcedures unit procedures s = .ok (u, t)) (hs : s.Typed Γ) :
    ∃ Δ, Session.Links Γ Δ s t (signaturesOf unit procedures s) ∧ t.Typed Δ := by
  induction procedures generalizing s Γ with
  | nil =>
    rw [compileProcedures] at hok
    obtain ⟨_, rfl⟩ := pure_eq_ok.mp hok
    rw [signaturesOf]
    exact ⟨Γ, .refl Γ _, hs⟩
  | cons p rest ih =>
    rw [compileProcedures] at hok
    obtain ⟨_, r, hp, hrest⟩ := bind_eq_ok.mp hok
    obtain ⟨Δ, hlinks, hr⟩ := h p List.mem_cons_self hp hs
    obtain ⟨Θ, hlinks', ht⟩ := ih (fun p hp => h p (List.mem_cons_of_mem _ hp)) hrest hr
    rw [signaturesOf_cons hp]
    exact ⟨Θ, hlinks.trans hlinks', ht⟩

/-- `openProcedure` leads to a typed session at the start of the body, where the procedure itself is
known. -/
theorem Compile.openProcedure_typed {name symbol entry : String} {formals : List FormalSection}
    {result : Option TypeExpr} {constantSection : List (String × Expr)}
    {typeSection : List (String × TypeExpr)} {varSection : List (List String × TypeExpr)}
    {sig : Signature} {outer : Draft} {Γ : Context} {s t : Session}
    (h : openProcedure name symbol formals result constantSection typeSection varSection s
      = .ok ((sig, entry, outer), t)) (hs : s.Typed Γ) :
    sig.IsProper ∧ ∃ Δ,
      Context.Grows (sig.context ⟨Γ.globals, Γ.strings, Γ.signatures ++ [sig]⟩ [[]]) Δ
      ∧ t.Typed Δ := by
  obtain ⟨r, a, b, c, hsig, rfl, hp, hcs, hts, hvs⟩ := openProcedure_ok h
  obtain ⟨hr, hproper⟩ := signature_typed hsig hs
  obtain ⟨types, -, rfl⟩ :=
    Session.resolves_of_steps (resolves_signature symbol formals result hsig)
  have hmem : (Named.procedure sig).Fits { Γ with signatures := Γ.signatures ++ [sig] } s.env :=
    List.mem_append_right _ (List.mem_singleton.mpr rfl)
  have hbound : ((s.withTypes types).bind name (.procedure sig)).Typed
      { Γ with signatures := Γ.signatures ++ [sig] } := (hr.signature hproper).bind hmem
  obtain ⟨Δ, hle, ha⟩ := bindParameters_typed hp (hbound.opened hproper) rfl
  obtain ⟨Θ, hle', ht⟩ :=
    vars_typed localVariable_typed hvs (types_typed hts (constants_typed hcs ha))
  exact ⟨hproper, Θ, hle.trans hle', ht⟩

/-- `statements` make a typed body a function that `Implements` its signature. -/
theorem Compile.statements_typed {sig : Signature} {body : List Statement} {Γ : Context}
    {s t : Session} {u : Unit} (h : statements sig.result body s = .ok (u, t))
    (hs : s.emission.Typed Γ) (henv : s.env.Typed Γ)
    (hparams : Γ.parameters = sig.parameters.map Parameter.kind) (hresult : Γ.result = sig.result)
    (entry : String) (origin : Option String) :
    ∃ Δ, Γ ≤ Δ ∧ t.emission.Typed Δ
      ∧ (t.draft.function (.start sig.symbol sig.parameterTypes sig.result entry
        origin)).Implements Δ.toLinkage sig := by
  obtain ⟨e, he, rfl⟩ := statements_ok h
  have hscene : Scene.Typed Γ { env := s.env, result := sig.result } none :=
    ⟨henv, hresult, fun l hl => nomatch hl⟩
  obtain ⟨Δ, hle, htyped, -⟩ := yields_emitStatements hscene he hs
  exact ⟨Δ, hle, htyped, htyped.implements (hle.parameters ▸ hparams) (hle.result ▸ hresult) entry
    origin⟩

/-- A section goes on typed after a procedure, of which it `Gains` the name. -/
theorem Session.Typed.of_gains {Γ Δ : Context} {s t : Session} {name : String} {sig : Signature}
    (hs : s.Typed Γ) (hgains : s.Gains t name sig) (hsub : Γ.Sub Δ) (hΔ : Δ.IsProper)
    (hglobals : Δ.globals = Γ.globals) (hblocks : Γ.blocks = Δ.blocks) (hheld : Γ.held = Δ.held)
    (hstrings : Δ.strings = t.stock.strings) (hsig : sig ∈ Δ.signatures)
    (htypes : AreShaped t.types.scopes)
    (hfunctions : ∀ f ∈ t.functions,
      f ∈ Module.primitives ∨ ∃ sig ∈ Δ.signatures, f.Implements Δ.toLinkage sig) :
    t.Typed Δ := by
  have hemission : t.emission = { s.emission with stock := t.stock } := by
    rw [Session.emission, hgains.draft]
    rfl
  refine ⟨?_, ?_, ?_, ?_, ?_, htypes, hfunctions⟩
  · rw [hemission]
    exact hs.emission.resume hsub hΔ hblocks hheld hstrings hgains.stock.temps
  · rw [hemission]
    exact hs.cursor
  · rw [hgains.env]
    refine (hs.env.grow hsub).bind (fun h => nomatch h) fun h => ?_
    exact Named.procedure.inj h ▸ hsig
  · rw [hgains.env, hglobals]
    exact hs.levelled.bind fun h => nomatch h
  · rw [hglobals, hs.globals, hgains.globals]

/-- A procedure becomes a function that `Implements` its signature, and so do those inside of it. -/
theorem Procedure.typed_of_compile {p : Procedure} {unit : String} {Γ : Context} {s t : Session}
    {u : Unit} (h : p.compile unit s = .ok (u, t)) (hs : s.Typed Γ) :
    ∃ Δ, Session.Links Γ Δ s t (p.signatures unit s) ∧ t.Typed Δ := by
  induction p using Procedure.induction generalizing unit Γ s t u with
  | mk name formals result declarations body ih =>
    obtain ⟨sig, entry, outer, a, b, ho, hn, hc⟩ := Procedure.compile_ok h
    have hgains := Session.gains_of_parts ho (compileProcedures_keeps hn).1 hc
    obtain ⟨hproper, Γ₁, hle₁, ha⟩ := Compile.openProcedure_typed ho hs
    obtain ⟨Γ₂, hlinks, hb⟩ := compileProcedures_typed_of (fun p hp {_ _ _ _ _} => ih p hp) hn ha
    obtain ⟨b₁, hbody, rfl⟩ := Compile.closeProcedure_ok hc
    obtain ⟨Γ₃, hle₃, hemission, himpl⟩ := Compile.statements_typed hbody hb.emission
      hb.env (hlinks.parameters ▸ hle₁.parameters ▸ rfl) (hlinks.result ▸ hle₁.result ▸ rfl) entry
      (some sig.symbol)
    set f := b₁.draft.function
      (.start sig.symbol sig.parameterTypes sig.result entry (some sig.symbol))
    rw [Procedure.signatures_mk ho]
    have hall : Γ₃.signatures = Γ.signatures
        ++ (sig :: signaturesOf (unit ++ "." ++ name) declarations.procedures a) := by
      rw [hle₃.signatures_eq, hlinks.signatures_eq, hle₁.signatures_eq]
      exact List.append_assoc _ _ _
    have hglobals : Γ₃.globals = Γ.globals := by
      rw [hle₃.globals_eq, hb.globals, hs.globals, ← hgains.globals]
      obtain ⟨e, -, rfl⟩ := Compile.statements_ok hbody
      rfl
    have hstrings : Γ.strings ⊆ Γ₃.strings :=
      List.Subset.trans hle₁.strings (List.Subset.trans hlinks.strings hle₃.strings)
    -- outside of the procedure, more strings and signatures are known
    set Δ : Context := { Γ with strings := Γ₃.strings, signatures := Γ₃.signatures }
    have hsub : Γ.Sub Δ :=
      ⟨List.Subset.refl _, hstrings, hall ▸ List.subset_append_left _ _, rfl, rfl,
        List.prefix_rfl, List.Subset.refl _⟩
    have hlinkage : Δ.toLinkage = Γ₃.toLinkage := by
      show Linkage.mk Γ.globals Γ₃.strings Γ₃.signatures = _
      rw [← hglobals]
    have hp := hs.emission.isProper
    have hΔ : Δ.IsProper :=
      ⟨hlinkage ▸ hemission.isProper.linkage, hp.parameters, hp.result, hp.blocks, hp.held⟩
    have hsig : sig ∈ Δ.signatures := hall ▸ List.mem_append_right _ List.mem_cons_self
    obtain ⟨e, -, rfl⟩ := Compile.statements_ok hbody
    refine ⟨Δ, ⟨hsub, rfl, rfl, hall, ?_⟩, hs.of_gains hgains hsub hΔ rfl rfl rfl
      hemission.strings hsig (fun scope hscope => hb.types scope (List.mem_of_mem_tail hscope)) ?_⟩
    · obtain ⟨hkept, hnested⟩ := List.append_subset.mp hlinks.names
      obtain ⟨hself, hbefore⟩ :=
        List.cons_subset.mp (Program.cons_names_subset_insertFunction f b.functions)
      refine List.append_subset.mpr ⟨fun n hn => hbefore (hkept ?_), ?_⟩
      · rwa [Session.names, Compile.openProcedure_functions ho]
      · rw [List.map_cons]
        refine List.cons_subset.mpr ⟨?_, List.Subset.trans hnested hbefore⟩
        rw [← himpl.name]
        exact hself
    · intro g hg
      rcases Program.mem_insertFunction hg with rfl | hg
      · exact .inr ⟨sig, hsig, hlinkage ▸ himpl⟩
      · rw [hlinkage]
        exact hb.functions_grow hle₃.toSub hemission.isProper.linkage g hg

/-! ## Modules -/

/-- The signature of the function at which a program starts; no procedure can call it. -/
def entrySignature : Signature :=
  { symbol := entryName, result := .status, parameters := [] }

/-- A program of typed functions, with the signatures of its procedures. -/
structure Code.Program.Typed (signatures : List Signature) (p : Program) : Prop where
  isProper : Linkage.IsProper ⟨p.globals, p.strings, signatures⟩
  functions : ∀ f ∈ p.functions, f ∈ Module.primitives ∨
    ∃ sig ∈ entrySignature :: signatures, f.Implements ⟨p.globals, p.strings, signatures⟩ sig
  names : Module.primitives.map (·.name) ++ (entrySignature :: signatures).map (·.symbol)
    ⊆ p.functions.map (·.name)

theorem Session.begun_typed : Session.begun.Typed { result := .status, blocks := [[]] } := by
  have hproper : Context.IsProper { result := .status, blocks := [[]] } :=
    ⟨⟨List.forall_mem_nil _, List.forall_mem_nil _⟩, List.forall_mem_nil _,
      .inr ⟨by decide, by decide⟩, List.forall_mem_singleton.mpr (List.forall_mem_nil _),
      List.forall_mem_nil _⟩
  exact ⟨.start hproper rfl rfl rfl, rfl, ⟨fun h => (nomatch h), fun h => (nomatch h)⟩,
    ⟨fun h => (nomatch h), fun h => (nomatch h)⟩, rfl,
    List.forall_mem_singleton.mpr (List.forall_mem_nil _), fun f hf => .inl hf⟩

/-- `started` begins the body of a module in the section of its declarations. -/
theorem Session.Typed.started {Γ : Context} {s : Session} (h : s.Typed Γ) (hdraft : s.draft = {}) :
    s.started.Typed Γ := by
  have hemission : s.started.emission
      = { s.emission with stock := { s.stock with labels := s.stock.labels + 1 } } := by
    rw [Session.emission, Session.emission, hdraft]
    rfl
  refine ⟨?_, rfl, h.env, h.levelled, h.globals, h.types, h.functions⟩
  rw [hemission]
  exact h.emission.resume (.refl Γ) h.emission.isProper rfl rfl h.emission.strings le_rfl

/-- The signatures of the procedures of a module, `signaturesOf` them, in the order in which they
get known. -/
def Module.signatures (m : Module) : List Signature :=
  match (do
      Compile.constants m.declarations.constants
      Compile.types m.declarations.types
      Compile.vars (Compile.globalVariable m.name) m.declarations.vars : Compile Unit) .begun with
  | .ok (_, s) => signaturesOf m.name m.declarations.procedures s
  | .error _ => []

/-- `Module.signatures` are read off the session behind the variables of the module. -/
theorem Module.signatures_eq {m : Module} {a b c : Session}
    (ha : Compile.constants m.declarations.constants .begun = .ok ((), a))
    (hb : Compile.types m.declarations.types a = .ok ((), b))
    (hc : Compile.vars (Compile.globalVariable m.name) m.declarations.vars b = .ok ((), c)) :
    m.signatures = signaturesOf m.name m.declarations.procedures c := by
  have hsection : (do
      Compile.constants m.declarations.constants
      Compile.types m.declarations.types
      Compile.vars (Compile.globalVariable m.name) m.declarations.vars : Compile Unit) .begun
        = .ok ((), c) :=
    bind_eq_ok.mpr ⟨(), a, ha, bind_eq_ok.mpr ⟨(), b, hb, hc⟩⟩
  simp only [Module.signatures, hsection]

/-- `Module.signatures` has one signature for each procedure of the module, nested ones included. -/
theorem Module.symbol_signatures {m : Module} {platform : Platform} {p : Program}
    (h : m.compile platform = .ok p) :
    m.signatures.map (·.symbol) = symbolsOf m.name m.declarations.procedures := by
  obtain ⟨a, b, c, d, e, entry, ha, hb, hc, hd, -⟩ := Module.compile_ok h
  rw [Module.signatures_eq ha hb hc, symbol_signaturesOf hd]

/-- A module becomes a program with `Program.Typed`: every function implements a signature that
calls rely on. -/
theorem Module.typed_of_compile {m : Module} {platform : Platform} {p : Program}
    (h : m.compile platform = .ok p) : p.Typed m.signatures := by
  obtain ⟨a, b, c, d, e, entry, ha, hb, hc, hd, he, rfl⟩ := Module.compile_ok h
  obtain ⟨Γ₁, hle₁, hc'⟩ := Compile.vars_typed Compile.globalVariable_typed hc
    (Compile.types_typed hb (Compile.constants_typed ha Session.begun_typed))
  obtain ⟨Γ₂, hlinks, hd'⟩ := compileProcedures_typed_of
    (fun p _ {_ _ _ _ _} h hs => p.typed_of_compile h hs) hd hc'
  have hsigs : Γ₂.signatures = m.signatures := by
    rw [hlinks.signatures_eq, hle₁.signatures_eq, Module.signatures_eq ha hb hc]
    rfl
  have hcode := Session.code_of_collects (Module.collects_of_sections ha hb hc)
  have hdraft : d.draft = {} :=
    (compileProcedures_keeps hd).2.trans (Emission.mk.inj hcode.2).2
  have he' : Compile.statements entrySignature.result (m.body.getD []) d.started = .ok ((), e) := he
  have hstarted := hd'.started hdraft
  obtain ⟨Γ₃, hle₃, hemission, himpl⟩ := Compile.statements_typed he' hstarted.emission
    hstarted.env (hlinks.parameters ▸ hle₁.parameters ▸ rfl)
    (hlinks.result ▸ hle₁.result ▸ rfl) entry none
  have hsteps := Compile.traces_statements _ _ he
  have hglobals : e.globals = d.globals := (Session.keeps_of_declares hsteps).globals
  have hfunctions : e.functions = d.functions :=
    Session.functions_of_declares (s := d.started) hsteps
  have hlinkage : Γ₃.toLinkage = ⟨e.globals, e.stock.strings, m.signatures⟩ := by
    show Linkage.mk Γ₃.globals Γ₃.strings Γ₃.signatures = _
    rw [hle₃.globals_eq, hle₃.signatures_eq, hsigs, hd'.globals, hemission.strings, hglobals]
    rfl
  refine ⟨hlinkage ▸ hemission.isProper.linkage, ?_, ?_⟩
  · intro f hf
    rcases Program.mem_insertFunction hf with rfl | hf
    · exact .inr ⟨entrySignature, List.mem_cons_self, hlinkage ▸ himpl⟩
    · rw [hfunctions] at hf
      refine (hd'.functions_grow hle₃.toSub hemission.isProper.linkage f hf).imp_right ?_
      rintro ⟨sig, hsig, himpl'⟩
      rw [hle₃.signatures_eq, hsigs] at hsig
      exact ⟨sig, List.mem_cons_of_mem _ hsig, hlinkage ▸ himpl'⟩
  · obtain ⟨hself, hbefore⟩ := List.cons_subset.mp
      (Program.cons_names_subset_insertFunction (e.entryFunction entry) e.functions)
    obtain ⟨hprimitives, hnested⟩ := List.append_subset.mp hlinks.names
    rw [Session.names, hcode.1] at hprimitives
    rw [hfunctions] at hbefore hself ⊢
    refine List.append_subset.mpr
      ⟨List.Subset.trans hprimitives hbefore, List.cons_subset.mpr ⟨?_, ?_⟩⟩
    · have hname : (e.entryFunction entry).name = entryName := himpl.name
      rwa [hname] at hself
    · rw [Module.signatures_eq ha hb hc]
      exact List.Subset.trans hnested hbefore

end Oberon
