import Mathlib.Logic.Relation
import Oberon.Proofs.Spelling

/-!
# Spellings of modules

A module is compiled to the same program as its joined form, or fails with the same error in the
same unit. The two compilations go side by side: the joined one is always in the session of the
other with all type definitions joined (`Mirrors`). Definitions stay in the table of types as they
are written, and are read later; what the scopes remember is the same on both sides.

So modules that differ in spelling only are compiled to the same program.
-/

namespace Oberon

open Code

/-! ## Constants and types -/

@[simp] theorem Expr.fold_joined (env : Environment) (e : Expr) :
    e.joined.fold env = e.fold env := by
  induction e using Expr.induction with
  | literal value => rfl
  | designator name selectors =>
    cases selectors with
    | nil => rw [Expr.joined]
    | cons selector rest => rfl
  | call callee arguments => rfl
  | not operand ih => rw [Expr.joined, Expr.fold, ih, Expr.fold]
  | negate operand ih => rw [Expr.joined, Expr.fold, ih, Expr.fold]
  | binary lhs op rhs ihl ihr => rw [Expr.joined, Expr.fold, ihl, ihr, Expr.fold]
  | relation lhs op rhs ihl ihr => rw [Expr.joined, Expr.fold, ihl, ihr, Expr.fold]

/-- The joined form of an expression folds to the same value, so `Expr.dimension` is the same. -/
theorem Expr.dimension_joined (env : Environment) (e : Expr) :
    e.joined.dimension env = e.dimension env := by
  rw [Expr.dimension, Expr.fold_joined, Expr.dimension]

/-- The scope with its definitions joined, by `TypeExpr.joined`. -/
def TypeScope.joined (s : TypeScope) : TypeScope :=
  { s with declared := s.declared.map (Prod.map id TypeExpr.joined) }

/-- The resolution whose scopes have their definitions joined, by `TypeScope.joined`. -/
def Resolution.joined (r : Resolution) : Resolution :=
  { r with scopes := r.scopes.map TypeScope.joined }

/-- The table with all definitions joined, by `TypeScope.joined`. -/
def TypeTable.joined (t : TypeTable) : TypeTable :=
  { t with scopes := t.scopes.map TypeScope.joined }

/-- `Resolution.arrayOf` with inner and then outer dimensions is one with all of them. -/
theorem Resolution.arrayOf_arrayOf (outer inner : List Nat) (r : Resolution) :
    (r.arrayOf inner).arrayOf outer = r.arrayOf (outer ++ inner) := by
  obtain ⟨result, scopes, resolving, lengths⟩ := r
  cases result with
  | error e => simp [Resolution.arrayOf, Except.map]
  | ok ty => simp [Resolution.arrayOf, Except.map, Ty.arrayOf]

/-- Dimensions that `TypeExpr.arrayOf` puts in front of an array type are evaluated as those of an
array of its elements. -/
theorem TypeExpr.resolve_arrayOf {dimension : Expr → Nat} {named : String → Resolution}
    {scopes : List TypeScope} {resolving : List (Nat × String)} (dimensions : List Expr)
    (type : TypeExpr) :
    (TypeExpr.arrayOf dimensions type).resolve dimension named scopes resolving
      = (type.resolve dimension named scopes resolving).arrayOf (dimensions.map dimension) := by
  cases type with
  | array inner element =>
    rw [TypeExpr.arrayOf, TypeExpr.resolve, TypeExpr.resolve, Resolution.arrayOf_arrayOf,
      List.map_append]
  | integer | real | boolean | string | named => rfl

section

variable {dimension : Expr → Nat} (hdimension : ∀ e : Expr, dimension e.joined = dimension e)

include hdimension

/-- `TypeExpr.resolve` of a joined type in joined scopes gives the same type, and joined scopes. -/
theorem TypeExpr.resolve_joined {named : String → Resolution} {scopes : List TypeScope}
    {resolving : List (Nat × String)} (type : TypeExpr) :
    type.joined.resolve dimension (fun name => (named name).joined)
        (scopes.map TypeScope.joined) resolving
      = (type.resolve dimension named scopes resolving).joined := by
  induction type with
  | array dimensions element ih =>
    have hlengths : (dimensions.map Expr.joined).map dimension = dimensions.map dimension := by
      rw [List.map_map]
      exact List.map_congr_left fun e _ => hdimension e
    rw [TypeExpr.joined, TypeExpr.resolve_arrayOf, ih, hlengths, TypeExpr.resolve]
    rfl
  | integer | real | boolean | string | named => rfl

end

/-- A joined list of declarations has the joined definition of each name. -/
theorem lookup_joined (name : String) (declared : List (String × TypeExpr)) :
    (declared.map (Prod.map id TypeExpr.joined)).lookup name
      = (declared.lookup name).map TypeExpr.joined := by
  induction declared with
  | nil => rfl
  | cons definition rest ih =>
    rw [List.map_cons, Prod.map, id, List.lookup_cons, List.lookup_cons]
    split
    · rfl
    · exact ih

/-- `remember` stores a resolved type, which has no spelling. -/
theorem Resolution.remember_joined (name : String) (r : Resolution) :
    r.joined.remember name = (r.remember name).joined := by
  obtain ⟨result, scopes, resolving, lengths⟩ := r
  cases result <;> cases scopes <;> rfl

theorem Resolution.behind_joined (inner : List TypeScope) (r : Resolution) :
    r.joined.behind (inner.map TypeScope.joined) = (r.behind inner).joined := by
  simp [Resolution.behind, Resolution.joined]

/-- `resolveName` finds the same type in joined scopes, at every depth of recursion. -/
theorem resolveName_joined {dimension : Expr → Nat}
    (hdimension : ∀ e : Expr, dimension e.joined = dimension e) (rounds : Nat)
    (resolving : List (Nat × String)) (scopes : List TypeScope) (name : String) :
    resolveName dimension rounds resolving (scopes.map TypeScope.joined) name
      = (resolveName dimension rounds resolving scopes name).joined := by
  induction rounds generalizing resolving scopes name with
  | zero => rfl
  | succ rounds ih =>
    -- joining keeps the names that are declared, so the same scopes are passed over
    have hinner : (scopes.map TypeScope.joined).takeWhile
        (fun s => (s.declared.lookup name).isNone)
          = (scopes.takeWhile fun s => (s.declared.lookup name).isNone).map TypeScope.joined := by
      rw [List.takeWhile_map]
      congr
      funext s
      show ((s.joined).declared.lookup name).isNone = _
      rw [TypeScope.joined, lookup_joined, Option.isNone_map]
    rw [resolveName, resolveName]
    simp only [hinner, List.length_map, ← List.map_drop]
    cases scopes.drop (scopes.takeWhile fun s => (s.declared.lookup name).isNone).length with
    | nil => rfl
    | cons scope outer =>
      have hdefinition : scope.joined.declared.lookup name
          = (scope.declared.lookup name).map TypeExpr.joined := lookup_joined name _
      have hremembered : scope.joined.resolved = scope.resolved := rfl
      simp only [List.map_cons, hdefinition, hremembered, List.length_cons, List.length_map]
      cases scope.resolved.lookup name with
      | some ty => rfl
      | none =>
        cases scope.declared.lookup name with
        | none => rfl
        | some definition =>
          simp only [Option.map_some]
          split
          · rfl
          · -- the definition is read in its own scope and those around it, all joined
            have hnext : resolveName dimension rounds ((outer.length + 1, name) :: resolving)
                ((scope :: outer).map TypeScope.joined)
                  = fun other => (resolveName dimension rounds
                    ((outer.length + 1, name) :: resolving) (scope :: outer) other).joined :=
              funext (ih _ _)
            rw [← List.map_cons, hnext, TypeExpr.resolve_joined hdimension,
              ← Resolution.behind_joined, ← Resolution.remember_joined]
            rfl

namespace TypeTable

theorem pop_joined (t : TypeTable) : t.joined.pop = t.pop.joined := by
  simp [pop, joined]

/-- `TypeTable.declare` of a joined definition is the joined form of the declaration. -/
theorem declare_joined (t : TypeTable) (name : String) (definition : TypeExpr) :
    t.joined.declare name definition.joined = (t.declare name definition).joined := by
  obtain ⟨scopes, resolving⟩ := t
  cases scopes <;> rfl

/-- `TypeTable.declare` for all types of a section in a row, as `Compile.types` has it. -/
theorem declare_all_joined (t : TypeTable) (declarations : List (String × TypeExpr)) :
    (declarations.map (Prod.map id TypeExpr.joined)).foldl
        (fun t (name, type) => t.declare name type) t.joined
      = (declarations.foldl (fun t (name, type) => t.declare name type) t).joined := by
  induction declarations generalizing t with
  | nil => rfl
  | cons declaration rest ih =>
    rw [List.map_cons, List.foldl_cons, List.foldl_cons, ← ih]
    show List.foldl _ (t.joined.declare declaration.1 declaration.2.joined) _ = _
    rw [declare_joined]

/-- `definitionCount` bounds the recursion of a resolution; joining keeps it. -/
theorem definitionCount_joined (t : TypeTable) : t.joined.definitionCount = t.definitionCount := by
  simp [definitionCount, joined, TypeScope.joined, Function.comp_def]

/-- `TypeTable.resolve` gives the same type for a joined table and a joined expression. -/
theorem resolve_joined {dimension : Expr → Nat}
    (hdimension : ∀ e : Expr, dimension e.joined = dimension e) (t : TypeTable)
    (type : TypeExpr) :
    t.joined.resolve dimension type.joined = (t.resolve dimension type).joined := by
  have hnamed : resolveName dimension (t.definitionCount + 1) t.resolving
      (t.scopes.map TypeScope.joined)
        = fun name => (resolveName dimension (t.definitionCount + 1) t.resolving t.scopes
          name).joined :=
    funext (resolveName_joined hdimension _ _ _)
  rw [resolve, definitionCount_joined]
  show type.joined.resolve dimension (resolveName dimension _ t.resolving
    (t.scopes.map TypeScope.joined)) (t.scopes.map TypeScope.joined) t.resolving = _
  rw [hnamed, TypeExpr.resolve_joined hdimension, resolve]

end TypeTable

/-! ## Compilations side by side -/

/-- The session with all type definitions joined. -/
def Session.joined (s : Session) : Session :=
  { s with types := s.types.joined }

/-- An action `y` that does in the joined session what `x` does in the session itself: it ends with
the same value in the joined form of its session, or with the same error. -/
def Mirrors {ε α : Type} (y x : StateT Session (Except ε) α) : Prop :=
  ∀ s, y s.joined = (x s).map (Prod.map id Session.joined)

namespace Mirrors

variable {ε α β : Type}

/-- Actions that do nothing are the same in both sessions, as `Mirrors` wants. -/
theorem pure (a : α) : Mirrors (pure a : StateT Session (Except ε) α) (pure a) :=
  fun _ => rfl

theorem throw (e : CompileError) : Mirrors (throw e : Compile α) (throw e) :=
  fun _ => rfl

/-- `Mirrors` of a sequence follows from that of its parts. -/
theorem bind {x y : StateT Session (Except ε) α} {f g : α → StateT Session (Except ε) β}
    (h : Mirrors y x) (hf : ∀ a, Mirrors (g a) (f a)) : Mirrors (y >>= g) (x >>= f) := by
  intro s
  show (y s.joined >>= fun p => g p.1 p.2) = Except.map _ (x s >>= fun p => f p.1 p.2)
  rw [h s]
  cases x s with
  | error e => rfl
  | ok p => exact hf p.1 p.2

/-- Both actions read their session by `MonadState.get`, the second one a joined session. -/
theorem get {f g : Session → Compile α} (h : ∀ s, Mirrors (g s.joined) (f s)) :
    Mirrors (MonadState.get >>= g) (MonadState.get >>= f) :=
  fun s => h s s

theorem set (s : Session) : Mirrors (set s.joined : Compile Unit) (set s) :=
  fun _ => rfl

/-- A change of the session has to commute with `Session.joined`. -/
theorem modify {f g : Session → Session} (h : ∀ s, g s.joined = (f s).joined) :
    Mirrors (modify g : Compile Unit) (modify f) :=
  fun s => congrArg (fun t => Except.ok ((), t)) (h s)

theorem lift (x : Except CompileError α) : Mirrors (liftM x : Compile α) (liftM x) := by
  intro s
  cases x <;> rfl

theorem ite {c : Prop} [Decidable c] {x y x' y' : Compile α} (h : Mirrors y x)
    (h' : Mirrors y' x') : Mirrors (if c then y else y') (if c then x else x') := by
  by_cases hc : c
  · rwa [if_pos hc, if_pos hc]
  · rwa [if_neg hc, if_neg hc]

/-- `Compile.emit` emits code without a look at the types. -/
theorem emit (x : Emit α) : Mirrors (Compile.emit x) (Compile.emit x) := by
  intro s
  simp only [Compile.emit, Session.joined]
  cases x { stock := s.stock, draft := s.draft } <;> rfl

/-- Both actions fail in the same unit, if they fail: `Compile.within` adds nothing else. -/
theorem within {x y : Compile α} (h : Mirrors y x) (unit : String) :
    Mirrors (Compile.within unit y) (Compile.within unit x) := by
  intro s
  rw [Compile.within, h s, Compile.within]
  cases x s <;> rfl

end Mirrors

namespace Compile

theorem mirrors_declare (name : String) (named : Named) :
    Mirrors (declare name named) (declare name named) :=
  .get fun s => .bind (.lift (s.env.declare name named)) fun env => .set { s with env }

/-- `declareProcedure` looks at the names of the frame only. -/
theorem mirrors_declareProcedure (name : String) (signature : Signature) :
    Mirrors (declareProcedure name signature) (declareProcedure name signature) :=
  .get fun s => .bind (.lift (s.env.declareProcedure name signature)) fun env => .set { s with env }

theorem mirrors_enterScope : Mirrors enterScope enterScope :=
  .modify fun _ => rfl

/-- `leaveScope` drops the innermost scope of types on both sides. -/
theorem mirrors_leaveScope : Mirrors leaveScope leaveScope := by
  apply Mirrors.modify
  intro s
  simp only [Session.joined, TypeTable.pop_joined]

/-- `resolve` gives one type for both spellings, with the same check of its size. -/
theorem mirrors_resolve (type : TypeExpr) : Mirrors (resolve type.joined) (resolve type) := by
  apply Mirrors.get
  intro s
  have hresolve : s.types.joined.resolve (Expr.dimension s.env) type.joined
      = (s.types.resolve (Expr.dimension s.env) type).joined :=
    TypeTable.resolve_joined (Expr.dimension_joined s.env) s.types type
  simp only [Session.joined, hresolve]
  -- the table is kept even where the type is not found
  apply Mirrors.bind (.set { s with types := (s.types.resolve (Expr.dimension s.env) type).table })
  intro _
  have hresult : (s.types.resolve (Expr.dimension s.env) type).joined.result
      = (s.types.resolve (Expr.dimension s.env) type).result := rfl
  rw [hresult]
  cases (s.types.resolve (Expr.dimension s.env) type).result with
  | error e => exact .throw _
  | ok ty => exact .ite (.pure ty) (.throw _)

/-- `constants` fold to the same values in both spellings. -/
theorem mirrors_constants (declarations : List (String × Expr)) :
    Mirrors (constants (declarations.map (Prod.map id Expr.joined))) (constants declarations) := by
  induction declarations with
  | nil => exact .pure ()
  | cons declaration rest ih =>
    obtain ⟨name, value⟩ := declaration
    rw [List.map_cons, Prod.map, id, constants, constants]
    apply Mirrors.get
    intro s
    have hvalue : value.joined.fold s.joined.env = value.fold s.env := Expr.fold_joined s.env value
    rw [hvalue]
    cases value.fold s.env with
    | none => exact .throw _
    | some value => exact .bind (mirrors_declare name (.constant value)) fun _ => ih

/-- `types` declares definitions without resolving them, so the tables stay the joined forms of each
other. -/
theorem mirrors_types (declarations : List (String × TypeExpr)) :
    Mirrors (types (declarations.map (Prod.map id TypeExpr.joined))) (types declarations) := by
  apply Mirrors.modify
  intro s
  simp only [Session.joined, TypeTable.declare_all_joined]

theorem mirrors_globalVariable (moduleName name : String) (ty : Ty) :
    Mirrors (globalVariable moduleName name ty) (globalVariable moduleName name ty) :=
  .bind (.modify fun _ => rfl) fun _ => .get fun _ => .pure _

theorem mirrors_localVariable (name : String) (ty : Ty) :
    Mirrors (localVariable name ty) (localVariable name ty) :=
  .bind (.emit _) fun _ => .get fun _ => .pure _

section

variable {make : String → Ty → Compile Variable}
  (hmake : ∀ name ty, Mirrors (make name ty) (make name ty))

include hmake

/-- `varsOf` mirrors itself if `make` does: the type is resolved by then. -/
theorem mirrors_varsOf (ty : Ty) (names : List String) :
    Mirrors (varsOf make ty names) (varsOf make ty names) := by
  induction names with
  | nil => exact .pure ()
  | cons name rest ih =>
    exact .bind (hmake name ty) fun cell => .bind (mirrors_declare name (.var cell)) fun _ => ih

/-- `vars` resolves the types in both spellings to the same. -/
theorem mirrors_vars (declarations : List (List String × TypeExpr)) :
    Mirrors (vars make (declarations.map (Prod.map id TypeExpr.joined)))
      (vars make declarations) := by
  induction declarations with
  | nil => exact .pure ()
  | cons declaration rest ih =>
    obtain ⟨names, type⟩ := declaration
    exact .bind (mirrors_resolve type) fun ty => .bind (mirrors_varsOf hmake ty names) fun _ => ih

end

theorem mirrors_resultType (result : Option TypeExpr) :
    Mirrors (resultType (result.map TypeExpr.joined)) (resultType result) := by
  cases result with
  | none => exact .pure _
  | some type => exact .bind (mirrors_resolve type) fun ty => .ite (.throw _) (.pure ty)

/-- `parameters` have the same types in both spellings, and the same are passed by reference. -/
theorem mirrors_parameters (formals : List FormalSection) :
    Mirrors (parameters (formals.map FormalSection.joined)) (parameters formals) := by
  induction formals with
  | nil => exact .pure []
  | cons formal rest ih =>
    exact .bind (mirrors_resolve formal.type) fun _ => .bind ih fun _ => .pure _

/-- `signature` is the same for both spellings, so calls rely on the same types. -/
theorem mirrors_signature (symbol : String) (formals : List FormalSection)
    (result : Option TypeExpr) :
    Mirrors (signature symbol (formals.map FormalSection.joined) (result.map TypeExpr.joined))
      (signature symbol formals result) :=
  .bind (mirrors_resultType result) fun _ => .bind (mirrors_parameters formals) fun _ => .pure _

theorem mirrors_bindParameters (index : Nat) (parameters : List Parameter) :
    Mirrors (bindParameters index parameters) (bindParameters index parameters) := by
  induction parameters generalizing index with
  | nil => exact .pure ()
  | cons parameter rest ih =>
    exact .bind (.emit _) fun _ => .get fun _ => .bind (mirrors_declare _ _) fun _ => ih (index + 1)

/-- `statements` emits the same code, by `emitStatements_joined`. -/
theorem mirrors_statements (result : Ty) (body : List Statement) :
    Mirrors (statements result (body.map Statement.joined)) (statements result body) := by
  apply Mirrors.get
  intro s
  rw [emitStatements_joined]
  exact .emit _

theorem mirrors_startBody : Mirrors startBody startBody :=
  .bind (.emit _) fun _ => .get fun s => .bind (.set { s with draft := {} }) fun _ => .pure _

/-- `finishBody` reads the draft only. -/
theorem mirrors_finishBody (function : Builder) (outer : Draft) :
    Mirrors (finishBody function outer) (finishBody function outer) :=
  .modify fun _ => rfl

/-- `openProcedure` in both spellings: all parts of a procedure but those inside of it and the
body. -/
theorem mirrors_openProcedure (name symbol : String) (formals : List FormalSection)
    (result : Option TypeExpr) (constantSection : List (String × Expr))
    (typeSection : List (String × TypeExpr)) (varSection : List (List String × TypeExpr)) :
    Mirrors
      (openProcedure name symbol (formals.map FormalSection.joined) (result.map TypeExpr.joined)
        (constantSection.map (Prod.map id Expr.joined))
        (typeSection.map (Prod.map id TypeExpr.joined))
        (varSection.map (Prod.map id TypeExpr.joined)))
      (openProcedure name symbol formals result constantSection typeSection varSection) :=
  .bind (mirrors_signature symbol formals result) fun signature =>
    .bind (mirrors_declareProcedure name signature) fun _ =>
    .bind mirrors_startBody fun _ =>
    .bind mirrors_enterScope fun _ =>
    .bind (mirrors_bindParameters 0 signature.parameters) fun _ =>
    .bind (mirrors_constants constantSection) fun _ =>
    .bind (mirrors_types typeSection) fun _ =>
    .bind (mirrors_vars mirrors_localVariable varSection) fun _ => .pure _

/-- `closeProcedure` in both spellings: the body, which becomes the same function. -/
theorem mirrors_closeProcedure (signature : Signature) (entry : String) (outer : Draft)
    (body : List Statement) :
    Mirrors (closeProcedure signature entry outer (body.map Statement.joined))
      (closeProcedure signature entry outer body) :=
  .bind (mirrors_statements signature.result body) fun _ =>
    .bind (mirrors_finishBody _ outer) fun _ => mirrors_leaveScope

end Compile

/-! ## Procedures and modules -/

/-- `compileProcedures` mirrors itself if each procedure does. -/
theorem mirrors_compileProcedures_of {procedures : List Procedure}
    (h : ∀ p ∈ procedures, ∀ unit, Mirrors (p.joined.compile unit) (p.compile unit))
    (unit : String) :
    Mirrors (compileProcedures unit (procedures.map Procedure.joined))
      (compileProcedures unit procedures) := by
  induction procedures with
  | nil => exact .pure ()
  | cons p rest ih =>
    obtain ⟨hp, hrest⟩ := List.forall_mem_cons.mp h
    rw [List.map_cons, compileProcedures, compileProcedures]
    exact .bind (hp unit) fun _ => ih hrest

/-- `Procedure.joined` is compiled as the procedure is. -/
theorem Procedure.mirrors_compile (p : Procedure) (unit : String) :
    Mirrors (p.joined.compile unit) (p.compile unit) := by
  induction p using Procedure.induction generalizing unit with
  | mk name formals result declarations body ih =>
    obtain ⟨constants, types, vars, procedures⟩ := declarations
    rw [Procedure.joined_mk, Procedure.compile, Declarations.joined, Procedure.compile]
    -- the section, then the procedures in it, then the body
    apply Mirrors.bind
    · exact (Compile.mirrors_openProcedure name _ formals result constants types vars).within _
    · intro opened
      apply Mirrors.bind (mirrors_compileProcedures_of ih _)
      intro _
      exact (Compile.mirrors_closeProcedure opened.1 opened.2.1 opened.2.2 body).within _

namespace Module

/-- `compileDeclarations` of the joined module: constants, types, variables and procedures. -/
theorem mirrors_compileDeclarations (m : Module) :
    Mirrors m.joined.compileDeclarations m.compileDeclarations := by
  have hsections := Mirrors.bind Compile.mirrors_enterScope fun _ =>
    .bind (Compile.mirrors_constants m.declarations.constants) fun _ =>
    .bind (Compile.mirrors_types m.declarations.types) fun _ =>
    Compile.mirrors_vars (Compile.mirrors_globalVariable m.name) m.declarations.vars
  apply Mirrors.bind (hsections.within m.name)
  intro _
  exact mirrors_compileProcedures_of (fun p _ => p.mirrors_compile) m.name

theorem mirrors_compileEntry (m : Module) : Mirrors m.joined.compileEntry m.compileEntry := by
  have hbody : m.joined.body.getD [] = (m.body.getD []).map Statement.joined := by
    rw [joined]
    cases m.body <;> rfl
  rw [compileEntry, hbody, compileEntry]
  apply Mirrors.bind Compile.mirrors_startBody
  intro started
  apply Mirrors.bind (Compile.mirrors_statements .status _)
  intro _
  exact Compile.mirrors_finishBody _ started.2

/-- `Module.joined` is compiled to the same program, or fails with the same error in the same
unit. -/
theorem compile_joined (m : Module) (platform : Platform) :
    m.joined.compile platform = m.compile platform := by
  have hmirrors := Mirrors.bind m.mirrors_compileDeclarations fun _ =>
    m.mirrors_compileEntry.within m.name
  -- no types are declared at the start, so both start in the same session
  have hstart : (do m.joined.compileDeclarations; Compile.within m.name m.joined.compileEntry :
      CompileUnit Unit) { functions := primitives } = _ := hmirrors { functions := primitives }
  rw [compile, compile]
  show ((do m.joined.compileDeclarations; Compile.within m.name m.joined.compileEntry :
    CompileUnit Unit) { functions := primitives } >>= _) = _
  rw [hstart]
  cases (do m.compileDeclarations; Compile.within m.name m.compileEntry : CompileUnit Unit)
      { functions := primitives } with
  | error e => rfl
  | ok r => rfl

/-- Any number of respelled places leaves `Module.joined` as it is. -/
theorem joined_eq_of_respelled {m m' : Module} (h : Relation.EqvGen Respelled m m') :
    m'.joined = m.joined := by
  induction h with
  | rel m m' h => exact h.joined_eq
  | refl m => rfl
  | symm m m' _ ih => exact ih.symm
  | trans m m' m'' _ _ ih ih' => exact ih'.trans ih

/-- How arrays are spelled does not matter: modules that differ by any number of respelled places
are compiled to the same program, or fail with the same error in the same unit. -/
theorem compile_eq_of_respelled {m m' : Module} (h : Relation.EqvGen Respelled m m')
    (platform : Platform) : m'.compile platform = m.compile platform :=
  calc m'.compile platform
    _ = m'.joined.compile platform := (m'.compile_joined platform).symm
    _ = m.joined.compile platform := by rw [joined_eq_of_respelled h]
    _ = m.compile platform := m.compile_joined platform

/-- A procedure that writes into a parameter, given the type of the parameter and the indices of
the place. -/
def filler (formal : TypeExpr) (target : List (List Expr)) : Procedure :=
  .mk "Fill" [⟨true, ["g"], formal⟩] none {} [.assign ⟨"g", target⟩ (.literal (.integer 2))]

/-- A module with a type of arrays, given its definition, a procedure that fills such an array, and
the indices of an element to print. -/
def grids (grid : TypeExpr) (fill : Procedure) (selectors : List (List Expr)) : Module where
  name := "M"
  declarations :=
    { types := [("Grid", grid)]
      vars := [(["a", "b"], .named "Grid")]
      procedures := [fill] }
  body := some [.call "Fill" [.designator "a" []], .assign ⟨"b", []⟩ (.designator "a" []),
    .call "WRITE" [.designator "b" selectors]]

/-- All dimensions in one list, and all indices between one pair of brackets. -/
def packedGrids : Module :=
  let one : Expr := .literal (.integer 1)
  let grid : TypeExpr := .array [.literal (.integer 3), .literal (.integer 4)] .integer
  grids grid (filler grid [[one, one]]) [[one, .designator "a" [[one, one]]]]

/-- An array for each dimension, and a pair of brackets for each index. -/
def spreadGrids : Module :=
  let one : Expr := .literal (.integer 1)
  let grid : TypeExpr :=
    .array [.literal (.integer 3)] (.array [.literal (.integer 4)] .integer)
  grids grid (filler grid [[one], [one]]) [[one], [.designator "a" [[one], [one]]]]

theorem compile_eq_of_respelled_grids :
    Relation.EqvGen Respelled packedGrids spreadGrids
      ∧ spreadGrids.compile .native = packedGrids.compile .native
      ∧ (packedGrids.compile .native).isOk := by
  have hsplit (e e' : Expr) : TypeExpr.Respelled (.array [e, e'] .integer)
      (.array [e] (.array [e'] .integer)) :=
    @TypeExpr.Respelled.split [e] [e'] .integer
  have hindices (name : String) (e e' : Expr) :
      Expr.Respelled (.designator name [[e, e']]) (.designator name [[e], [e']]) :=
    .selectors (by simp) (by simp) rfl
  have hgrid (e e' : Expr) (fill : Procedure) (selectors : List (List Expr)) :
      (grids (.array [e, e'] .integer) fill selectors).Respelled
        (grids (.array [e] (.array [e'] .integer)) fill selectors) :=
    @Respelled.declarations (grids .integer fill selectors) _ _
      (@Declarations.Respelled.type _ (grids .integer fill selectors).declarations [] [] "Grid" _ _
        (hsplit e e'))
  have hfill (grid : TypeExpr) {p p' : Procedure} (selectors : List (List Expr))
      (h : p.Respelled p') : (grids grid p selectors).Respelled (grids grid p' selectors) :=
    @Respelled.procedure (grids grid p selectors) [] [] _ _ h
  have hprint (grid : TypeExpr) (fill : Procedure) {selectors others : List (List Expr)}
      (h : Expr.Respelled (.designator "b" selectors) (.designator "b" others)) :
      (grids grid fill selectors).Respelled (grids grid fill others) :=
    @Respelled.body (grids grid fill selectors) [_, _] [] _ _
      (@Statement.Respelled.argument "WRITE" [] [] _ _ h)
  have hformal (e e' : Expr) (target : List (List Expr)) :
      (filler (.array [e, e'] .integer) target).Respelled
        (filler (.array [e] (.array [e'] .integer)) target) :=
    @Procedure.Respelled.parameter "Fill" [] [] _ _ none {} _ (.type (hsplit e e'))
  have htarget (formal : TypeExpr) (e e' : Expr) :
      (filler formal [[e, e']]).Respelled (filler formal [[e], [e']]) :=
    @Procedure.Respelled.body "Fill" _ none {} [] [] _ _ (.target (hindices "g" e e'))
  have hinner (e : Expr) {a a' : Expr} (h : a.Respelled a') :
      Expr.Respelled (.designator "b" [[e, a]]) (.designator "b" [[e, a']]) :=
    @Expr.Respelled.index "b" [] [] [e] [] _ _ h
  -- one step each for the type, the parameter, the target, the inner and the outer designator
  have h : Relation.EqvGen Respelled packedGrids spreadGrids :=
    .trans _ _ _ (.rel _ _ (hgrid _ _ _ _)) <|
    .trans _ _ _ (.rel _ _ (hfill _ _ (hformal _ _ _))) <|
    .trans _ _ _ (.rel _ _ (hfill _ _ (htarget _ _ _))) <|
    .trans _ _ _ (.rel _ _ (hprint _ _ (hinner _ (hindices "a" _ _)))) <|
    .rel _ _ (hprint _ _ (hindices "b" _ _))
  exact ⟨h, compile_eq_of_respelled h .native, by decide +kernel⟩

end Module

end Oberon
