import Oberon.Proofs.Actions

/-!
# Spellings of array accesses

`a[i, j]` can be spelled `a[i][j]`, and `ARRAY m, n OF T` can be spelled `ARRAY m OF ARRAY n OF T`.
`Respelled` says that one place of a tree is spelled in another way. The joined form of a tree has
all indices of a designator between one pair of brackets and all dimensions of an array in one
list, so it is the same for all spellings (`joined_eq`); and it emits the same code as the tree
itself, so no spelling emits other code than another.
-/

namespace Oberon

open Code

/-! ## Spelling a place in another way -/

/-- The indices of one designator are distributed over other selectors. A designator with selectors
keeps some, even if they hold no index at all. -/
inductive Expr.Respelled : Expr → Expr → Prop
  | selectors {name : String} {selectors others : List (List Expr)} (h : selectors ≠ [])
    (hothers : others ≠ []) (hindices : others.flatten = selectors.flatten) :
    Respelled (.designator name selectors) (.designator name others)
  | index {name : String} {before after : List (List Expr)} {left right : List Expr} {e e' : Expr}
    (h : Respelled e e') :
    Respelled (.designator name (before ++ (left ++ e :: right) :: after))
      (.designator name (before ++ (left ++ e' :: right) :: after))
  | argument {callee : String} {before after : List Expr} {e e' : Expr} (h : Respelled e e') :
    Respelled (.call callee (before ++ e :: after)) (.call callee (before ++ e' :: after))
  | not {e e' : Expr} (h : Respelled e e') : Respelled (.not e) (.not e')
  | negate {e e' : Expr} (h : Respelled e e') : Respelled (.negate e) (.negate e')
  | binaryLeft {op : BinaryOp} {e e' rhs : Expr} (h : Respelled e e') :
    Respelled (.binary e op rhs) (.binary e' op rhs)
  | binaryRight {op : BinaryOp} {lhs e e' : Expr} (h : Respelled e e') :
    Respelled (.binary lhs op e) (.binary lhs op e')
  | relationLeft {op : RelationOp} {e e' rhs : Expr} (h : Respelled e e') :
    Respelled (.relation e op rhs) (.relation e' op rhs)
  | relationRight {op : RelationOp} {lhs e e' : Expr} (h : Respelled e e') :
    Respelled (.relation lhs op e) (.relation lhs op e')

/-- A target is spelled in another way as the expression that it would be. -/
def Designator.Respelled (d d' : Designator) : Prop :=
  Expr.Respelled (.designator d.name d.selectors) (.designator d'.name d'.selectors)

/-- The dimensions of one array are divided between an array and its elements, or a designator in
a dimension is spelled in another way. -/
inductive TypeExpr.Respelled : TypeExpr → TypeExpr → Prop
  | split {outer inner : List Expr} {element : TypeExpr} :
    Respelled (.array (outer ++ inner) element) (.array outer (.array inner element))
  | dimension {before after : List Expr} {e e' : Expr} {element : TypeExpr} (h : e.Respelled e') :
    Respelled (.array (before ++ e :: after) element) (.array (before ++ e' :: after) element)
  | element {dimensions : List Expr} {type type' : TypeExpr} (h : Respelled type type') :
    Respelled (.array dimensions type) (.array dimensions type')

/-- A designator somewhere in a statement is spelled in another way. -/
inductive Statement.Respelled : Statement → Statement → Prop
  | target {d d' : Designator} {value : Expr} (h : d.Respelled d') :
    Respelled (.assign d value) (.assign d' value)
  | value {target : Designator} {e e' : Expr} (h : e.Respelled e') :
    Respelled (.assign target e) (.assign target e')
  | argument {procedure : String} {before after : List Expr} {e e' : Expr} (h : e.Respelled e') :
    Respelled (.call procedure (before ++ e :: after)) (.call procedure (before ++ e' :: after))
  | ifCondition {before after : List (Expr × List Statement)} {e e' : Expr}
    {body : List Statement} {otherwise : Option (List Statement)} (h : e.Respelled e') :
    Respelled (.ifThen (before ++ (e, body) :: after) otherwise)
      (.ifThen (before ++ (e', body) :: after) otherwise)
  | ifBody {before after : List (Expr × List Statement)} {condition : Expr}
    {left right : List Statement} {s s' : Statement} {otherwise : Option (List Statement)}
    (h : Respelled s s') :
    Respelled (.ifThen (before ++ (condition, left ++ s :: right) :: after) otherwise)
      (.ifThen (before ++ (condition, left ++ s' :: right) :: after) otherwise)
  | ifElse {branches : List (Expr × List Statement)} {left right : List Statement}
    {s s' : Statement} (h : Respelled s s') :
    Respelled (.ifThen branches (some (left ++ s :: right)))
      (.ifThen branches (some (left ++ s' :: right)))
  | whileCondition {e e' : Expr} {body : List Statement} (h : e.Respelled e') :
    Respelled (.whileDo e body) (.whileDo e' body)
  | whileBody {condition : Expr} {left right : List Statement} {s s' : Statement}
    (h : Respelled s s') :
    Respelled (.whileDo condition (left ++ s :: right)) (.whileDo condition (left ++ s' :: right))
  | repeatCondition {e e' : Expr} {body : List Statement} (h : e.Respelled e') :
    Respelled (.repeatUntil body e) (.repeatUntil body e')
  | repeatBody {condition : Expr} {left right : List Statement} {s s' : Statement}
    (h : Respelled s s') :
    Respelled (.repeatUntil (left ++ s :: right) condition)
      (.repeatUntil (left ++ s' :: right) condition)
  | forStart {counter : String} {e e' limit : Expr} {direction : Direction}
    {body : List Statement} (h : e.Respelled e') :
    Respelled (.forDo counter e limit direction body) (.forDo counter e' limit direction body)
  | forLimit {counter : String} {start e e' : Expr} {direction : Direction}
    {body : List Statement} (h : e.Respelled e') :
    Respelled (.forDo counter start e direction body) (.forDo counter start e' direction body)
  | forBody {counter : String} {start limit : Expr} {direction : Direction}
    {left right : List Statement} {s s' : Statement} (h : Respelled s s') :
    Respelled (.forDo counter start limit direction (left ++ s :: right))
      (.forDo counter start limit direction (left ++ s' :: right))
  | caseSelector {e e' : Expr} {branches : List (List Literal × List Statement)}
    {otherwise : Option (List Statement)} (h : e.Respelled e') :
    Respelled (.caseOf e branches otherwise) (.caseOf e' branches otherwise)
  | caseBody {selector : Expr} {before after : List (List Literal × List Statement)}
    {labels : List Literal} {left right : List Statement} {s s' : Statement}
    {otherwise : Option (List Statement)} (h : Respelled s s') :
    Respelled (.caseOf selector (before ++ (labels, left ++ s :: right) :: after) otherwise)
      (.caseOf selector (before ++ (labels, left ++ s' :: right) :: after) otherwise)
  | caseElse {selector : Expr} {branches : List (List Literal × List Statement)}
    {left right : List Statement} {s s' : Statement} (h : Respelled s s') :
    Respelled (.caseOf selector branches (some (left ++ s :: right)))
      (.caseOf selector branches (some (left ++ s' :: right)))
  | result {e e' : Expr} (h : e.Respelled e') :
    Respelled (.returnWith (some e)) (.returnWith (some e'))

/-- The type of some parameters is spelled in another way. -/
inductive FormalSection.Respelled : FormalSection → FormalSection → Prop
  | type {byReference : Bool} {names : List String} {type type' : TypeExpr}
    (h : type.Respelled type') : Respelled ⟨byReference, names, type⟩ ⟨byReference, names, type'⟩

/-- A constant, a type or the type of some variables is spelled in another way. -/
inductive Declarations.Respelled {α : Type} : Declarations α → Declarations α → Prop
  | constant {d : Declarations α} {before after : List (String × Expr)} {name : String}
    {e e' : Expr} (h : e.Respelled e') :
    Respelled { d with constants := before ++ (name, e) :: after }
      { d with constants := before ++ (name, e') :: after }
  | type {d : Declarations α} {before after : List (String × TypeExpr)} {name : String}
    {type type' : TypeExpr} (h : type.Respelled type') :
    Respelled { d with types := before ++ (name, type) :: after }
      { d with types := before ++ (name, type') :: after }
  | vars {d : Declarations α} {before after : List (List String × TypeExpr)}
    {names : List String} {type type' : TypeExpr} (h : type.Respelled type') :
    Respelled { d with vars := before ++ (names, type) :: after }
      { d with vars := before ++ (names, type') :: after }

/-- One place of a procedure is spelled in another way. -/
inductive Procedure.Respelled : Procedure → Procedure → Prop
  | parameter {name : String} {before after : List FormalSection} {formal formal' : FormalSection}
    {result : Option TypeExpr} {declarations : Declarations Procedure} {body : List Statement}
    (h : formal.Respelled formal') :
    Respelled (.mk name (before ++ formal :: after) result declarations body)
      (.mk name (before ++ formal' :: after) result declarations body)
  | result {name : String} {formals : List FormalSection} {type type' : TypeExpr}
    {declarations : Declarations Procedure} {body : List Statement} (h : type.Respelled type') :
    Respelled (.mk name formals (some type) declarations body)
      (.mk name formals (some type') declarations body)
  | declarations {name : String} {formals : List FormalSection} {result : Option TypeExpr}
    {declarations declarations' : Declarations Procedure} {body : List Statement}
    (h : declarations.Respelled declarations') :
    Respelled (.mk name formals result declarations body)
      (.mk name formals result declarations' body)
  | nested {name : String} {formals : List FormalSection} {result : Option TypeExpr}
    {declarations : Declarations Procedure} {before after : List Procedure} {p p' : Procedure}
    {body : List Statement} (h : Respelled p p') :
    Respelled (.mk name formals result
        { declarations with procedures := before ++ p :: after } body)
      (.mk name formals result { declarations with procedures := before ++ p' :: after } body)
  | body {name : String} {formals : List FormalSection} {result : Option TypeExpr}
    {declarations : Declarations Procedure} {left right : List Statement} {s s' : Statement}
    (h : s.Respelled s') :
    Respelled (.mk name formals result declarations (left ++ s :: right))
      (.mk name formals result declarations (left ++ s' :: right))

/-- One place of a module is spelled in another way. -/
inductive Module.Respelled : Module → Module → Prop
  | declarations {m : Module} {declarations declarations' : Declarations Procedure}
    (h : declarations.Respelled declarations') :
    Respelled { m with declarations } { m with declarations := declarations' }
  | procedure {m : Module} {before after : List Procedure} {p p' : Procedure}
    (h : p.Respelled p') :
    Respelled
      { m with declarations := { m.declarations with procedures := before ++ p :: after } }
      { m with declarations := { m.declarations with procedures := before ++ p' :: after } }
  | body {m : Module} {left right : List Statement} {s s' : Statement} (h : s.Respelled s') :
    Respelled { m with body := some (left ++ s :: right) }
      { m with body := some (left ++ s' :: right) }

/-! ## The joined form -/

mutual

/-- The expression with all indices of each designator between one pair of brackets. -/
def Expr.joined : Expr → Expr
  | .literal value => .literal value
  | .designator name [] => .designator name []
  | .designator name (selector :: rest) =>
    .designator name [joinExprs selector ++ joinSelectors rest]
  | .call callee arguments => .call callee (joinExprs arguments)
  | .not operand => .not operand.joined
  | .negate operand => .negate operand.joined
  | .binary lhs op rhs => .binary lhs.joined op rhs.joined
  | .relation lhs op rhs => .relation lhs.joined op rhs.joined

/-- The `Expr.joined` forms of expressions. -/
def joinExprs : List Expr → List Expr
  | [] => []
  | e :: rest => e.joined :: joinExprs rest

/-- The joined forms of the indices of all selectors, in a row. -/
def joinSelectors : List (List Expr) → List Expr
  | [] => []
  | selector :: rest => joinExprs selector ++ joinSelectors rest

end

theorem joinExprs_eq (es : List Expr) : joinExprs es = es.map Expr.joined := by
  induction es with
  | nil => rfl
  | cons e rest ih => rw [joinExprs, ih, List.map_cons]

/-- `joinSelectors` collects the indices of all selectors in one list. -/
theorem joinSelectors_eq (selectors : List (List Expr)) :
    joinSelectors selectors = selectors.flatten.map Expr.joined := by
  induction selectors with
  | nil => rfl
  | cons selector rest ih =>
    rw [joinSelectors, ih, joinExprs_eq, List.flatten_cons, List.map_append]

/-- One selector with all indices, if there are selectors. -/
def joinedSelectors (selectors : List (List Expr)) : List (List Expr) :=
  if selectors.isEmpty then [] else [selectors.flatten.map Expr.joined]

/-- The joined form of a designator has one selector, or none, by `joinedSelectors`. -/
theorem Expr.joined_designator (name : String) (selectors : List (List Expr)) :
    (Expr.designator name selectors).joined = .designator name (joinedSelectors selectors) := by
  cases selectors with
  | nil => rw [Expr.joined]; rfl
  | cons selector rest =>
    rw [Expr.joined, ← joinSelectors, joinSelectors_eq]
    rfl

@[simp] theorem Expr.joined_call (callee : String) (arguments : List Expr) :
    (Expr.call callee arguments).joined = .call callee (arguments.map Expr.joined) := by
  rw [Expr.joined, joinExprs_eq]

/-- The target with all indices between one pair of brackets. -/
def Designator.joined (d : Designator) : Designator :=
  { d with selectors := joinedSelectors d.selectors }

/-- An array of the given dimensions, in front of those that the element type has. -/
def TypeExpr.arrayOf (dimensions : List Expr) : TypeExpr → TypeExpr
  | .array inner element => .array (dimensions ++ inner) element
  | type => .array dimensions type

/-- The type with all dimensions of an array in one list. -/
def TypeExpr.joined : TypeExpr → TypeExpr
  | .array dimensions element => .arrayOf (dimensions.map Expr.joined) element.joined
  | type => type

mutual

/-- The statement with all its expressions joined. -/
def Statement.joined : Statement → Statement
  | .assign target value => .assign target.joined value.joined
  | .call procedure arguments => .call procedure (arguments.map Expr.joined)
  | .ifThen branches otherwise => .ifThen (joinBranches branches) (joinElse otherwise)
  | .whileDo condition body => .whileDo condition.joined (joinStatements body)
  | .repeatUntil body condition => .repeatUntil (joinStatements body) condition.joined
  | .forDo counter start limit direction body =>
    .forDo counter start.joined limit.joined direction (joinStatements body)
  | .caseOf selector branches otherwise =>
    .caseOf selector.joined (joinCases branches) (joinElse otherwise)
  | .breakLoop => .breakLoop
  | .continueLoop => .continueLoop
  | .returnWith value => .returnWith (value.map Expr.joined)

/-- The `Statement.joined` forms of statements in a row. -/
def joinStatements : List Statement → List Statement
  | [] => []
  | s :: rest => s.joined :: joinStatements rest

/-- The joined form of an ELSE part. -/
def joinElse : Option (List Statement) → Option (List Statement)
  | none => none
  | some body => some (joinStatements body)

/-- The joined forms of the branches of an IF. -/
def joinBranches : List (Expr × List Statement) → List (Expr × List Statement)
  | [] => []
  | (condition, body) :: rest => (condition.joined, joinStatements body) :: joinBranches rest

/-- The joined forms of the branches of a CASE. -/
def joinCases : List (List Literal × List Statement) → List (List Literal × List Statement)
  | [] => []
  | (labels, body) :: rest => (labels, joinStatements body) :: joinCases rest

end

/-- `joinStatements`, which recursion needs as a function of its own, is a `map`. -/
theorem joinStatements_eq (body : List Statement) :
    joinStatements body = body.map Statement.joined := by
  induction body with
  | nil => rfl
  | cons s rest ih => rw [joinStatements, ih, List.map_cons]

theorem joinElse_eq (otherwise : Option (List Statement)) :
    joinElse otherwise = otherwise.map (List.map Statement.joined) := by
  cases otherwise with
  | none => rfl
  | some body => rw [joinElse, joinStatements_eq, Option.map_some]

/-- `joinBranches` joins conditions and bodies, branch by branch. -/
theorem joinBranches_eq (branches : List (Expr × List Statement)) :
    joinBranches branches = branches.map (Prod.map Expr.joined (List.map Statement.joined)) := by
  induction branches with
  | nil => rfl
  | cons branch rest ih => rw [joinBranches, ih, joinStatements_eq, List.map_cons, Prod.map]

/-- `joinCases` joins the bodies only; labels are literals. -/
theorem joinCases_eq (branches : List (List Literal × List Statement)) :
    joinCases branches = branches.map (Prod.map id (List.map Statement.joined)) := by
  induction branches with
  | nil => rfl
  | cons branch rest ih => rw [joinCases, ih, joinStatements_eq, List.map_cons, Prod.map, id]

/-- The parameters with their type joined. -/
def FormalSection.joined (formal : FormalSection) : FormalSection :=
  { formal with type := formal.type.joined }

mutual

/-- The procedure with all that stands in it joined. -/
def Procedure.joined : Procedure → Procedure
  | .mk name formals result ⟨constants, types, vars, procedures⟩ body =>
    .mk name (formals.map FormalSection.joined) (result.map TypeExpr.joined)
      ⟨constants.map (Prod.map id Expr.joined), types.map (Prod.map id TypeExpr.joined),
        vars.map (Prod.map id TypeExpr.joined), joinProcedures procedures⟩
      (body.map Statement.joined)

/-- The `Procedure.joined` forms of procedures. -/
def joinProcedures : List Procedure → List Procedure
  | [] => []
  | p :: rest => p.joined :: joinProcedures rest

end

theorem joinProcedures_eq (procedures : List Procedure) :
    joinProcedures procedures = procedures.map Procedure.joined := by
  induction procedures with
  | nil => rfl
  | cons p rest ih => rw [joinProcedures, ih, List.map_cons]

/-- The declarations with all that stands in them joined. -/
def Declarations.joined (d : Declarations Procedure) : Declarations Procedure where
  constants := d.constants.map (Prod.map id Expr.joined)
  types := d.types.map (Prod.map id TypeExpr.joined)
  vars := d.vars.map (Prod.map id TypeExpr.joined)
  procedures := d.procedures.map Procedure.joined

/-- `Procedure.joined` goes through all parts of a procedure and keeps its names. -/
theorem Procedure.joined_mk (name : String) (formals : List FormalSection)
    (result : Option TypeExpr) (declarations : Declarations Procedure) (body : List Statement) :
    (Procedure.mk name formals result declarations body).joined
      = .mk name (formals.map FormalSection.joined) (result.map TypeExpr.joined)
        declarations.joined (body.map Statement.joined) := by
  rw [Procedure.joined, joinProcedures_eq]
  rfl

/-- The module with all that stands in it joined. -/
def Module.joined (m : Module) : Module :=
  { m with declarations := m.declarations.joined, body := m.body.map (List.map Statement.joined) }

/-! ## All spellings have one joined form -/

/-- `TypeExpr.arrayOf` with dimensions in two groups is an array of arrays. -/
theorem TypeExpr.arrayOf_append (outer inner : List Expr) (type : TypeExpr) :
    TypeExpr.arrayOf (outer ++ inner) type = .arrayOf outer (.arrayOf inner type) := by
  cases type <;> simp [TypeExpr.arrayOf]

/-- Expressions that are `Respelled` have one joined form. -/
theorem Expr.Respelled.joined_eq {e e' : Expr} (h : e.Respelled e') : e'.joined = e.joined := by
  induction h with
  | selectors h hothers hindices =>
    simp [Expr.joined_designator, joinedSelectors, h, hothers, hindices]
  | index _ ih => simp [Expr.joined_designator, joinedSelectors, ih]
  | argument _ ih => simp [ih]
  | not _ ih | negate _ ih | binaryLeft _ ih | binaryRight _ ih | relationLeft _ ih
  | relationRight _ ih => simp only [Expr.joined, ih]

theorem Designator.Respelled.joined_eq {d d' : Designator} (h : d.Respelled d') :
    d'.joined = d.joined := by
  have hjoined := Expr.Respelled.joined_eq h
  rw [Expr.joined_designator, Expr.joined_designator] at hjoined
  obtain ⟨hname, hselectors⟩ := Expr.designator.inj hjoined
  rw [Designator.joined, Designator.joined, hname, hselectors]

/-- Type expressions that are `Respelled` have one joined form, in which each array has one
dimension list. -/
theorem TypeExpr.Respelled.joined_eq {type type' : TypeExpr} (h : type.Respelled type') :
    type'.joined = type.joined := by
  induction h with
  | split =>
    -- both spellings put the outer dimensions in front of the inner ones
    simp only [TypeExpr.joined]
    rw [List.map_append, TypeExpr.arrayOf_append]
  | dimension h => simp only [TypeExpr.joined, List.map_append, List.map_cons, h.joined_eq]
  | element _ ih => simp only [TypeExpr.joined, ih]

/-- Statements that are `Respelled` have one joined form. -/
theorem Statement.Respelled.joined_eq {s s' : Statement} (h : s.Respelled s') :
    s'.joined = s.joined := by
  induction h with
  | target h => simp only [Statement.joined, Designator.Respelled.joined_eq h]
  | value h | whileCondition h | repeatCondition h | forStart h | forLimit h
  | caseSelector h => simp only [Statement.joined, h.joined_eq]
  | argument h | result h => simp [Statement.joined, h.joined_eq]
  | ifCondition h => simp [Statement.joined, joinBranches_eq, h.joined_eq]
  | ifBody _ ih | ifElse _ ih => simp [Statement.joined, joinBranches_eq, joinElse_eq, ih]
  | whileBody _ ih | repeatBody _ ih | forBody _ ih =>
    simp [Statement.joined, joinStatements_eq, ih]
  | caseBody _ ih | caseElse _ ih => simp [Statement.joined, joinCases_eq, joinElse_eq, ih]

theorem FormalSection.Respelled.joined_eq {formal formal' : FormalSection}
    (h : formal.Respelled formal') : formal'.joined = formal.joined := by
  cases h with
  | type h => rw [FormalSection.joined, FormalSection.joined, h.joined_eq]

/-- Declarations in which one place is `Respelled` have one joined form. -/
theorem Declarations.Respelled.joined_eq {d d' : Declarations Procedure} (h : d.Respelled d') :
    d'.joined = d.joined := by
  cases h with
  | constant h => simp [Declarations.joined, h.joined_eq]
  | type h | vars h => simp [Declarations.joined, h.joined_eq]

/-- Procedures that are `Respelled` at any depth have one joined form. -/
theorem Procedure.Respelled.joined_eq {p p' : Procedure} (h : p.Respelled p') :
    p'.joined = p.joined := by
  induction h with
  | parameter h => simp [Procedure.joined_mk, h.joined_eq]
  | result h => simp [Procedure.joined_mk, h.joined_eq]
  | declarations h => simp [Procedure.joined_mk, h.joined_eq]
  | nested _ ih => simp [Procedure.joined_mk, Declarations.joined, ih]
  | body h => simp [Procedure.joined_mk, h.joined_eq]

/-- Modules that are `Respelled` have one joined form, `Module.joined`. -/
theorem Module.Respelled.joined_eq {m m' : Module} (h : m.Respelled m') :
    m'.joined = m.joined := by
  cases h with
  | declarations h => simp [Module.joined, h.joined_eq]
  | procedure h => simp [Module.joined, Declarations.joined, h.joined_eq]
  | body h => simp [Module.joined, h.joined_eq]

/-! ## The joined form emits the same code -/

section

variable {env : Environment}

/-- `emitIndices` of two lists in a row is that of the first and then that of the second. -/
theorem emitIndices_append (left right : List Expr) :
    emitIndices env (left ++ right) = (do
      let first ← emitIndices env left
      let others ← emitIndices env right
      pure (first ++ others)) := by
  induction left with
  | nil => simp [emitIndices]
  | cons e rest ih => simp [emitIndices, ih]

/-- For `emitSelectors` only the indices in all selectors count, not how many selectors there
are. -/
theorem emitSelectors_eq (selectors : List (List Expr)) :
    emitSelectors env selectors = emitIndices env selectors.flatten := by
  induction selectors with
  | nil => rfl
  | cons selector rest ih => rw [emitSelectors, ih, List.flatten_cons, emitIndices_append]

/-- `joinedSelectors` has the same indices in the same order, each joined. -/
theorem flatten_joinedSelectors (selectors : List (List Expr)) :
    (joinedSelectors selectors).flatten = selectors.flatten.map Expr.joined := by
  cases selectors <;> simp [joinedSelectors]

/-- `indexCount` does not see how the indices are grouped. -/
theorem indexCount_joinedSelectors (selectors : List (List Expr)) :
    indexCount (joinedSelectors selectors) = indexCount selectors := by
  rw [indexCount, flatten_joinedSelectors, List.length_map, indexCount]

/-- `joinedSelectors` makes no selector where there was none. -/
theorem isEmpty_joinedSelectors (selectors : List (List Expr)) :
    (joinedSelectors selectors).isEmpty = selectors.isEmpty := by
  cases selectors <;> rfl

theorem emitIndices_joined {es : List Expr} (h : ∀ e ∈ es, e.joined.emit env = e.emit env) :
    emitIndices env (es.map Expr.joined) = emitIndices env es := by
  induction es with
  | nil => rfl
  | cons e rest ih =>
    obtain ⟨he, hrest⟩ := List.forall_mem_cons.mp h
    rw [List.map_cons, emitIndices, emitIndices, he, ih hrest]

/-- `emitSelectors` emits the same code for joined selectors, if each index does. -/
theorem emitSelectors_joined {selectors : List (List Expr)}
    (h : ∀ selector ∈ selectors, ∀ e ∈ selector, e.joined.emit env = e.emit env) :
    emitSelectors env (joinedSelectors selectors) = emitSelectors env selectors := by
  rw [emitSelectors_eq, flatten_joinedSelectors, emitSelectors_eq]
  apply emitIndices_joined
  intro e he
  obtain ⟨selector, hselector, he⟩ := List.mem_flatten.mp he
  exact h selector hselector e he

/-- `emitArguments` emits the same code for joined arguments, if each does by value and by
reference. -/
theorem emitArguments_joined {procedure : String} {position : Nat} {parameters : List Parameter}
    {es : List Expr}
    (h : ∀ e ∈ es, e.joined.emit env = e.emit env ∧ e.joined.place? env = e.place? env) :
    emitArguments env procedure position parameters (es.map Expr.joined)
      = emitArguments env procedure position parameters es := by
  induction es generalizing position parameters with
  | nil => rfl
  | cons e rest ih =>
    cases parameters with
    | nil => rfl
    | cons parameter parameters =>
      obtain ⟨⟨hemit, hplace⟩, hrest⟩ := List.forall_mem_cons.mp h
      rw [List.map_cons, emitArguments_cons, emitArguments_cons, hemit, hplace, ih hrest]

/-- The joined form of an expression emits what the expression emits, both by `Expr.emit` and by
`Expr.place?`. -/
theorem Expr.emits_joined (e : Expr) :
    e.joined.emit env = e.emit env ∧ e.joined.place? env = e.place? env := by
  induction e using Expr.induction with
  | literal value => exact ⟨rfl, rfl⟩
  | designator name selectors ih =>
    have hindices := emitSelectors_joined fun selector hselector e he =>
      (ih selector hselector e he).1
    rw [Expr.joined_designator]
    -- a designator asks for the number of its indices, their code, and whether it has selectors
    constructor
    · rw [Expr.emit, Expr.emit, isEmpty_joinedSelectors, indexCount_joinedSelectors, hindices]
    · rw [Expr.place?, Expr.place?, indexCount_joinedSelectors, hindices]
  | call callee arguments ih =>
    refine ⟨?_, rfl⟩
    rw [Expr.joined_call, Expr.emit, Expr.emit, List.length_map]
    simp only [emitArguments_joined ih]
  | not operand ih =>
    refine ⟨?_, rfl⟩
    rw [Expr.joined, Expr.emit, Expr.emit, ih.1]
  | negate operand ih =>
    refine ⟨?_, rfl⟩
    rw [Expr.joined, Expr.emit, Expr.emit, ih.1]
  | binary lhs op rhs ihl ihr =>
    refine ⟨?_, rfl⟩
    rw [Expr.joined, Expr.emit, Expr.emit, ihl.1, ihr.1]
  | relation lhs op rhs ihl ihr =>
    refine ⟨?_, rfl⟩
    rw [Expr.joined, Expr.emit, Expr.emit, ihl.1, ihr.1]

@[simp] theorem Expr.emit_joined (e : Expr) : e.joined.emit env = e.emit env :=
  e.emits_joined.1

@[simp] theorem Expr.emitCondition_joined (e : Expr) :
    e.joined.emitCondition env = e.emitCondition env := by
  rw [Expr.emitCondition, Expr.emit_joined, Expr.emitCondition]

@[simp] theorem Designator.emitAddress_joined (d : Designator) :
    d.joined.emitAddress env = d.emitAddress env := by
  have hindices : emitSelectors env (joinedSelectors d.selectors) = emitSelectors env d.selectors :=
    emitSelectors_joined fun _ _ e _ => e.emit_joined
  rw [Designator.emitAddress, Designator.joined, indexCount_joinedSelectors, hindices]
  rfl

theorem emitStore_joined (place : Value) (ty : Ty) (value : Expr) :
    emitStore env place ty value.joined = emitStore env place ty value := by
  rw [emitStore, Expr.emit_joined, emitStore]

/-- `emitArrayCopy` takes the address of its source, which joining keeps. -/
theorem emitArrayCopy_joined (place : Value) (ty : Ty) (source : Designator) :
    emitArrayCopy env place ty source.joined = emitArrayCopy env place ty source := by
  rw [emitArrayCopy_eq, Designator.emitAddress_joined, emitArrayCopy_eq]

/-- `assignTo` copies an array from a designator, however that is spelled. -/
theorem assignTo_joined (place : Value) (ty : Ty) (value : Expr) :
    assignTo env place ty value.joined = assignTo env place ty value := by
  have hstore : emitStore env place ty value.joined = emitStore env place ty value :=
    emitStore_joined place ty value
  cases harray : ty.isArray with
  | false => simpa only [assignTo, harray] using hstore
  | true =>
    -- only a designator is copied as a whole, and it stays a designator
    cases value with
    | designator name selectors =>
      simp only [assignTo, harray, Expr.joined_designator]
      exact emitArrayCopy_joined place ty ⟨name, selectors⟩
    | literal => rfl
    | call | not | negate | binary | relation =>
      simpa only [assignTo, harray, Expr.joined] using hstore

/-- `emitAssign` emits the same code for joined sides. -/
theorem emitAssign_joined (target : Designator) (value : Expr) :
    emitAssign env target.joined value.joined = emitAssign env target value := by
  rw [emitAssign_eq, Designator.emitAddress_joined, emitAssign_eq]
  simp only [assignTo_joined]

theorem emitPrints_joined (ending : String) (es : List Expr) :
    emitPrints env ending (es.map Expr.joined) = emitPrints env ending es := by
  induction es with
  | nil => rfl
  | cons e rest ih =>
    cases rest with
    | nil => rw [List.map_cons, List.map_nil, emitPrints, Expr.emit_joined, emitPrints]
    | cons other rest =>
      rw [List.map_cons] at ih
      simp only [List.map_cons, emitPrints, Expr.emit_joined, ih]

/-- `emitWriteln` without arguments stays one without arguments. -/
theorem emitWriteln_joined (es : List Expr) :
    emitWriteln env (es.map Expr.joined) = emitWriteln env es := by
  cases es with
  | nil => rfl
  | cons e rest => exact emitPrints_joined "\n" (e :: rest)

/-- `emitRead` takes no selectors, and joining adds and removes none. -/
theorem emitRead_joined (es : List Expr) :
    emitRead env (es.map Expr.joined) = emitRead env es := by
  match es with
  | [] => rfl
  | [.designator name []] => rw [List.map_cons, List.map_nil, Expr.joined]
  | [.designator name (_ :: _)] | [.literal _] | [.call ..] | [.not _] | [.negate _]
  | [.binary ..] | [.relation ..] => rfl
  | _ :: _ :: _ =>
    -- more than one argument is never the one variable that READ takes
    rw [List.map_cons, List.map_cons, emitRead.eq_2, emitRead.eq_2] <;> simp

theorem emitCallStatement_joined (name : String) (es : List Expr) :
    emitCallStatement env name (es.map Expr.joined) = emitCallStatement env name es := by
  have hcall : emitCall env name (es.map Expr.joined) = emitCall env name es := by
    rw [emitCall, emitCall, List.length_map]
    simp only [emitArguments_joined fun e _ => e.emits_joined]
  rw [emitCallStatement, emitWriteln_joined, emitRead_joined, hcall, emitWrite,
    emitPrints_joined]
  rfl

end

section

variable {scene : Scene} {loop : Option Loop}

theorem emitReturn_joined (value : Option Expr) :
    emitReturn scene (value.map Expr.joined) = emitReturn scene value := by
  cases value with
  | none => rfl
  | some e => simp only [emitReturn, emitResult, Option.map_some, Expr.emit_joined]

/-- `emitStatements` emits the same code for joined statements, if each of them does. -/
theorem emitStatements_joined_of {body : List Statement}
    (h : ∀ s ∈ body, ∀ loop, s.joined.emit scene loop = s.emit scene loop) :
    emitStatements scene loop (body.map Statement.joined) = emitStatements scene loop body := by
  induction body with
  | nil => rfl
  | cons s rest ih =>
    obtain ⟨hs, hrest⟩ := List.forall_mem_cons.mp h
    rw [List.map_cons, emitStatements, emitStatements, hs, ih hrest]

theorem emitElse_joined {done : Nat} {otherwise : Option (List Statement)}
    (h : ∀ body ∈ otherwise, ∀ s ∈ body, ∀ loop, s.joined.emit scene loop = s.emit scene loop) :
    emitElse scene loop done (otherwise.map (List.map Statement.joined))
      = emitElse scene loop done otherwise := by
  cases otherwise with
  | none => rfl
  | some body =>
    rw [Option.map_some, emitElse, emitElse, emitStatements_joined_of (h body rfl)]

/-- `emitBranches` emits the same code for joined IF branches, if their statements do. -/
theorem emitBranches_joined {done : Nat} {hasElse : Bool}
    {branches : List (Expr × List Statement)}
    (h : ∀ branch ∈ branches, ∀ s ∈ branch.2, ∀ loop,
      s.joined.emit scene loop = s.emit scene loop) :
    emitBranches scene loop done hasElse
        (branches.map (Prod.map Expr.joined (List.map Statement.joined)))
      = emitBranches scene loop done hasElse branches := by
  induction branches with
  | nil => rfl
  | cons branch rest ih =>
    obtain ⟨hbody, hrest⟩ := List.forall_mem_cons.mp h
    rw [List.map_cons, Prod.map, emitBranches, Expr.emitCondition_joined,
      emitStatements_joined_of hbody, List.isEmpty_map, ih hrest, ← emitBranches]

/-- `emitCases` emits the same code for joined CASE branches, if their statements do. -/
theorem emitCases_joined {selector : Value} {done fallback test : Nat}
    {branches : List (List Literal × List Statement)}
    (h : ∀ branch ∈ branches, ∀ s ∈ branch.2, ∀ loop,
      s.joined.emit scene loop = s.emit scene loop) :
    emitCases scene loop selector done fallback test
        (branches.map (Prod.map id (List.map Statement.joined)))
      = emitCases scene loop selector done fallback test branches := by
  induction branches generalizing test with
  | nil => rfl
  | cons branch rest ih =>
    obtain ⟨hbody, hrest⟩ := List.forall_mem_cons.mp h
    rw [List.map_cons, Prod.map, emitCases, emitStatements_joined_of hbody, List.isEmpty_map]
    simp only [ih hrest]
    rw [← emitCases, id]

end

/-- `Statement.joined` emits what the statement emits. -/
theorem Statement.emit_joined (scene : Scene) (s : Statement) (loop : Option Loop) :
    s.joined.emit scene loop = s.emit scene loop := by
  induction s using Statement.induction generalizing loop with
  | assign target value => rw [Statement.joined, Statement.emit, emitAssign_joined, Statement.emit]
  | call procedure arguments =>
    rw [Statement.joined, Statement.emit, emitCallStatement_joined, Statement.emit]
  | ifThen branches otherwise ihbranches ihelse =>
    rw [Statement.joined, joinBranches_eq, joinElse_eq, Statement.emit, Option.isSome_map]
    simp only [emitBranches_joined ihbranches, emitElse_joined ihelse]
    rw [← Statement.emit]
  | whileDo condition body ih =>
    rw [Statement.joined, joinStatements_eq, Statement.emit, Expr.emitCondition_joined]
    simp only [emitStatements_joined_of ih]
    rw [← Statement.emit]
  | repeatUntil body condition ih =>
    rw [Statement.joined, joinStatements_eq, Statement.emit, Expr.emitCondition_joined]
    simp only [emitStatements_joined_of ih]
    rw [← Statement.emit]
  | forDo counter start limit direction body ih =>
    rw [Statement.joined, joinStatements_eq, Statement.emit, Expr.emit_joined, Expr.emit_joined]
    simp only [emitStatements_joined_of ih]
    rw [← Statement.emit]
  | caseOf selector branches otherwise ihbranches ihelse =>
    rw [Statement.joined, joinCases_eq, joinElse_eq, Statement.emit, Expr.emit_joined,
      Option.isSome_map, List.isEmpty_map]
    simp only [emitCases_joined ihbranches, emitElse_joined ihelse]
    rw [← Statement.emit]
  | breakLoop => rfl
  | continueLoop => rfl
  | returnWith value => rw [Statement.joined, Statement.emit, emitReturn_joined, Statement.emit]

theorem emitStatements_joined (scene : Scene) (loop : Option Loop) (body : List Statement) :
    emitStatements scene loop (body.map Statement.joined) = emitStatements scene loop body :=
  emitStatements_joined_of fun s _ => s.emit_joined scene

end Oberon
