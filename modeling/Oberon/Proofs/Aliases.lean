import Oberon.Proofs.TypedSections

/-!
# What type names mean

A type name stands for its definition, read where it is declared: with the names that are visible
there, which say how long the dimensions are, and without the types of sections inside. `Denotes`
says so without order, memory or fuel.

Types are resolved later than that, where they are used, and then remembered. So a use finds the
type that its name denotes as long as no declaration between gives another meaning to a name in a
dimension; one that does changes the type, there and for all later uses.
-/

namespace Oberon

open Code

/-! ## Denotation -/

/-- A section as its types see it: the names visible where they are declared, and their
definitions, of which the first one of a name counts. -/
structure Home where
  env : Environment
  declared : List (String × TypeExpr)

/-- The definition of a type name in the innermost `Home` that has one, with that and those around
it. -/
def findType (name : String) : List Home → Option (TypeExpr × Home × List Home)
  | [] => none
  | home :: outer =>
    match home.declared.lookup name with
    | some definition => some (definition, home, outer)
    | none => findType name outer

/-- The type that a type expression denotes, given the names visible where it stands and the
sections around it. A definition is read in its own section, as `findType` has it. -/
inductive TypeExpr.Denotes : Environment → List Home → TypeExpr → Ty → Prop
  | integer {env : Environment} {homes : List Home} : Denotes env homes .integer .integer
  | real {env : Environment} {homes : List Home} : Denotes env homes .real .real
  | boolean {env : Environment} {homes : List Home} : Denotes env homes .boolean .boolean
  | string {env : Environment} {homes : List Home} : Denotes env homes .string .string
  | named {env : Environment} {homes outer : List Home} {name : String} {definition : TypeExpr}
    {home : Home} {ty : Ty} (hfind : findType name homes = some (definition, home, outer))
    (h : Denotes home.env (home :: outer) definition ty) : Denotes env homes (.named name) ty
  | array {env : Environment} {homes : List Home} {dimensions : List Expr} {element : TypeExpr}
    {ty : Ty} (h : Denotes env homes element ty) :
    Denotes env homes (.array dimensions element)
      (.arrayOf (dimensions.map (Expr.dimension env)) ty)

/-- A type expression `Denotes` one type at most. -/
theorem TypeExpr.Denotes.unique {env : Environment} {homes : List Home} {type : TypeExpr}
    {ty ty' : Ty} (h : type.Denotes env homes ty) (h' : type.Denotes env homes ty') :
    ty' = ty := by
  induction h generalizing ty' with
  | integer => cases h'; rfl
  | real => cases h'; rfl
  | boolean => cases h'; rfl
  | string => cases h'; rfl
  | named hfind _ ih =>
    cases h' with
    | named hfind' hdef' =>
      rw [hfind] at hfind'
      obtain ⟨rfl, rfl, rfl⟩ := by simpa using hfind'
      exact ih hdef'
  | array _ ih =>
    cases h' with
    | array helement' => rw [ih helement']

/-- The type that a type expression `Denotes`, if it is found in so many steps. -/
def TypeExpr.denote : Nat → Environment → List Home → TypeExpr → Option Ty
  | 0, _, _, _ => none
  | _ + 1, _, _, .integer => some .integer
  | _ + 1, _, _, .real => some .real
  | _ + 1, _, _, .boolean => some .boolean
  | _ + 1, _, _, .string => some .string
  | n + 1, _, homes, .named name =>
    (findType name homes).bind fun (definition, home, outer) =>
      definition.denote n home.env (home :: outer)
  | n + 1, env, homes, .array dimensions element =>
    (element.denote n env homes).map (.arrayOf (dimensions.map (Expr.dimension env)))

/-- The function `TypeExpr.denote`, with any number of rounds, finds only what is denoted. -/
theorem TypeExpr.denotes_of_denote {n : Nat} {env : Environment} {homes : List Home}
    {type : TypeExpr} {ty : Ty} (h : type.denote n env homes = some ty) :
    type.Denotes env homes ty := by
  induction n generalizing env homes type ty with
  | zero => exact nomatch h
  | succ n ih =>
    cases type with
    | integer => exact Option.some.inj h ▸ .integer
    | real => exact Option.some.inj h ▸ .real
    | boolean => exact Option.some.inj h ▸ .boolean
    | string => exact Option.some.inj h ▸ .string
    | named name =>
      obtain ⟨⟨definition, home, outer⟩, hfind, hdef⟩ := Option.bind_eq_some_iff.mp h
      exact .named hfind (ih hdef)
    | array dimensions element =>
      obtain ⟨inner, helement, rfl⟩ := Option.map_eq_some_iff.mp h
      exact .array (ih helement)

/-! ## Names in dimensions -/

/-- The names on which `Expr.fold` of an expression depends. -/
def Expr.names : Expr → List String
  | .literal _ => []
  | .designator name _ => [name]
  | .call .. => []
  | .not operand | .negate operand => operand.names
  | .binary lhs _ rhs | .relation lhs _ rhs => lhs.names ++ rhs.names

/-- The dimensions that a type expression holds. -/
def TypeExpr.dimensions : TypeExpr → List Expr
  | .array dimensions element => dimensions ++ element.dimensions
  | _ => []

/-- The `Expr.names` on which definitions depend. -/
def dimensionNames (declared : List (String × TypeExpr)) : List String :=
  declared.flatMap fun x => x.2.dimensions.flatMap Expr.names

/-- The constant that `Environment.lookup` finds for a name. -/
def Environment.constant? (env : Environment) (name : String) : Option Constant :=
  match env.lookup name with
  | some (.constant value) => some value
  | _ => none

/-- `Expr.fold` depends on the constants whose names occur in the expression only. -/
theorem Expr.fold_congr {env env' : Environment} (e : Expr)
    (h : ∀ name ∈ e.names, env.constant? name = env'.constant? name) :
    e.fold env = e.fold env' := by
  induction e using Expr.induction with
  | literal value => rfl
  | designator name selectors =>
    cases selectors with
    | nil => exact h name List.mem_cons_self
    | cons => rfl
  | call => rfl
  | not operand ih => simp only [Expr.fold, ih h]
  | negate operand ih => simp only [Expr.fold, ih h]
  | binary lhs op rhs ihl ihr =>
    obtain ⟨hl, hr⟩ := List.forall_mem_append.mp h
    simp only [Expr.fold, ihl hl, ihr hr]
  | relation lhs op rhs ihl ihr =>
    obtain ⟨hl, hr⟩ := List.forall_mem_append.mp h
    simp only [Expr.fold, ihl hl, ihr hr]

/-- `Expr.dimension` depends on the constants whose names occur in the expression only. -/
theorem Expr.dimension_congr {env env' : Environment} {e : Expr}
    (h : ∀ name ∈ e.names, env.constant? name = env'.constant? name) :
    e.dimension env = e.dimension env' := by
  simp only [Expr.dimension, e.fold_congr h]

/-- Dimensions are as long, by `Expr.dimension` in an environment, as they are where they are
declared. -/
def Environment.Agrees (env : Environment) (homes : List Home) : Prop :=
  ∀ home ∈ homes, ∀ x ∈ home.declared, ∀ e ∈ x.2.dimensions, e.dimension env = e.dimension home.env

/-- No dimension in a type of the sections depends on a name: it is none of `dimensionNames`. -/
def IsSpared (homes : List Home) (name : String) : Prop :=
  ∀ home ∈ homes, name ∉ dimensionNames home.declared

namespace Environment.Agrees

variable {env : Environment} {homes : List Home}

/-- An environment `Agrees` with the homes of types also when a name is bound that they spare. -/
theorem bind (h : env.Agrees homes) {name : String} (hname : IsSpared homes name) (named : Named) :
    (env.bind name named).Agrees homes := by
  intro home hhome x hx e he
  rw [← h home hhome x hx e he]
  apply Expr.dimension_congr
  intro other hother
  have hne : other ≠ name := by
    rintro rfl
    exact hname home hhome (List.mem_flatMap.mpr ⟨x, hx, List.mem_flatMap.mpr ⟨e, he, hother⟩⟩)
  rw [constant?, lookup_bind, if_neg hne, constant?]

/-- A new frame binds nothing, so the environment `Agrees` with the same homes. -/
theorem push (h : env.Agrees homes) : env.push.Agrees homes := by
  intro home hhome x hx e he
  rw [← h home hhome x hx e he]
  exact Expr.dimension_congr fun name _ => rfl

end Environment.Agrees

/-! ## Resolution -/

/-- Scopes that belong to sections and remember nothing but what names `Denotes` there. -/
inductive Remembers : List Home → List TypeScope → Prop
  | nil : Remembers [] []
  | cons {home : Home} {outer : List Home} {scope : TypeScope} {scopes : List TypeScope}
    (hdeclared : scope.declared = home.declared)
    (hresolved : ∀ x ∈ scope.resolved, (TypeExpr.named x.1).Denotes home.env (home :: outer) x.2)
    (h : Remembers outer scopes) : Remembers (home :: outer) (scope :: scopes)

theorem Remembers.tail {home : Home} {homes : List Home} {scopes : List TypeScope}
    (h : Remembers (home :: homes) scopes) : Remembers homes scopes.tail := by
  cases h with
  | cons _ _ hrest => exact hrest

/-- `Remembers` from the section on that declares a name, when scopes are split there. -/
theorem Remembers.split {homes : List Home} {scopes : List TypeScope} (h : Remembers homes scopes)
    {name : String} {scope : TypeScope} {outer : List TypeScope}
    (hdrop : scopes.drop (scopes.takeWhile fun s => (s.declared.lookup name).isNone).length
      = scope :: outer) :
    ∃ home around, Remembers (home :: around) (scope :: outer)
      ∧ findType name homes = findType name (home :: around)
      ∧ (∀ x, x ∈ home :: around → x ∈ homes)
      ∧ ∀ {visible}, Remembers (home :: around) visible → Remembers homes
        ((scopes.takeWhile fun s => (s.declared.lookup name).isNone) ++ visible) := by
  induction h with
  | nil => exact nomatch hdrop
  | @cons first around head tail hdeclared hresolved hrest ih =>
    -- scopes that do not declare the name are passed by, in both lists alike
    by_cases hnone : (head.declared.lookup name).isNone
    · rw [List.takeWhile_cons_of_pos (by simpa using hnone)] at hdrop ⊢
      obtain ⟨home, around', hsplit, hfind, hmem, hback⟩ := ih hdrop
      refine ⟨home, around', hsplit, ?_, fun x hx => List.mem_cons_of_mem _ (hmem x hx), ?_⟩
      · have hfirst : first.declared.lookup name = none := by
          rw [← hdeclared]
          exact Option.isNone_iff_eq_none.mp hnone
        simp only [findType, hfirst]
        exact hfind
      · exact fun hvisible => .cons hdeclared hresolved (hback hvisible)
    · rw [List.takeWhile_cons_of_neg (by simpa using hnone)] at hdrop ⊢
      obtain ⟨rfl, rfl⟩ := List.cons.inj hdrop
      exact ⟨first, around, .cons hdeclared hresolved hrest, rfl, fun _ hx => hx, id⟩

section

variable {dimension : Expr → Nat} {env : Environment} {homes : List Home}

/-- What `TypeExpr.resolve` gives is what the expression denotes, if that is so for names. -/
theorem TypeExpr.denotes_resolve {named : String → Resolution} {scopes : List TypeScope}
    {resolving : List (Nat × String)}
    (hn : ∀ {name ty}, (named name).result = .ok ty → (TypeExpr.named name).Denotes env homes ty)
    {type : TypeExpr} (hd : ∀ e ∈ type.dimensions, dimension e = e.dimension env) {ty : Ty}
    (h : (type.resolve dimension named scopes resolving).result = .ok ty) :
    type.Denotes env homes ty := by
  induction type generalizing ty with
  | integer => exact Except.ok.inj h ▸ .integer
  | real => exact Except.ok.inj h ▸ .real
  | boolean => exact Except.ok.inj h ▸ .boolean
  | string => exact Except.ok.inj h ▸ .string
  | named name => exact hn h
  | array dimensions element ih =>
    obtain ⟨hdims, helement⟩ := List.forall_mem_append.mp hd
    have h : ((element.resolve dimension named scopes resolving).result.map
        (Ty.arrayOf (dimensions.map dimension))) = .ok ty := h
    cases hr : (element.resolve dimension named scopes resolving).result with
    | error e =>
      rw [hr] at h
      exact nomatch h
    | ok inner =>
      rw [hr] at h
      obtain rfl := Except.ok.inj h
      -- the dimensions have the values that they have where the type is declared
      rw [List.map_congr_left hdims]
      exact .array (ih helement hr)

theorem Resolution.result_remember (name : String) (r : Resolution) :
    (r.remember name).result = r.result := by
  unfold Resolution.remember
  split <;> rfl

/-- `remember` keeps the scopes right if the name denotes what was found. -/
theorem Resolution.remembers_remember {home : Home} {r : Resolution} {name : String}
    (hscopes : Remembers (home :: homes) r.scopes)
    (hresult : ∀ {ty}, r.result = .ok ty →
      (TypeExpr.named name).Denotes home.env (home :: homes) ty) :
    Remembers (home :: homes) (r.remember name).scopes := by
  unfold Resolution.remember
  split
  · rename_i ty scope outer hty hsplit
    rw [hsplit] at hscopes
    cases hscopes with
    | cons hdeclared hresolved hrest =>
      exact .cons hdeclared (List.forall_mem_cons.mpr ⟨hresult hty, hresolved⟩) hrest
  · exact hscopes

/-- What `resolveName` gives is what the name denotes, from wherever dimensions are as long as where
they are declared. Scopes go on to remember nothing else. -/
theorem denotes_resolveName (rounds : Nat) (resolving : List (Nat × String))
    {scopes : List TypeScope} (hd : env.Agrees homes) (h : Remembers homes scopes)
    (name : String) :
    Remembers homes (resolveName (Expr.dimension env) rounds resolving scopes name).scopes
      ∧ ∀ {here : Environment} {ty : Ty},
        (resolveName (Expr.dimension env) rounds resolving scopes name).result = .ok ty →
        (TypeExpr.named name).Denotes here homes ty := by
  induction rounds generalizing resolving scopes homes name with
  | zero => exact ⟨h, by rintro _ _ ⟨⟩⟩
  | succ rounds ih =>
    rw [resolveName]
    split
    · exact ⟨h, by rintro _ _ ⟨⟩⟩
    · rename_i scope outer hvisible
      obtain ⟨home, around, hsplit, hfind, hmem, hback⟩ := h.split hvisible
      -- the name denotes, from inside, what it denotes in the section that declares it
      have inside {here : Environment} {ty : Ty}
          (hty : (TypeExpr.named name).Denotes home.env (home :: around) ty) :
          (TypeExpr.named name).Denotes here homes ty := by
        cases hty with
        | named hfound hdef => exact .named (hfind.trans hfound) hdef
      cases hsplit with
      | cons hdeclared hresolved hrest =>
      split
      · rename_i ty _ hfound
        refine ⟨h, fun hty => ?_⟩
        obtain rfl := Except.ok.inj hty
        exact inside (hresolved _ (mem_of_lookup hfound))
      · exact ⟨h, by rintro _ _ ⟨⟩⟩
      · rename_i definition _ hdef
        dsimp only
        split
        · exact ⟨h, by rintro _ _ ⟨⟩⟩
        · have hdims : env.Agrees (home :: around) := fun x hx => hd x (hmem x hx)
          have hnext (other : String) := ih (((scope :: outer).length, name) :: resolving) hdims
            (.cons hdeclared hresolved hrest) other
          rw [hdeclared] at hdef
          have hresult {ty : Ty} (hty : (definition.resolve (Expr.dimension env)
              (resolveName (Expr.dimension env) rounds
                (((scope :: outer).length, name) :: resolving) (scope :: outer)) (scope :: outer)
              (((scope :: outer).length, name) :: resolving)).result = .ok ty) :
              (TypeExpr.named name).Denotes home.env (home :: around) ty := by
            have hhere : findType name (home :: around) = some (definition, home, around) := by
              simp only [findType, hdef]
            have hlengths := hdims home List.mem_cons_self _ (mem_of_lookup hdef)
            exact .named hhere (TypeExpr.denotes_resolve (fun hty => (hnext _).2 hty) hlengths hty)
          refine ⟨hback (Resolution.remembers_remember ?_ hresult), fun hty => ?_⟩
          · exact TypeExpr.scopes_resolve (P := Remembers (home :: around))
              (.cons hdeclared hresolved hrest) (fun other => (hnext other).1) definition
          · have hresolved := (Resolution.result_remember name _).symm.trans hty
            exact inside (hresult hresolved)

end

/-! ## Uses -/

/-- A type expression that is resolved while a module is compiled: the names and types known at
that time, and the sections around it. -/
structure Use where
  env : Environment
  types : TypeTable
  homes : List Home
  type : TypeExpr

/-- What `TypeTable.resolve` makes of a use. -/
def Use.result (use : Use) : Except TypeError Ty :=
  (use.types.resolve (Expr.dimension use.env) use.type).result

/-- A use whose `Use.result` is the one type that it `Denotes`. -/
def Use.IsFaithful (use : Use) : Prop :=
  ∃ ty, use.result = .ok ty ∧ ∀ ty', use.type.Denotes use.env use.homes ty' ↔ ty' = ty

namespace Session

/-- The section whose types are declared next. Of several definitions of a name the last counts. -/
def home (s : Session) (types : List (String × TypeExpr)) : Home :=
  { env := s.env, declared := types.reverse }

/-- The use of a type at some time of the compilation. -/
def use (s : Session) (homes : List Home) (type : TypeExpr) : Use :=
  { env := s.env, types := s.types, homes, type }

/-- The uses that follow on a step `x` of the compilation, if it succeeds. -/
def usesAfter {ε α : Type} (s : Session) (x : StateT Session (Except ε) α)
    (next : α → Session → List Use) : List Use :=
  match x s with
  | .ok (a, t) => next a t
  | .error _ => []

theorem usesAfter_ok {ε α : Type} {s t : Session} {x : StateT Session (Except ε) α} {a : α}
    (h : x s = .ok (a, t)) (next : α → Session → List Use) : s.usesAfter x next = next a t := by
  simp only [usesAfter, h]

end Session

namespace Compile

/-- The types that `vars` resolves. -/
def varsUses (make : String → Ty → Compile Variable) (homes : List Home) :
    List (List String × TypeExpr) → Session → List Use
  | [], _ => []
  | (names, type) :: rest, s =>
    s.use homes type :: s.usesAfter (resolve type) fun ty r =>
      r.usesAfter (varsOf make ty names) fun _ => varsUses make homes rest

/-- The types that `parameters` resolves. -/
def parametersUses (homes : List Home) : List FormalSection → Session → List Use
  | [], _ => []
  | formal :: rest, s =>
    s.use homes formal.type :: s.usesAfter (resolve formal.type) fun _ => parametersUses homes rest

/-- The types that `signature` resolves: the result, and then the parameters. -/
def signatureUses (homes : List Home) (formals : List FormalSection) (result : Option TypeExpr)
    (s : Session) : List Use :=
  result.toList.map (s.use homes)
    ++ s.usesAfter (resultType result) fun _ => parametersUses homes formals

end Compile

mutual

/-- The types that a procedure of a unit uses: those of its head outside, all others inside. -/
def Procedure.uses (unit : String) (homes : List Home) : Procedure → Session → List Use
  | .mk name formals result ⟨constants, types, vars, procedures⟩ _, s =>
    Compile.signatureUses homes formals result s ++
    s.usesAfter (Compile.signature (unit ++ "." ++ name) formals result) fun sig r =>
      (r.bind name (.procedure sig)).opened.usesAfter
        (do Compile.bindParameters 0 sig.parameters; Compile.constants constants) fun _ a =>
        a.usesAfter (Compile.types types) fun _ b =>
          -- the types of the section see its parameters and constants
          Compile.varsUses Compile.localVariable (a.home types :: homes) vars b ++
          b.usesAfter (Compile.vars Compile.localVariable vars) fun _ =>
            usesOf (unit ++ "." ++ name) (a.home types :: homes) procedures

/-- The types that the procedures of a unit use. -/
def usesOf (unit : String) (homes : List Home) : List Procedure → Session → List Use
  | [], _ => []
  | p :: rest, s =>
    p.uses unit homes s ++ s.usesAfter (p.compile unit) fun _ => usesOf unit homes rest

end

/-- All types that are used in a module, in the order in which they are resolved. -/
def Module.uses (m : Module) : List Use :=
  Session.begun.usesAfter (Compile.constants m.declarations.constants) fun _ a =>
    a.usesAfter (Compile.types m.declarations.types) fun _ b =>
      Compile.varsUses (Compile.globalVariable m.name) [a.home m.declarations.types]
        m.declarations.vars b ++
      b.usesAfter (Compile.vars (Compile.globalVariable m.name) m.declarations.vars) fun _ =>
        usesOf m.name [a.home m.declarations.types] m.declarations.procedures

/-! ## Sections -/

/-- A time of the compilation at which scopes `Remembers` nothing but what names denote, and at
which dimensions are as long as where they are declared. -/
structure Session.Settled (s : Session) (homes : List Home) : Prop where
  remembers : Remembers homes s.types.scopes
  agrees : s.env.Agrees homes

namespace Session.Settled

variable {s t : Session} {homes : List Home}

/-- What `Compile.resolve` gives at a settled time is what the use denotes. -/
theorem resolve (h : s.Settled homes) {type : TypeExpr} {ty : Ty}
    (hok : Compile.resolve type s = .ok (ty, t)) :
    t.Settled homes ∧ (s.use homes type).IsFaithful := by
  obtain ⟨hresult, -, rfl⟩ := Compile.resolve_ok hok
  have hname (name : String) := denotes_resolveName (s.types.definitionCount + 1) s.types.resolving
    h.agrees h.remembers name
  have hdenotes : type.Denotes s.env homes ty :=
    TypeExpr.denotes_resolve (fun hty => (hname _).2 hty) (fun _ _ => rfl) hresult
  refine ⟨⟨?_, h.agrees⟩, ty, hresult, fun ty' => ⟨hdenotes.unique, ?_⟩⟩
  · exact TypeExpr.scopes_resolve (P := Remembers homes) h.remembers (fun name => (hname name).1)
      type
  · rintro rfl
    exact hdenotes

end Session.Settled

/-- A step of the compilation that declares `names`, and no types. -/
structure Session.Adds (s t : Session) (names : List String) : Prop where
  types : t.types = s.types
  agrees : ∀ {homes : List Home}, s.env.Agrees homes → (∀ name ∈ names, IsSpared homes name) →
    t.env.Agrees homes

namespace Session.Adds

variable {s t u : Session} {names others : List String}

theorem refl (s : Session) : s.Adds s [] :=
  ⟨rfl, fun h _ => h⟩

/-- `Adds` composes, with the names of both parts. -/
theorem trans (h : s.Adds t names) (h' : t.Adds u others) : s.Adds u (names ++ others) := by
  refine ⟨h'.types.trans h.types, fun hagrees hspared => ?_⟩
  obtain ⟨hnames, hothers⟩ := List.forall_mem_append.mp hspared
  exact h'.agrees (h.agrees hagrees hnames) hothers

/-- A session that adds only names which the homes spare stays `Settled`. -/
theorem settled (h : s.Adds t names) {homes : List Home} (hs : s.Settled homes)
    (hnames : ∀ name ∈ names, IsSpared homes name) : t.Settled homes :=
  ⟨h.types ▸ hs.remembers, h.agrees hs.agrees hnames⟩

end Session.Adds

/-- All types of a section are declared in one scope, the last one in front. -/
theorem TypeTable.declare_all (types declared : List (String × TypeExpr))
    (scopes : List TypeScope) (resolving : List (Nat × String)) :
    types.foldl (fun t (name, type) => t.declare name type) ⟨{ declared } :: scopes, resolving⟩
      = TypeTable.mk ({ declared := types.reverse ++ declared } :: scopes) resolving := by
  induction types generalizing declared with
  | nil => rfl
  | cons d rest ih =>
    rw [List.foldl_cons, List.reverse_cons, List.append_assoc]
    exact ih (d :: declared)

namespace Compile

variable {s t : Session} {u : Unit}

/-- `declare` adds one name, and leaves the types as they are. -/
theorem adds_declare {name : String} {named : Named} (h : declare name named s = .ok (u, t)) :
    s.Adds t [name] := by
  obtain ⟨-, rfl⟩ := declare_ok h
  refine ⟨rfl, fun hagrees hnames => ?_⟩
  exact hagrees.bind (hnames name List.mem_cons_self) named

/-- `constants` adds the names of the constants. -/
theorem adds_constants {constantSection : List (String × Expr)}
    (h : constants constantSection s = .ok (u, t)) : s.Adds t (constantSection.map (·.1)) := by
  induction constantSection generalizing s with
  | nil =>
    obtain ⟨-, rfl⟩ := pure_eq_ok.mp h
    exact .refl _
  | cons c rest ih =>
    obtain ⟨name, value⟩ := c
    simp only [constants, bind_eq_ok, get_eq_ok] at h
    obtain ⟨_, s, ⟨rfl, rfl⟩, h⟩ := h
    cases hvalue : value.fold s.env with
    | none =>
      rw [hvalue] at h
      exact (throw_eq_ok.mp h).elim
    | some c =>
      rw [hvalue] at h
      obtain ⟨_, r, hname, hrest⟩ := bind_eq_ok.mp h
      exact (adds_declare hname).trans (ih hrest)

/-- `varsOf` adds the names of the variables, if `make` names nothing. -/
theorem adds_varsOf {make : String → Ty → Compile Variable}
    (hmake : ∀ {name ty v s t}, make name ty s = .ok (v, t) → t.env = s.env ∧ t.types = s.types)
    {ty : Ty} {names : List String} (h : varsOf make ty names s = .ok (u, t)) :
    s.Adds t names := by
  induction names generalizing s with
  | nil =>
    obtain ⟨-, rfl⟩ := pure_eq_ok.mp h
    exact .refl _
  | cons name rest ih =>
    simp only [varsOf, bind_eq_ok] at h
    obtain ⟨cell, r, hcell, _, r', hname, hrest⟩ := h
    obtain ⟨henv, htypes⟩ := hmake hcell
    have hmade : s.Adds r [] := ⟨htypes, fun hagrees _ => henv ▸ hagrees⟩
    exact hmade.trans ((adds_declare hname).trans (ih hrest))

theorem globalVariable_names {moduleName name : String} {ty : Ty} {v : Variable}
    (h : globalVariable moduleName name ty s = .ok (v, t)) :
    t.env = s.env ∧ t.types = s.types := by
  simp only [globalVariable, bind_eq_ok, modify_eq_ok, get_eq_ok, pure_eq_ok] at h
  obtain ⟨_, _, rfl, _, _, ⟨-, rfl⟩, -, rfl⟩ := h
  exact ⟨rfl, rfl⟩

theorem localVariable_names {name : String} {ty : Ty} {v : Variable}
    (h : localVariable name ty s = .ok (v, t)) : t.env = s.env ∧ t.types = s.types := by
  simp only [localVariable, bind_eq_ok, emit_eq_ok, get_eq_ok, pure_eq_ok] at h
  obtain ⟨_, _, ⟨_, -, rfl⟩, _, _, ⟨-, rfl⟩, -, rfl⟩ := h
  exact ⟨rfl, rfl⟩

/-- `bindParameters` adds the names of the parameters. -/
theorem adds_bindParameters {index : Nat} {parameters : List Parameter}
    (h : bindParameters index parameters s = .ok (u, t)) :
    s.Adds t (parameters.map (·.name)) := by
  induction parameters generalizing index s with
  | nil =>
    obtain ⟨-, rfl⟩ := pure_eq_ok.mp h
    exact .refl _
  | cons parameter rest ih =>
    simp only [bindParameters, bind_eq_ok, emit_eq_ok, get_eq_ok] at h
    obtain ⟨_, _, ⟨e, -, rfl⟩, _, _, ⟨rfl, rfl⟩, _, _, hname, hrest⟩ := h
    have hcell : s.Adds (s.withEmission e) [] := ⟨rfl, fun hagrees _ => hagrees⟩
    exact hcell.trans ((adds_declare hname).trans (ih hrest))

/-- `parameters` have the names of the formal sections, in order. -/
theorem parameters_names {formals : List FormalSection} {ps : List Parameter}
    (h : parameters formals s = .ok (ps, t)) :
    ps.map (·.name) = formals.flatMap (·.names) := by
  induction formals generalizing s t ps with
  | nil =>
    obtain ⟨rfl, -⟩ := pure_eq_ok.mp h
    rfl
  | cons formal rest ih =>
    simp only [parameters, bind_eq_ok, pure_eq_ok] at h
    obtain ⟨ty, _, -, others, _, hrest, rfl, -⟩ := h
    rw [List.map_append, List.map_map, ih hrest, List.flatMap_cons]
    exact congrArg (· ++ _) (List.map_id _)

variable {homes : List Home}

/-- Once its `types` are declared, a section is a home for them. -/
theorem settled_types {typeSection : List (String × TypeExpr)} {scopes : List TypeScope}
    (h : types typeSection s = .ok (u, t)) (hscopes : s.types.scopes = {} :: scopes)
    (hremembers : Remembers homes scopes) (hagrees : s.env.Agrees homes) :
    t.Settled (s.home typeSection :: homes) := by
  obtain rfl := modify_eq_ok.mp h
  have htypes : s.types = ⟨{} :: scopes, s.types.resolving⟩ :=
    congrArg (TypeTable.mk · s.types.resolving) hscopes
  refine ⟨?_, List.forall_mem_cons.mpr ⟨fun _ _ _ _ => rfl, hagrees⟩⟩
  rw [htypes]
  simp only [TypeTable.declare_all, List.append_nil]
  exact .cons rfl (List.forall_mem_nil _) hremembers

/-- `vars` use what their types denote. -/
theorem settled_vars {make : String → Ty → Compile Variable}
    (hmake : ∀ {name ty v s t}, make name ty s = .ok (v, t) → t.env = s.env ∧ t.types = s.types)
    {varSection : List (List String × TypeExpr)} (h : vars make varSection s = .ok (u, t))
    (hs : s.Settled homes) (hnames : ∀ name ∈ varSection.flatMap (·.1), IsSpared homes name) :
    t.Settled homes ∧ ∀ use ∈ varsUses make homes varSection s, use.IsFaithful := by
  induction varSection generalizing s with
  | nil =>
    obtain ⟨-, rfl⟩ := pure_eq_ok.mp h
    exact ⟨hs, List.forall_mem_nil _⟩
  | cons declaration rest ih =>
    obtain ⟨names, type⟩ := declaration
    simp only [vars, bind_eq_ok] at h
    obtain ⟨ty, r, hty, _, r', hvars, hrest⟩ := h
    obtain ⟨hfirst, hothers⟩ := List.forall_mem_append.mp hnames
    obtain ⟨hr, hfaithful⟩ := hs.resolve hty
    obtain ⟨ht, huses⟩ := ih hrest ((adds_varsOf hmake hvars).settled hr hfirst) hothers
    rw [varsUses, Session.usesAfter_ok hty, Session.usesAfter_ok hvars]
    exact ⟨ht, List.forall_mem_cons.mpr ⟨hfaithful, huses⟩⟩

/-- `parameters` use what their types denote. -/
theorem settled_parameters {formals : List FormalSection} {ps : List Parameter}
    (h : parameters formals s = .ok (ps, t)) (hs : s.Settled homes) :
    t.Settled homes ∧ ∀ use ∈ parametersUses homes formals s, use.IsFaithful := by
  induction formals generalizing s ps with
  | nil =>
    obtain ⟨-, rfl⟩ := pure_eq_ok.mp h
    exact ⟨hs, List.forall_mem_nil _⟩
  | cons formal rest ih =>
    simp only [parameters, bind_eq_ok, pure_eq_ok] at h
    obtain ⟨ty, r, hty, others, _, hrest, -, rfl⟩ := h
    obtain ⟨hr, hfaithful⟩ := hs.resolve hty
    obtain ⟨ht, huses⟩ := ih hrest hr
    rw [parametersUses, Session.usesAfter_ok hty]
    exact ⟨ht, List.forall_mem_cons.mpr ⟨hfaithful, huses⟩⟩

theorem settled_resultType {result : Option TypeExpr} {ty : Ty}
    (h : resultType result s = .ok (ty, t)) (hs : s.Settled homes) :
    t.Settled homes ∧ ∀ use ∈ result.toList.map (s.use homes), use.IsFaithful := by
  cases result with
  | none =>
    obtain ⟨-, rfl⟩ := pure_eq_ok.mp h
    exact ⟨hs, List.forall_mem_nil _⟩
  | some type =>
    obtain ⟨found, r, hfound, h⟩ := bind_eq_ok.mp h
    obtain ⟨hr, hfaithful⟩ := hs.resolve hfound
    split at h
    · exact (throw_eq_ok.mp h).elim
    · obtain ⟨-, rfl⟩ := pure_eq_ok.mp h
      exact ⟨hr, List.forall_mem_cons.mpr ⟨hfaithful, List.forall_mem_nil _⟩⟩

/-- The `signature` of a procedure uses what its types denote. -/
theorem settled_signature {symbol : String} {formals : List FormalSection}
    {result : Option TypeExpr} {sig : Signature}
    (h : signature symbol formals result s = .ok (sig, t)) (hs : s.Settled homes) :
    t.Settled homes ∧ (∀ use ∈ signatureUses homes formals result s, use.IsFaithful)
      ∧ sig.parameters.map (·.name) = formals.flatMap (·.names) := by
  simp only [signature, bind_eq_ok, pure_eq_ok] at h
  obtain ⟨ty, r, hty, ps, r', hps, rfl, rfl⟩ := h
  obtain ⟨hr, hresult⟩ := settled_resultType hty hs
  obtain ⟨ht, hparameters⟩ := settled_parameters hps hr
  rw [signatureUses, Session.usesAfter_ok hty]
  exact ⟨ht, List.forall_mem_append.mpr ⟨hresult, hparameters⟩, parameters_names hps⟩

end Compile

/-! ## Procedures and modules -/

mutual

/-- A procedure declares none of the `taken` names, nor does it declare a name again on which one of
its types depends, in its section or inside. -/
def Procedure.Spares (taken : List String) : Procedure → Prop
  | .mk name formals _ ⟨constants, types, vars, procedures⟩ _ =>
    (∀ x ∈ name :: (formals.flatMap (·.names) ++ constants.map (·.1)), x ∉ taken)
      ∧ (∀ x ∈ vars.flatMap (·.1), x ∉ taken ++ dimensionNames types)
      ∧ AllSpare (taken ++ dimensionNames types) procedures

/-- Procedures each of which `Spares` the `taken` names. -/
def AllSpare (taken : List String) : List Procedure → Prop
  | [] => True
  | p :: rest => p.Spares taken ∧ AllSpare taken rest

end

/-- Where a type is visible, no name on which it depends is declared again: no variable or
procedure of its section and nothing inside has the name. -/
def Module.SparesDimensions (m : Module) : Prop :=
  (∀ x ∈ m.declarations.vars.flatMap (·.1), x ∉ dimensionNames m.declarations.types)
    ∧ AllSpare (dimensionNames m.declarations.types) m.declarations.procedures

/-- All names on which the types of the sections depend, `dimensionNames`, are `taken`. -/
def Covers (taken : List String) (homes : List Home) : Prop :=
  ∀ home ∈ homes, ∀ x ∈ dimensionNames home.declared, x ∈ taken

theorem Covers.isSpared {taken : List String} {homes : List Home} (h : Covers taken homes)
    {name : String} (hname : name ∉ taken) : IsSpared homes name :=
  fun home hhome hmem => hname (h home hhome name hmem)

/-- `Covers` inside of a section: the names in the dimensions of its types are taken as well. -/
theorem Covers.inside {taken : List String} {homes : List Home} (h : Covers taken homes)
    (s : Session) (types : List (String × TypeExpr)) :
    Covers (taken ++ dimensionNames types) (s.home types :: homes) := by
  refine List.forall_mem_cons.mpr ⟨?_, ?_⟩
  · intro x hx
    obtain ⟨d, hd, hx⟩ := List.mem_flatMap.mp hx
    exact List.mem_append_right _ (List.mem_flatMap.mpr ⟨d, List.mem_reverse.mp hd, hx⟩)
  · exact fun home hhome x hx => List.mem_append_left _ (h home hhome x hx)

/-- `compileProcedures` leaves the section `Settled` if each procedure does. -/
theorem settled_compileProcedures_of {unit : String} {procedures : List Procedure}
    {taken : List String} {homes : List Home}
    (h : ∀ p ∈ procedures, ∀ {s t u}, p.compile unit s = .ok (u, t) → s.Settled homes →
      p.Spares taken → t.Settled homes ∧ ∀ use ∈ p.uses unit homes s, use.IsFaithful)
    {s t : Session} {u : Unit} (hok : compileProcedures unit procedures s = .ok (u, t))
    (hs : s.Settled homes) (hspares : AllSpare taken procedures) :
    t.Settled homes ∧ ∀ use ∈ usesOf unit homes procedures s, use.IsFaithful := by
  induction procedures generalizing s with
  | nil =>
    rw [compileProcedures] at hok
    obtain ⟨-, rfl⟩ := pure_eq_ok.mp hok
    rw [usesOf]
    exact ⟨hs, List.forall_mem_nil _⟩
  | cons p rest ih =>
    rw [compileProcedures] at hok
    obtain ⟨_, r, hp, hrest⟩ := bind_eq_ok.mp hok
    rw [AllSpare] at hspares
    obtain ⟨hr, hfirst⟩ := h p List.mem_cons_self hp hs hspares.1
    obtain ⟨ht, hothers⟩ := ih (fun p hp => h p (List.mem_cons_of_mem _ hp)) hrest hr hspares.2
    rw [usesOf, Session.usesAfter_ok hp]
    exact ⟨ht, List.forall_mem_append.mpr ⟨hfirst, hothers⟩⟩

/-- A procedure that `Spares` the names of dimensions uses what its types denote, and leaves its
section settled. -/
theorem Procedure.settled_compile {p : Procedure} {unit : String} {taken : List String}
    {homes : List Home} {s t : Session} {u : Unit} (h : p.compile unit s = .ok (u, t))
    (hs : s.Settled homes) (hcovers : Covers taken homes) (hspares : p.Spares taken) :
    t.Settled homes ∧ ∀ use ∈ p.uses unit homes s, use.IsFaithful := by
  induction p using Procedure.induction generalizing unit taken homes s t u with
  | mk name formals result declarations body ih =>
    obtain ⟨sig₀, hgains⟩ := Procedure.gains_of_compile h
    obtain ⟨sig, entry, outer, a, b, ho, hn, hc⟩ := Procedure.compile_ok h
    obtain ⟨constants, types, vars, procedures⟩ := declarations
    obtain ⟨r, a₁, a₂, a₃, hsig, -, hps, hcs, hts, hvs⟩ := Compile.openProcedure_ok ho
    rw [Procedure.Spares] at hspares
    obtain ⟨hhead, hvars, hprocedures⟩ := hspares
    obtain ⟨hname, hhead⟩ := List.forall_mem_cons.mp hhead
    obtain ⟨hr, huses, hformals⟩ := Compile.settled_signature hsig hs
    -- inside, parameters and constants come before the types, which then have their home
    have hadds := (Compile.adds_bindParameters hps).trans (Compile.adds_constants hcs)
    rw [hformals] at hadds
    have hagrees := hadds.agrees
      ((hr.agrees.bind (hcovers.isSpared hname) (.procedure sig)).push)
      fun x hx => hcovers.isSpared (hhead x hx)
    have ha₃ := Compile.settled_types hts (congrArg TypeTable.scopes hadds.types) hr.remembers
      hagrees
    have hinside := hcovers.inside a₂ types
    obtain ⟨ha, hlocals⟩ := Compile.settled_vars Compile.localVariable_names hvs ha₃
      fun x hx => hinside.isSpared (hvars x hx)
    obtain ⟨hb, hnested⟩ := settled_compileProcedures_of (fun p hp {s t u} hok hs hspares =>
      ih p hp hok hs hinside hspares) hn ha hprocedures
    obtain ⟨b₁, hbody, rfl⟩ := Compile.closeProcedure_ok hc
    obtain ⟨e, -, rfl⟩ := Compile.statements_ok hbody
    refine ⟨⟨?_, ?_⟩, ?_⟩
    · exact hb.remembers.tail
    · rw [hgains.env]
      exact hs.agrees.bind (hcovers.isSpared hname) _
    · have hopened : (do Compile.bindParameters 0 sig.parameters; Compile.constants constants :
          Compile Unit) (r.bind name (.procedure sig)).opened = .ok ((), a₂) :=
        bind_eq_ok.mpr ⟨(), a₁, hps, hcs⟩
      rw [Procedure.uses, Session.usesAfter_ok hsig, Session.usesAfter_ok hopened,
        Session.usesAfter_ok hts, Session.usesAfter_ok hvs]
      exact List.forall_mem_append.mpr ⟨huses, List.forall_mem_append.mpr ⟨hlocals, hnested⟩⟩

/-- In a module that compiles, and in which no name in a dimension is declared again where the type
is visible, every use of a type is resolved to the one type that it denotes: to its definition, read
with the names that are visible where it is declared. -/
theorem Module.uses_denote {m : Module} {platform : Platform} {p : Program}
    (h : m.compile platform = .ok p) (hm : m.SparesDimensions) :
    ∀ use ∈ m.uses, use.IsFaithful := by
  obtain ⟨a, b, c, d, e, entry, ha, hb, hc, hd, -, -⟩ := Module.compile_ok h
  have hadds := Compile.adds_constants ha
  have hb' := Compile.settled_types hb (congrArg TypeTable.scopes hadds.types) .nil
    (List.forall_mem_nil _)
  have hnone : Covers [] [] := List.forall_mem_nil _
  have hcovers := hnone.inside a m.declarations.types
  obtain ⟨hc', hvars⟩ := Compile.settled_vars Compile.globalVariable_names hc hb'
    fun x hx => hcovers.isSpared (hm.1 x hx)
  obtain ⟨-, hprocedures⟩ := settled_compileProcedures_of (fun p _ {s t u} hok hs hspares =>
    Procedure.settled_compile hok hs hcovers hspares) hd hc' hm.2
  rw [Module.uses, Session.usesAfter_ok ha, Session.usesAfter_ok hb, Session.usesAfter_ok hc]
  exact List.forall_mem_append.mpr ⟨hvars, hprocedures⟩

/-- A module with an array type whose length is a constant, used in the module and in a procedure
that has a variable and a type of its own. -/
def Module.measured : Module where
  name := "M"
  declarations :=
    { constants := [("n", .literal (.integer 2))]
      types := [("T", .array [.designator "n" []] .integer)]
      vars := [(["x"], .named "T")]
      procedures :=
        [.mk "P" [⟨false, ["a"], .named "T"⟩] none
          { types := [("U", .array [.designator "n" []] (.named "T"))]
            vars := [(["y"], .named "U")] } []] }

theorem Module.uses_denote_measured : (Module.measured.compile .native).isOk
    ∧ Module.measured.SparesDimensions ∧ ∀ use ∈ Module.measured.uses, use.IsFaithful := by
  have hok : (Module.measured.compile .native).isOk = true := by decide +kernel
  have hspares : Module.measured.SparesDimensions := by
    simp [Module.SparesDimensions, Module.measured, AllSpare, Procedure.Spares, dimensionNames,
      TypeExpr.dimensions, Expr.names]
  refine ⟨hok, hspares, ?_⟩
  obtain ⟨p, hp⟩ := Except.exists_of_isOk hok
  exact Module.uses_denote hp hspares

/-- A module with an array type of length 2, in which a procedure declares the name of the length
again, as 3. Another procedure comes after it. -/
def Module.stretched : Module where
  name := "M"
  declarations :=
    { constants := [("n", .literal (.integer 2))]
      types := [("T", .array [.designator "n" []] .integer)]
      procedures :=
        [.mk "P" [] none
          { constants := [("n", .literal (.integer 3))], vars := [(["x"], .named "T")] }
          [.assign ⟨"x", [[.literal (.integer 2)]]⟩ (.literal (.integer 7))],
        .mk "Q" [] none { vars := [(["x"], .named "T")] }
          [.assign ⟨"x", [[.literal (.integer 2)]]⟩ (.literal (.integer 7))]] }
  body := some [.call "Q" []]

/-- In the second procedure the type denotes an array of two, but it is resolved to one of three, as
in the first. -/
theorem Module.stretched_differs :
    ∃ use ∈ Module.stretched.uses, use.result = .ok (.array 3 .integer)
      ∧ use.type.Denotes use.env use.homes (.array 2 .integer)
      ∧ (Module.stretched.compile .native).isOk := by
  have hfound : Module.stretched.uses.any (fun use =>
      use.result.toOption = some (.array 3 .integer)
        ∧ use.type.denote 3 use.env use.homes = some (.array 2 .integer)) = true := by
    decide +kernel
  obtain ⟨use, hmem, huse⟩ := List.any_eq_true.mp hfound
  obtain ⟨hresult, hdenote⟩ := of_decide_eq_true huse
  refine ⟨use, hmem, ?_, TypeExpr.denotes_of_denote hdenote, by decide +kernel⟩
  cases hr : use.result with
  | error e =>
    rw [hr] at hresult
    exact nomatch hresult
  | ok ty =>
    rw [hr] at hresult
    exact congrArg Except.ok (Option.some.inj hresult)

end Oberon
