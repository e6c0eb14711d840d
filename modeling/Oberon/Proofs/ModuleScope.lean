import Oberon.Proofs.StaticValues

/-!
# Names in the body of a module

The compiler resolves the types of variables one after the other, and remembers what it found. The
meaning of a module reads the definitions of names for each of them (`typeNamed`). Both find the
type that the expression denotes, and so names mean in the generated code what they mean in the
module (`Module.scope_eq`).
-/

namespace Oberon

open Code

/-! ## Types -/

section

variable {env : Environment} {homes : List Home} {type : TypeExpr} {ty : Ty} {n : Nat}

/-- What a type expression `Denotes` is found by `denote` in some number of steps. -/
theorem TypeExpr.Denotes.exists_denote (h : type.Denotes env homes ty) :
    ∃ n, type.denote n env homes = some ty := by
  induction h with
  | integer => exact ⟨1, rfl⟩
  | real => exact ⟨1, rfl⟩
  | boolean => exact ⟨1, rfl⟩
  | string => exact ⟨1, rfl⟩
  | named hfind _ ih =>
    obtain ⟨n, hn⟩ := ih
    exact ⟨n + 1, by simp only [TypeExpr.denote, hfind, Option.bind_some, hn]⟩
  | array _ ih =>
    obtain ⟨n, hn⟩ := ih
    exact ⟨n + 1, by simp only [TypeExpr.denote, hn, Option.map_some]⟩

/-- What `denote` finds it also finds in more steps. -/
theorem TypeExpr.denote_succ (h : type.denote n env homes = some ty) :
    type.denote (n + 1) env homes = some ty := by
  induction n generalizing env homes type ty with
  | zero => exact nomatch h
  | succ n ih =>
    cases type with
    | integer => exact h
    | real => exact h
    | boolean => exact h
    | string => exact h
    | named name =>
      obtain ⟨⟨definition, home, outer⟩, hfind, hdef⟩ := Option.bind_eq_some_iff.mp h
      exact Option.bind_eq_some_iff.mpr ⟨_, hfind, ih hdef⟩
    | array dimensions element =>
      obtain ⟨inner, helement, rfl⟩ := Option.map_eq_some_iff.mp h
      exact Option.map_eq_some_iff.mpr ⟨inner, ih helement, rfl⟩

/-- What `denote` does not find in more steps it does not find in fewer. -/
theorem TypeExpr.denote_eq_none (h : type.denote (n + 1) env homes = none) :
    type.denote n env homes = none := by
  cases hn : type.denote n env homes with
  | none => rfl
  | some ty => exact nomatch h.symm.trans (denote_succ hn)

/-- An expression that `Denotes` a type does so in a least number of steps. -/
theorem TypeExpr.Denotes.exists_least (h : type.Denotes env homes ty) :
    ∃ n, type.denote n env homes = none ∧ type.denote (n + 1) env homes = some ty := by
  obtain ⟨n, hn⟩ := h.exists_denote
  induction n with
  | zero => exact nomatch hn
  | succ n ih =>
    cases hless : type.denote n env homes with
    | none => exact ⟨n, hless, hn⟩
    | some ty' =>
      obtain rfl := Option.some.inj ((denote_succ hless).symm.trans hn)
      exact ih hless

/-- `Denotes` depends on the environment by the lengths of dimensions only. -/
theorem TypeExpr.Denotes.congr {env' : Environment} (h : type.Denotes env homes ty)
    (hd : ∀ e : Expr, e.dimension env = e.dimension env') : type.Denotes env' homes ty := by
  induction type generalizing ty with
  | integer => cases h; exact .integer
  | real => cases h; exact .real
  | boolean => cases h; exact .boolean
  | string => cases h; exact .string
  | named name =>
    cases h with
    | named hfind hdef => exact .named hfind hdef
  | array dimensions element ih =>
    cases h with
    | array helement =>
      rw [List.map_congr_left fun e _ => hd e]
      exact .array (ih helement)

/-- With one home, `findType` looks into what it declares. -/
theorem findType_singleton {name : String} {home found : Home} {outer : List Home}
    {definition : TypeExpr} (h : findType name [home] = some (definition, found, outer)) :
    home.declared.lookup name = some definition ∧ found = home ∧ outer = [] := by
  simp only [findType] at h
  split at h
  · rename_i hlookup
    obtain ⟨rfl, rfl, rfl⟩ := by simpa using h
    exact ⟨hlookup, rfl, rfl⟩
  · cases h

/-- Different names that are declared are no more than the declared ones. -/
theorem length_le_of_declared {declared : List (String × TypeExpr)} {names : List String}
    (hnodup : names.Nodup) (h : names ⊆ declared.map Prod.fst) :
    names.length ≤ declared.length := by
  simpa only [List.length_map] using hnodup.length_le_of_subset h

/-- What `denote` finds is found by reading definitions, `rounds` deep. No definition comes back to
one of the `pending` names, which are being read: it would take more steps than the least number. -/
theorem meaning_of_denote {home : Home} {length : Expr → Nat}
    (hlength : ∀ e : Expr, length e = e.dimension home.env) {rounds : Nat} {pending : List String}
    (hleast : type.denote n home.env [home] = none)
    (h : type.denote (n + 1) home.env [home] = some ty)
    (hpending : ∀ name ∈ pending, name ∈ home.declared.map Prod.fst
      ∧ (TypeExpr.named name).denote (n + 1) home.env [home] = none)
    (hnodup : pending.Nodup) (hrounds : rounds + pending.length = home.declared.length) :
    type.meaning length (typeNamed length home.declared rounds) = some ty := by
  induction n generalizing type ty pending rounds with
  | zero =>
    cases type with
    | integer => exact h
    | real => exact h
    | boolean => exact h
    | string => exact h
    | named name =>
      obtain ⟨_, -, hdef⟩ := Option.bind_eq_some_iff.mp h
      exact nomatch hdef
    | array dimensions element =>
      obtain ⟨_, helement, -⟩ := Option.map_eq_some_iff.mp h
      exact nomatch helement
  | succ n ih =>
    have hpending' : ∀ name ∈ pending, name ∈ home.declared.map Prod.fst
        ∧ (TypeExpr.named name).denote (n + 1) home.env [home] = none := by
      intro name hname
      exact ⟨(hpending name hname).1, TypeExpr.denote_eq_none (hpending name hname).2⟩
    cases type with
    | integer => exact nomatch hleast
    | real => exact nomatch hleast
    | boolean => exact nomatch hleast
    | string => exact nomatch hleast
    | array dimensions element =>
      obtain ⟨inner, helement, rfl⟩ := Option.map_eq_some_iff.mp h
      have hfound := ih (Option.map_eq_none_iff.mp hleast) helement hpending' hnodup hrounds
      rw [TypeExpr.meaning, hfound, Option.map_some, Ty.arrayOf, List.foldr_map]
      simp only [hlength]
    | named name =>
      obtain ⟨⟨definition, found, outer⟩, hfind, hdef⟩ := Option.bind_eq_some_iff.mp h
      obtain ⟨hlookup, rfl, rfl⟩ := findType_singleton hfind
      have hnew : name ∉ pending := by
        intro hmem
        exact nomatch h.symm.trans (hpending name hmem).2
      have hname : name ∈ found.declared.map Prod.fst :=
        List.mem_map_of_mem (mem_of_lookup hlookup)
      have hleast' : definition.denote n found.env [found] = none := by
        simpa only [TypeExpr.denote, hfind, Option.bind_some] using hleast
      -- there are rounds left, as there cannot be more names than declared ones
      have hlength : (name :: pending).length ≤ found.declared.length :=
        length_le_of_declared (List.nodup_cons.mpr ⟨hnew, hnodup⟩)
          (List.cons_subset.mpr ⟨hname, fun other hother => (hpending other hother).1⟩)
      rw [List.length_cons] at hlength
      obtain ⟨rounds, rfl⟩ : ∃ k, rounds = k + 1 := ⟨rounds - 1, by omega⟩
      rw [TypeExpr.meaning, typeNamed, hlookup]
      refine ih hleast' hdef (List.forall_mem_cons.mpr ⟨⟨hname, hleast⟩, hpending'⟩)
        (List.nodup_cons.mpr ⟨hnew, hnodup⟩) ?_
      rw [List.length_cons]
      omega

/-- `typeNamed` finds the type that an expression denotes. -/
theorem TypeExpr.Denotes.meaning_eq {home : Home} {length : Expr → Nat}
    (h : type.Denotes home.env [home] ty) (hlength : ∀ e : Expr, length e = e.dimension home.env) :
    type.meaning length (typeNamed length home.declared home.declared.length) = some ty := by
  obtain ⟨n, hleast, hn⟩ := h.exists_least
  exact meaning_of_denote hlength hleast hn (List.forall_mem_nil _) List.nodup_nil rfl

end

/-! ## Constants -/

namespace Environment

/-- An environment with one frame at most. -/
def IsFlat (env : Environment) : Prop :=
  env.frames.tail = []

theorem IsFlat.lookup_eq {env : Environment} (h : env.IsFlat) (name : String) :
    env.lookup name = env.innermost.lookup name := by
  obtain ⟨frames⟩ := env
  cases frames with
  | nil => rfl
  | cons frame outer =>
    obtain rfl : outer = [] := h
    simp only [lookup, innermost, List.findSome?_cons, List.findSome?_nil, List.headD_cons]
    cases frame.lookup name <;> rfl

theorem IsFlat.level_eq {env : Environment} (h : env.IsFlat) : env.level = 0 := by
  have hlength : env.frames.tail.length = 0 := congrArg List.length h
  rwa [List.length_tail] at hlength

/-- A name that had no meaning may come to stand for a variable: `constant?` stays. -/
theorem constant?_bind_var {env : Environment} {name : String} (h : env.lookup name = none)
    (cell : Variable) (other : String) :
    (env.bind name (.var cell)).constant? other = env.constant? other := by
  rw [constant?, constant?, lookup_bind]
  by_cases hother : other = name
  · rw [if_pos hother, hother, h]
  · rw [if_neg hother]

end Environment

/-- An environment that `IsFlat`, in which there are these constants and nothing else. -/
structure Environment.HasOnly (env : Environment) (constants : List (String × Datum)) : Prop where
  isFlat : env.IsFlat
  constant : ∀ {name : String} {named : Named}, env.lookup name = some named →
    ∃ value, named = .constant value
  knows : env.Knows constants

namespace Environment.HasOnly

variable {env : Environment} {known : List (String × Datum)} {name : String}

/-- Where the environment `HasOnly` known constants, a name without a meaning is not known. -/
theorem lookup_eq_none (h : env.HasOnly known) (hname : env.lookup name = none) :
    known.lookup name = none := by
  rw [h.knows, constant?, hname]
  rfl

/-- Where the environment `HasOnly` known constants, each one has its known value. -/
theorem lookup_eq_some (h : env.HasOnly known) {value : Constant}
    (hname : env.lookup name = some (.constant value)) : known.lookup name = some value.datum := by
  rw [h.knows, constant?, hname]
  rfl

/-- Binding a constant to its value is `withConstant`, and the environment then `HasOnly` that as
well. -/
theorem bind (h : env.HasOnly known) {e : Expr} {value : Constant} (he : e.fold env = some value)
    (name : String) :
    (env.bind name (.constant value)).HasOnly (withConstant known (name, e)) := by
  refine ⟨h.isFlat, fun {other named} hfound => ?_, fun other => ?_⟩
  · rw [lookup_bind] at hfound
    split at hfound
    · exact ⟨value, (Option.some.inj hfound).symm⟩
    · exact h.constant hfound
  · have hknown : e.known? known = some value.datum := by rw [e.known?_eq h.knows, he]; rfl
    rw [withConstant, hknown, constant?, lookup_bind, List.lookup_cons]
    by_cases hother : other = name
    · rw [if_pos hother, beq_iff_eq.mpr hother]
      rfl
    · rw [if_neg hother, beq_eq_false_iff_ne.mpr hother]
      exact h.knows other

end Environment.HasOnly

/-- After `Compile.constants`, the values of the constants are those that `withConstant` gives
them. -/
theorem Compile.hasOnly_constants {constantSection : List (String × Expr)} {s t : Session}
    {u : Unit} {known : List (String × Datum)} (h : constants constantSection s = .ok (u, t))
    (hs : s.env.HasOnly known) : t.env.HasOnly (constantSection.foldl withConstant known) := by
  induction constantSection generalizing s known with
  | nil =>
    obtain ⟨-, rfl⟩ := pure_eq_ok.mp h
    exact hs
  | cons constant rest ih =>
    simp only [constants, bind_eq_ok, get_eq_ok] at h
    obtain ⟨_, s, ⟨rfl, rfl⟩, h⟩ := h
    cases hvalue : constant.2.fold s.env with
    | none =>
      rw [hvalue] at h
      exact (throw_eq_ok.mp h).elim
    | some value =>
      rw [hvalue] at h
      obtain ⟨_, r, hname, hrest⟩ := bind_eq_ok.mp h
      obtain ⟨-, rfl⟩ := declare_ok hname
      exact ih hrest (hs.bind hvalue constant.1)

/-! ## Variables -/

/-- The globals for `varTypes`, the variables of a module. -/
def Module.globals (m : Module) : List Global :=
  m.varTypes.map fun x => ⟨m.name ++ "." ++ x.1, x.2⟩

/-- Each of `varTypes` has a global. -/
theorem Module.mem_globals (m : Module) {name : String} {ty : Ty}
    (h : m.varTypes.lookup name = some ty) : ⟨m.name ++ "." ++ name, ty⟩ ∈ m.globals :=
  List.mem_map.mpr ⟨_, mem_of_lookup h, rfl⟩

/-- The variable of a module that `globalVariable` makes. -/
def globalCell (unit name : String) (ty : Ty) : Variable :=
  { name, storage := .global (unit ++ "." ++ name), ty, isGlobal := true, level := 0 }

/-- What it means for the names known when variables of the types in `typed` have been declared. -/
structure Session.Adopts (unit : String) (s t : Session) (typed : List (String × Ty)) : Prop where
  globals : t.globals = s.globals ++ typed.map fun x => ⟨unit ++ "." ++ x.1, x.2⟩
  fresh : ∀ x ∈ typed, s.env.lookup x.1 = none
  lookup : ∀ name, t.env.lookup name = match typed.lookup name with
    | some ty => some (.var (globalCell unit name ty))
    | none => s.env.lookup name
  constant? : ∀ name, t.env.constant? name = s.env.constant? name
  isFlat : t.env.IsFlat

namespace Session.Adopts

variable {unit : String} {s t r : Session} {typed others : List (String × Ty)}

theorem refl (unit : String) (hs : s.env.IsFlat) : s.Adopts unit s [] :=
  ⟨(List.append_nil _).symm, List.forall_mem_nil _, fun _ => rfl, fun _ => rfl, hs⟩

/-- `Adopts` composes, with the variables of both parts. -/
theorem trans (h : s.Adopts unit r typed) (h' : r.Adopts unit t others) :
    s.Adopts unit t (typed ++ others) := by
  -- names that come later are none of those before
  have hlater : ∀ x ∈ others, typed.lookup x.1 = none ∧ s.env.lookup x.1 = none := by
    intro x hx
    have hnone := h'.fresh x hx
    rw [h.lookup] at hnone
    cases hfound : typed.lookup x.1 with
    | some ty =>
      rw [hfound] at hnone
      exact nomatch hnone
    | none =>
      rw [hfound] at hnone
      exact ⟨rfl, hnone⟩
  refine ⟨?_, ?_, fun name => ?_, fun name => (h'.constant? name).trans (h.constant? name),
    h'.isFlat⟩
  · rw [h'.globals, h.globals, List.map_append, List.append_assoc]
  · exact List.forall_mem_append.mpr ⟨h.fresh, fun x hx => (hlater x hx).2⟩
  · rw [h'.lookup, List.lookup_append]
    cases hother : others.lookup name with
    | some ty =>
      rw [(hlater _ (mem_of_lookup hother)).1]
      rfl
    | none =>
      rw [Option.or_none]
      exact h.lookup name

end Session.Adopts

namespace Compile

variable {unit : String} {s t : Session} {u : Unit}

/-- `globalVariable` and `declare` adopt one variable. -/
theorem adopts_variable {name : String} {ty : Ty} {cell : Variable} {r : Session}
    (h : globalVariable unit name ty s = .ok (cell, r))
    (h' : declare name (.var cell) r = .ok (u, t)) (hs : s.env.IsFlat) :
    s.Adopts unit t [(name, ty)] := by
  simp only [globalVariable, bind_eq_ok, modify_eq_ok, get_eq_ok, pure_eq_ok] at h
  obtain ⟨_, _, rfl, _, _, ⟨rfl, rfl⟩, rfl, rfl⟩ := h
  obtain ⟨hnone, rfl⟩ := declare_ok h'
  have hnone : s.env.lookup name = none := (hs.lookup_eq name).trans hnone
  refine ⟨rfl, ?_, fun other => ?_, fun other => Environment.constant?_bind_var hnone _ other, hs⟩
  · exact List.forall_mem_cons.mpr ⟨hnone, List.forall_mem_nil _⟩
  · show (s.env.bind name _).lookup other = _
    rw [Environment.lookup_bind, List.lookup_cons, List.lookup_nil]
    by_cases hother : other = name
    · subst hother
      rw [if_pos rfl, beq_self_eq_true]
      show some (Named.var _) = some (Named.var _)
      rw [globalCell, ← hs.level_eq]
    · rw [if_neg hother, beq_eq_false_iff_ne.mpr hother]

/-- `varsOf` adopts its variables, all of one type. -/
theorem adopts_varsOf {ty : Ty} {names : List String}
    (h : varsOf (globalVariable unit) ty names s = .ok (u, t)) (hs : s.env.IsFlat) :
    s.Adopts unit t (names.map (·, ty)) := by
  induction names generalizing s with
  | nil =>
    obtain ⟨-, rfl⟩ := pure_eq_ok.mp h
    exact .refl unit hs
  | cons name rest ih =>
    simp only [varsOf, bind_eq_ok] at h
    obtain ⟨cell, r, hcell, _, r', hname, hrest⟩ := h
    have hfirst := adopts_variable hcell hname hs
    exact hfirst.trans (ih hrest hfirst.isFlat)

/-- `vars` adopts its variables with the types that their declarations have when resolved afresh. -/
theorem adopts_vars {home : Home} {varSection : List (List String × TypeExpr)}
    (h : vars (globalVariable unit) varSection s = .ok (u, t)) (hs : s.env.IsFlat)
    (hsettled : s.Settled [home])
    (hconstants : ∀ name, s.env.constant? name = home.env.constant? name)
    {typeOf : TypeExpr → Ty}
    (htypeOf : ∀ {type ty}, type.Denotes home.env [home] ty → typeOf type = ty) :
    s.Adopts unit t (varSection.flatMap fun (names, type) =>
      names.map fun name => (name, typeOf type)) := by
  induction varSection generalizing s with
  | nil =>
    obtain ⟨-, rfl⟩ := pure_eq_ok.mp h
    exact .refl unit hs
  | cons declaration rest ih =>
    obtain ⟨names, type⟩ := declaration
    simp only [vars, bind_eq_ok] at h
    obtain ⟨ty, r, hty, _, r', hnames, hrest⟩ := h
    obtain ⟨hr, ty', hresult, hdenotes⟩ := hsettled.resolve hty
    obtain ⟨hfound, -, rfl⟩ := resolve_ok hty
    obtain rfl := Except.ok.inj (hfound.symm.trans hresult)
    have hdimension (e : Expr) : e.dimension s.env = e.dimension home.env :=
      Expr.dimension_congr fun name _ => hconstants name
    -- the constants in scope are those of the module, so the dimensions are read alike
    obtain rfl := htypeOf (((hdenotes _).mpr rfl).congr hdimension)
    have hfirst := adopts_varsOf hnames hs
    have hafter (name : String) : r'.env.constant? name = home.env.constant? name :=
      (hfirst.constant? name).trans (hconstants name)
    refine Session.Adopts.trans (r := r') ?_ (ih hrest hfirst.isFlat ⟨?_, ?_⟩ hafter)
    · exact ⟨hfirst.globals, hfirst.fresh, hfirst.lookup, hfirst.constant?, hfirst.isFlat⟩
    · rw [(adds_varsOf globalVariable_names hnames).types]
      exact hr.remembers
    -- variables hide no constant that a dimension uses
    · intro home' hhome x hx e he
      obtain rfl := List.mem_singleton.mp hhome
      exact Expr.dimension_congr fun name _ => hafter name

end Compile

namespace Module

/-- When the variables of a module have been declared, the constants are `Module.constants` and the
variables are `varTypes`. -/
theorem adopts_varTypes {m : Module} {a b c : Session}
    (ha : Compile.constants m.declarations.constants .begun = .ok ((), a))
    (hb : Compile.types m.declarations.types a = .ok ((), b))
    (hc : Compile.vars (Compile.globalVariable m.name) m.declarations.vars b = .ok ((), c)) :
    b.env.HasOnly m.constants ∧ b.Adopts m.name c m.varTypes := by
  have hconstants : a.env.HasOnly m.constants :=
    Compile.hasOnly_constants ha ⟨rfl, fun hfound => (nomatch hfound), fun _ => rfl⟩
  have hatypes : a.types = .push {} := (Compile.adds_constants ha).types
  have hbenv : b.env = a.env := by
    rw [Compile.modify_eq_ok.mp hb]
  have hsettled := Compile.settled_types hb (congrArg TypeTable.scopes hatypes) .nil
    (List.forall_mem_nil _)
  rw [← hbenv] at hconstants
  refine ⟨hconstants, Compile.adopts_vars hc hconstants.isFlat hsettled ?_ ?_⟩
  · intro name
    rw [hbenv]
    rfl
  · intro type ty hdenotes
    have hlength (e : Expr) : e.length m.constants = e.dimension a.env :=
      hbenv ▸ e.length_eq hconstants.knows
    have hmeaning := hdenotes.meaning_eq hlength
    exact congrArg (·.getD .void) hmeaning

variable {m : Module} {b c : Session}

/-- The only globals of a module are its variables, `Module.globals`. -/
theorem globals_of_adopts {a : Session} (h : b.Adopts m.name c m.varTypes)
    (ha : Compile.constants m.declarations.constants .begun = .ok ((), a))
    (hb : Compile.types m.declarations.types a = .ok ((), b)) : c.globals = m.globals := by
  have hbefore : b.globals = [] :=
    (Session.keeps_of_declares <| (Compile.traces_constants .names _ ha).trans
      (Compile.traces_types .names _ hb)).globals
  rw [h.globals, hbefore, List.nil_append]
  rfl

/-- A name is bound to a variable of `varTypes`, or to what it was bound to before. -/
theorem lookup_varTypes (hb : b.env.HasOnly m.constants) (h : b.Adopts m.name c m.varTypes)
    (name : String) :
    (∃ ty, m.varTypes.lookup name = some ty ∧ m.constants.lookup name = none
        ∧ c.env.lookup name = some (.var (globalCell m.name name ty)))
      ∨ (m.varTypes.lookup name = none ∧ c.env.lookup name = b.env.lookup name) := by
  have hlookup := h.lookup name
  cases hfound : m.varTypes.lookup name with
  | some ty =>
    rw [hfound] at hlookup
    exact .inl ⟨ty, rfl, hb.lookup_eq_none (h.fresh _ (mem_of_lookup hfound)), hlookup⟩
  | none =>
    rw [hfound] at hlookup
    exact .inr ⟨rfl, hlookup⟩

/-- What `findVariable` finds for the body of a module is a `globalCell`. -/
theorem findVariable_eq_ok (hb : b.env.HasOnly m.constants) (h : b.Adopts m.name c m.varTypes)
    {name : String} {cell : Variable} :
    Emit.findVariable c.env name = .ok cell ↔
      ∃ ty, m.varTypes.lookup name = some ty ∧ cell = globalCell m.name name ty := by
  rcases lookup_varTypes hb h name with ⟨ty, hfound, -, hlookup⟩ | ⟨hnone, hlookup⟩
  · have hcell : Emit.findVariable c.env name = .ok (globalCell m.name name ty) := by
      simp only [Emit.findVariable, hlookup]
      rfl
    rw [hcell, hfound]
    simp [eq_comm]
  · rw [hnone]
    refine ⟨fun hcell => ?_, fun ⟨_, h, _⟩ => (nomatch h)⟩
    have hvar := (hlookup.symm.trans (Emit.lookup_of_findVariable hcell))
    obtain ⟨value, hvalue⟩ := hb.constant hvar
    exact nomatch hvalue

/-- `Environment.scope` of the body of a module is `Module.scope`. -/
theorem scope_eq (hb : b.env.HasOnly m.constants) (h : b.Adopts m.name c m.varTypes) :
    c.env.scope = m.scope := by
  funext name
  rcases lookup_varTypes hb h name with ⟨ty, hfound, hfresh, -⟩ | ⟨hnone, hlookup⟩
  · rw [Environment.scope_variable ((findVariable_eq_ok hb h).mpr ⟨ty, hfound, rfl⟩)]
    simp only [scope, hfresh, hfound]
    rfl
  · cases hconstant : b.env.lookup name with
    | none =>
      rw [hconstant] at hlookup
      simp only [scope, hb.lookup_eq_none hconstant, hnone, Environment.scope, hlookup,
        Emit.findVariable, Option.map_none]
    | some named =>
      obtain ⟨value, rfl⟩ := hb.constant hconstant
      rw [Environment.scope_constant (hlookup.trans hconstant)]
      simp only [scope, hb.lookup_eq_some hconstant]

/-- When only the variables of a module have been declared, the environment `IsPlain`: there are no
procedures. -/
theorem isPlain_env (hb : b.env.HasOnly m.constants) (h : b.Adopts m.name c m.varTypes) :
    c.env.IsPlain := by
  intro name signature hprocedure
  rcases lookup_varTypes hb h name with ⟨ty, -, -, hlookup⟩ | ⟨-, hlookup⟩
  · exact nomatch hprocedure.symm.trans hlookup
  · obtain ⟨value, hvalue⟩ := hb.constant (hlookup.symm.trans hprocedure)
    exact nomatch hvalue

end Module

end Oberon
