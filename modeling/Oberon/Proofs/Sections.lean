import Oberon.Proofs.Traces

/-!
# Declaration sections

What compiling declarations changes. Inside of a section names are bound in the innermost frame
and types declared in the innermost scope; what surrounds the section stays, but for the types
that outer scopes remember. A procedure leaves nothing behind in its section but its own name.
-/

namespace Oberon

open Code Relation

/-! ## Successful compilations -/

namespace Session

/-- The emission of a session. -/
def emission (s : Session) : Emission :=
  ⟨s.stock, s.draft⟩

/-- The session after code was emitted. -/
def withEmission (s : Session) (e : Emission) : Session :=
  { s with stock := e.stock, draft := e.draft }

/-- The session with a name bound in the innermost frame. -/
def bind (s : Session) (name : String) (named : Named) : Session :=
  { s with env := s.env.bind name named }

/-- The session with another table of types. -/
def withTypes (s : Session) (types : TypeTable) : Session :=
  { s with types }

end Session

namespace Compile

variable {α : Type} {s t : Session}

/-- `emit` runs its action on the emission of the session, and puts the new one in its place. -/
theorem emit_eq_ok {x : Emit α} {a : α} :
    emit x s = .ok (a, t) ↔ ∃ e, x s.emission = .ok (a, e) ∧ t = s.withEmission e := by
  have hemission : x s.emission = x { stock := s.stock, draft := s.draft } := rfl
  rw [emit, hemission]
  cases x { stock := s.stock, draft := s.draft } with
  | error e => simp
  | ok r =>
    obtain ⟨b, e⟩ := r
    simp only [Except.ok.injEq, Prod.mk.injEq]
    constructor
    · rintro ⟨rfl, rfl⟩
      exact ⟨e, ⟨rfl, rfl⟩, rfl⟩
    · rintro ⟨_, ⟨rfl, rfl⟩, rfl⟩
      exact ⟨rfl, rfl⟩

/-- `throw` never succeeds. -/
theorem throw_eq_ok {e : CompileError} {r : α × Session} :
    (throw e : Compile α) s = .ok r ↔ False :=
  ⟨fun h => (nomatch h), False.elim⟩

theorem get_eq_ok {a : Session} : (get : Compile Session) s = .ok (a, t) ↔ a = s ∧ t = s := by
  show Except.ok (s, s) = .ok (a, t) ↔ _
  simp only [Except.ok.injEq, Prod.mk.injEq, eq_comm]

theorem set_eq_ok {a : Session} {u : Unit} : (set a : Compile Unit) s = .ok (u, t) ↔ t = a := by
  show Except.ok ((), a) = .ok (u, t) ↔ _
  simp [eq_comm]

/-- `modify` always succeeds, with the changed session. -/
theorem modify_eq_ok {f : Session → Session} {u : Unit} :
    (modify f : Compile Unit) s = .ok (u, t) ↔ t = f s := by
  show Except.ok ((), f s) = .ok (u, t) ↔ _
  simp [eq_comm]

/-- A lifted `Except` leaves the session as it is. -/
theorem lift_eq_ok {x : Except CompileError α} {a : α} :
    (liftM x : Compile α) s = .ok (a, t) ↔ x = .ok a ∧ t = s := by
  cases x with
  | error e => exact ⟨fun h => (nomatch h), fun h => (nomatch h.1)⟩
  | ok b =>
    show Except.ok (b, s) = .ok (a, t) ↔ _
    simp only [Except.ok.injEq, Prod.mk.injEq, eq_comm]

/-- `within` changes errors only. -/
theorem within_eq_ok {unit : String} {x : Compile α} {r : α × Session} :
    within unit x s = .ok r ↔ x s = .ok r := by
  unfold within
  cases x s <;> simp

/-- `declare` takes a name that is free in the innermost frame, and binds it. -/
theorem declare_ok {name : String} {named : Named} {u : Unit}
    (h : declare name named s = .ok (u, t)) :
    s.env.innermost.lookup name = none ∧ t = s.bind name named := by
  simp only [declare, bind_eq_ok, get_eq_ok, lift_eq_ok, set_eq_ok] at h
  obtain ⟨_, _, ⟨rfl, rfl⟩, env, _, ⟨henv, rfl⟩, rfl⟩ := h
  unfold Environment.declare at henv
  split at henv
  · exact nomatch henv
  · rename_i hnone
    obtain rfl := Except.ok.inj henv
    exact ⟨hnone, rfl⟩

/-- `declareProcedure` takes a name that is free, or that another procedure has. -/
theorem declareProcedure_ok {name : String} {signature : Signature} {u : Unit}
    (h : declareProcedure name signature s = .ok (u, t)) :
    (∀ cell, s.env.innermost.lookup name ≠ some (.var cell))
      ∧ t = s.bind name (.procedure signature) := by
  simp only [declareProcedure, bind_eq_ok, get_eq_ok, lift_eq_ok, set_eq_ok] at h
  obtain ⟨_, _, ⟨rfl, rfl⟩, env, _, ⟨henv, rfl⟩, rfl⟩ := h
  unfold Environment.declareProcedure at henv
  split at henv
  · cases henv
  · cases henv
  · rename_i hvar _
    obtain rfl := Except.ok.inj henv
    exact ⟨fun cell hcell => hvar cell hcell, rfl⟩

/-- A type that `resolve` accepts has a size; the table may remember more than before. -/
theorem resolve_ok {type : TypeExpr} {ty : Ty} (h : resolve type s = .ok (ty, t)) :
    (s.types.resolve (Expr.dimension s.env) type).result = .ok ty ∧ ty.size?.isSome
      ∧ t = s.withTypes (s.types.resolve (Expr.dimension s.env) type).table := by
  simp only [resolve, bind_eq_ok, get_eq_ok, set_eq_ok] at h
  obtain ⟨_, r, ⟨rfl, rfl⟩, _, _, rfl, h⟩ := h
  cases hfound : (r.types.resolve (Expr.dimension r.env) type).result with
  | error e =>
    rw [hfound] at h
    exact (throw_eq_ok.mp h).elim
  | ok found =>
    simp only [hfound] at h
    by_cases hsize : found.size?.isSome
    · rw [if_pos hsize] at h
      obtain ⟨rfl, rfl⟩ := pure_eq_ok.mp h
      exact ⟨rfl, hsize, rfl⟩
    · rw [if_neg hsize] at h
      exact (throw_eq_ok.mp h).elim

/-! ## Steps inside of a section -/

end Compile

/-- A step by which names get a meaning in a section. -/
inductive Session.Names : Session → Session → Prop
  /-- A constant or a variable gets a name; procedures are bound when they are opened. -/
  | name (s : Session) (name : String) {named : Named} (h : ∀ sig, named ≠ .procedure sig) :
    Names s (s.bind name named)
  /-- Resolving types may make scopes remember more, and declares nothing. -/
  | resolve (s : Session) {types : TypeTable}
    (h : types.scopes.map (·.declared) = s.types.scopes.map (·.declared)) :
    Names s (s.withTypes types)
  | type (s : Session) (name : String) (definition : TypeExpr) :
    Names s { s with types := s.types.declare name definition }

/-- A step of compiling declarations that stays inside of the section of a procedure: it gives
`Names`, or emits code. -/
inductive Session.Declares : Session → Session → Prop
  | names {s t : Session} (h : s.Names t) : Declares s t
  | emit (s : Session) {e : Emission} (h : ReflTransGen Emission.Changes s.emission e) :
    Declares s (s.withEmission e)

/-- A step of compiling the declarations of a module, its procedures apart. -/
inductive Session.Collects : Session → Session → Prop
  | names {s t : Session} (h : s.Names t) : Collects s t
  | global (s : Session) (g : Global) : Collects s { s with globals := s.globals ++ [g] }

section

variable {dimension : Expr → Nat} {scopes : List TypeScope} {resolving : List (Nat × String)}

/-- `TypeExpr.resolve` leaves the scopes as they are or as one of the names of the type does. -/
theorem TypeExpr.scopes_resolve {named : String → Resolution} {P : List TypeScope → Prop}
    (hs : P scopes) (hn : ∀ name, P (named name).scopes) (type : TypeExpr) :
    P (type.resolve dimension named scopes resolving).scopes := by
  induction type with
  | integer => exact hs
  | real => exact hs
  | boolean => exact hs
  | string => exact hs
  | named name => exact hn name
  | array dimensions element ih => exact ih

theorem Resolution.declared_remember (name : String) (r : Resolution) :
    (r.remember name).scopes.map (·.declared) = r.scopes.map (·.declared) := by
  unfold Resolution.remember
  split
  · rename_i hscopes
    simp [hscopes, TypeScope.remember]
  · rfl

/-- `resolveName` declares nothing, at any depth. -/
theorem declared_resolveName (rounds : Nat) (resolving : List (Nat × String))
    (scopes : List TypeScope) (name : String) :
    (resolveName dimension rounds resolving scopes name).scopes.map (·.declared)
      = scopes.map (·.declared) := by
  induction rounds generalizing resolving scopes name with
  | zero => rfl
  | succ rounds ih =>
    rw [resolveName]
    split
    · rfl
    · rename_i scope outer hvisible
      split
      · rfl
      · rfl
      · rename_i definition _ _
        dsimp only
        split
        · rfl
        · have hvis : ∀ key reading, (((definition.resolve dimension
              (resolveName dimension rounds reading (scope :: outer)) (scope :: outer)
              reading).release key).remember name).scopes.map (·.declared)
                = (scope :: outer).map (·.declared) := by
            intro key reading
            rw [Resolution.declared_remember]
            exact TypeExpr.scopes_resolve
              (P := fun scopes => scopes.map (·.declared) = (scope :: outer).map (·.declared)) rfl
              (fun name => ih reading (scope :: outer) name) definition
          rw [Resolution.behind, List.map_append, hvis, ← hvisible, ← List.map_append,
            List.prefix_iff_eq_append.mp (List.takeWhile_prefix _)]

/-- `TypeTable.resolve` declares nothing: it may only make scopes remember what they resolved. -/
theorem TypeTable.declared_resolve (t : TypeTable) (type : TypeExpr) :
    (t.resolve dimension type).scopes.map (·.declared) = t.scopes.map (·.declared) :=
  TypeExpr.scopes_resolve
    (P := fun scopes => scopes.map (·.declared) = t.scopes.map (·.declared)) rfl
    (fun name => declared_resolveName _ _ _ name) type

end

namespace Compile

variable {α : Type}

/-- Code that `Changes` the emission makes the session take a step of `Declares`. -/
theorem traces_emit {x : Emit α} (h : Traces Emission.Changes x) :
    Traces Session.Declares (emit x) := by
  intro s a t hok
  obtain ⟨e, he, rfl⟩ := emit_eq_ok.mp hok
  exact .single (.emit s (h he))

theorem traces_throw {R : Session → Session → Prop} (e : CompileError) :
    Traces R (throw e : Compile α) :=
  fun _ _ _ hok => (throw_eq_ok.mp hok).elim

theorem traces_get {R : Session → Session → Prop} : Traces R (get : Compile Session) := by
  intro s a t hok
  obtain ⟨_, rfl⟩ := get_eq_ok.mp hok
  exact .refl

section

variable {R : Session → Session → Prop} (hR : ∀ {s t : Session}, s.Names t → R s t)
include hR

/-- `declare` is one step of `Names`, for all but procedures. -/
theorem traces_declare (name : String) {named : Named} (h : ∀ sig, named ≠ .procedure sig) :
    Traces R (declare name named) := by
  intro s u t hok
  obtain ⟨_, rfl⟩ := declare_ok hok
  exact .single (hR (.name s name h))

/-- `resolve` is one step of `Names`, which changes no more than what scopes remember. -/
theorem traces_resolve (type : TypeExpr) : Traces R (resolve type) := by
  intro s ty t hok
  obtain ⟨_, _, rfl⟩ := resolve_ok hok
  exact .single (hR (.resolve s (s.types.declared_resolve type)))

theorem traces_constants (constants : List (String × Expr)) :
    Traces R (Compile.constants constants) := by
  induction constants with
  | nil => exact .pure _
  | cons c rest ih =>
    refine .bind traces_get fun s => ?_
    split
    · exact traces_throw _
    · exact .bind (traces_declare hR _ nofun) fun _ => ih

/-- `types` takes one step of `Names` for each type of the section. -/
theorem traces_types (declarations : List (String × TypeExpr)) :
    Traces R (types declarations) := by
  intro s u t hok
  obtain rfl := modify_eq_ok.mp hok
  clear hok
  induction declarations generalizing s with
  | nil => exact .refl
  | cons d rest ih => exact .head (hR (.type s d.1 d.2)) (@ih _)

theorem traces_varsOf {make : String → Ty → Compile Variable}
    (h : ∀ name ty, Traces R (make name ty)) (ty : Ty) (names : List String) :
    Traces R (varsOf make ty names) := by
  induction names with
  | nil => exact .pure _
  | cons name rest ih =>
    exact .bind (h name ty) fun _ => .bind (traces_declare hR _ nofun) fun _ => ih

/-- `vars` resolves a type and names its variables, in steps of `R` if `make` takes such. -/
theorem traces_vars {make : String → Ty → Compile Variable}
    (h : ∀ name ty, Traces R (make name ty)) (declarations : List (List String × TypeExpr)) :
    Traces R (vars make declarations) := by
  induction declarations with
  | nil => exact .pure _
  | cons d rest ih =>
    exact .bind (traces_resolve hR _) fun _ => .bind (traces_varsOf hR h _ _) fun _ => ih

end

/-- `localVariable` emits a cell, which stays inside of the section. -/
theorem traces_localVariable (name : String) (ty : Ty) :
    Traces Session.Declares (localVariable name ty) :=
  .bind (traces_emit (Emit.traces_cell ty)) fun _ => .bind traces_get fun _ => .pure _

/-- `globalVariable` makes a global, which only the section of a module does. -/
theorem traces_globalVariable (moduleName name : String) (ty : Ty) :
    Traces Session.Collects (globalVariable moduleName name ty) := by
  refine .bind (fun s u t hok => ?_) fun _ => .bind traces_get fun _ => .pure _
  obtain rfl := modify_eq_ok.mp hok
  exact .single (.global s _)

theorem traces_storage (index : Nat) (parameter : Parameter) :
    Traces Emission.Changes (storage index parameter) :=
  .ite (.pure _) (.bind (Emit.traces_cell _) fun _ =>
    .bind (Emit.traces_push rfl).changes fun _ => .pure _)

/-- `bindParameters` emits storage and names it, both inside of the section. -/
theorem traces_bindParameters (index : Nat) (parameters : List Parameter) :
    Traces Session.Declares (bindParameters index parameters) := by
  induction parameters generalizing index with
  | nil => exact .pure _
  | cons parameter rest ih =>
    exact .bind (traces_emit (traces_storage _ _)) fun _ => .bind traces_get fun _ =>
      .bind (traces_declare .names _ nofun) fun _ => ih _

/-- `statements` emits code into the body and declares nothing. -/
theorem traces_statements (result : Ty) (body : List Statement) :
    Traces Session.Declares (statements result body) :=
  .bind traces_get fun _ => traces_emit (traces_emitStatements _ _ _)

end Compile

/-! ## What stays outside of a section -/

/-- Two states of a compilation between which only the innermost section has changed: other `frames`
and scopes are the same. -/
structure Session.Keeps (s t : Session) : Prop where
  globals : t.globals = s.globals
  frames : t.env.frames.tail = s.env.frames.tail
  scopes : t.types.scopes.tail.map (·.declared) = s.types.scopes.tail.map (·.declared)
  stock : s.stock.Grows t.stock

namespace Session

variable {s t u : Session}

theorem Keeps.refl (s : Session) : s.Keeps s :=
  ⟨rfl, rfl, rfl, .refl _⟩

/-- `Keeps` composes: what is outside of the section stays all the way. -/
theorem Keeps.trans (h : s.Keeps t) (h' : t.Keeps u) : s.Keeps u :=
  ⟨h'.globals.trans h.globals, h'.frames.trans h.frames, h'.scopes.trans h.scopes,
    h.stock.trans h'.stock⟩

/-- A step of `Names` stays inside of the innermost section. -/
theorem Names.keeps (h : s.Names t) : s.Keeps t := by
  cases h with
  | name name h => exact ⟨rfl, rfl, rfl, .refl _⟩
  | resolve h =>
    refine ⟨rfl, rfl, ?_, .refl _⟩
    rw [List.map_tail, List.map_tail]
    exact congrArg List.tail h
  | type name definition => exact ⟨rfl, rfl, rfl, .refl _⟩

/-- Giving names a meaning by `Names` makes no code. -/
theorem Names.code (h : s.Names t) : t.functions = s.functions ∧ t.emission = s.emission := by
  cases h <;> exact ⟨rfl, rfl⟩

theorem Declares.keeps (h : s.Declares t) : s.Keeps t := by
  cases h with
  | names h => exact h.keeps
  | emit h => exact ⟨rfl, rfl, rfl, (Emission.grows_of_changes h).stock⟩

/-- A step of `Declares` finishes no function. -/
theorem Declares.functions (h : s.Declares t) : t.functions = s.functions := by
  cases h with
  | names h => exact h.code.1
  | emit h => rfl

/-- Code emitted by a step of `Declares` goes into the body of the section. -/
theorem Declares.grows (h : s.Declares t) : s.emission.Grows t.emission := by
  cases h with
  | names h => exact h.code.2 ▸ .refl _
  | emit h => exact Emission.grows_of_changes h

/-- The declarations of a module, steps of `Collects`, make no code. -/
theorem code_of_collects (h : ReflTransGen Collects s t) :
    t.functions = s.functions ∧ t.emission = s.emission := by
  induction h with
  | refl => exact ⟨rfl, rfl⟩
  | tail _ hstep ih =>
    cases hstep with
    | names h => exact ⟨h.code.1.trans ih.1, h.code.2.trans ih.2⟩
    | global g => exact ih

/-- Any run of `Declares` stays inside of the section. -/
theorem keeps_of_declares (h : ReflTransGen Declares s t) : s.Keeps t := by
  induction h with
  | refl => exact .refl s
  | tail _ hstep ih => exact ih.trans hstep.keeps

theorem functions_of_declares (h : ReflTransGen Declares s t) : t.functions = s.functions := by
  induction h with
  | refl => rfl
  | tail _ hstep ih => exact hstep.functions.trans ih

/-- The session at the start of a new body and section, after `startBody` and `enterScope`. -/
def opened (s : Session) : Session :=
  { s with
    stock := { s.stock with labels := s.stock.labels + 1 }
    draft := {}
    env := s.env.push
    types := s.types.push }

/-- The session at the start of a new body, in the same section, after `startBody`. -/
def started (s : Session) : Session :=
  { s with stock := { s.stock with labels := s.stock.labels + 1 }, draft := {} }

/-- The name that `startBody` gives to the first block of the next body. -/
def entryLabel (s : Session) : String :=
  "entry" ++ "." ++ toString s.stock.labels

/-- The session after `finishBody` made the body a function, in the body that it interrupted. -/
def finished (s : Session) (f : Function) (outer : Draft) : Session :=
  { s with functions := Program.insertFunction f s.functions, draft := outer }

/-- The session after `leaveScope` ended a section. -/
def left (s : Session) : Session :=
  { s with env := s.env.pop, types := s.types.pop }

end Session

/-- The function that a draft describes, given its name and signature in `start`. -/
def Draft.function (d : Draft) (start : Builder) : Function :=
  ((start.run d.script).closeAll (.ret (Value.zero? start.result))).finish

namespace Compile

variable {s t : Session}

/-- `statements` is `emitStatements` in the environment of the session, outside of any loop. -/
theorem statements_ok {result : Ty} {body : List Statement} {u : Unit}
    (h : statements result body s = .ok (u, t)) :
    ∃ e, emitStatements { env := s.env, result } none body s.emission = .ok ((), e)
      ∧ t = s.withEmission e := by
  simp only [statements, bind_eq_ok, get_eq_ok, emit_eq_ok] at h
  obtain ⟨_, s, ⟨rfl, rfl⟩, e, he, rfl⟩ := h
  exact ⟨e, he, rfl⟩

/-- `startBody` names the first block by the next label and sets the interrupted draft aside. -/
theorem startBody_ok {entry : String} {outer : Draft}
    (h : startBody s = .ok ((entry, outer), t)) :
    entry = s.entryLabel ∧ outer = s.draft ∧ t = s.started := by
  simp only [startBody, bind_eq_ok, emit_eq_ok, get_eq_ok, set_eq_ok, pure_eq_ok,
    Prod.mk.injEq] at h
  obtain ⟨_, _, ⟨e, he, rfl⟩, _, _, ⟨rfl, rfl⟩, _, _, rfl, ⟨rfl, rfl⟩, rfl⟩ := h
  obtain ⟨rfl, rfl⟩ := Prod.mk.inj (Except.ok.inj he)
  exact ⟨rfl, rfl, rfl⟩

/-- What `openProcedure` does: the signature is resolved outside, the name is bound outside, and the
rest happens inside. -/
theorem openProcedure_ok {name symbol entry : String} {formals : List FormalSection}
    {result : Option TypeExpr} {constantSection : List (String × Expr)}
    {typeSection : List (String × TypeExpr)} {varSection : List (List String × TypeExpr)}
    {sig : Signature} {outer : Draft}
    (h : openProcedure name symbol formals result constantSection typeSection varSection s
      = .ok ((sig, entry, outer), t)) :
    ∃ r a b c, signature symbol formals result s = .ok (sig, r) ∧ outer = r.draft
      ∧ bindParameters 0 sig.parameters (r.bind name (.procedure sig)).opened = .ok ((), a)
      ∧ constants constantSection a = .ok ((), b) ∧ types typeSection b = .ok ((), c)
      ∧ vars localVariable varSection c = .ok ((), t) := by
  simp only [openProcedure, bind_eq_ok, pure_eq_ok, Prod.mk.injEq] at h
  obtain ⟨_, r, hsig, _, r', hname, ⟨_, _⟩, r'', hstart, _, r₃, henter, _, a, ha, _, b, hb, _, c,
    hc, _, d, hd, ⟨rfl, rfl, rfl⟩, rfl⟩ := h
  obtain ⟨-, rfl⟩ := declareProcedure_ok hname
  obtain ⟨-, rfl, rfl⟩ := startBody_ok hstart
  obtain rfl := modify_eq_ok.mp henter
  exact ⟨r, a, b, c, hsig, rfl, ha, hb, hc, hd⟩

/-- The names that `openProcedure` takes: that of the procedure, which no variable of the section
has, and that of its first block. -/
theorem openProcedure_names {name symbol entry : String} {formals : List FormalSection}
    {result : Option TypeExpr} {constantSection : List (String × Expr)}
    {typeSection : List (String × TypeExpr)} {varSection : List (List String × TypeExpr)}
    {sig : Signature} {outer : Draft}
    (h : openProcedure name symbol formals result constantSection typeSection varSection s
      = .ok ((sig, entry, outer), t)) :
    ∃ r, signature symbol formals result s = .ok (sig, r)
      ∧ (∀ cell, r.env.innermost.lookup name ≠ some (.var cell)) ∧ entry = r.entryLabel := by
  simp only [openProcedure, bind_eq_ok, pure_eq_ok, Prod.mk.injEq] at h
  obtain ⟨_, r, hsig, _, r', hname, ⟨_, _⟩, r'', hstart, _, _, -, _, _, -, _, _, -, _, _, -, _, _,
    -, ⟨rfl, rfl, rfl⟩, -⟩ := h
  obtain ⟨hvar, rfl⟩ := declareProcedure_ok hname
  obtain ⟨rfl, -, -⟩ := startBody_ok hstart
  exact ⟨r, hsig, hvar, rfl⟩

/-- What `closeProcedure` does: the body is emitted and becomes a function, and the section ends. -/
theorem closeProcedure_ok {sig : Signature} {entry : String} {outer : Draft}
    {body : List Statement} {u : Unit} (h : closeProcedure sig entry outer body s = .ok (u, t)) :
    ∃ r, statements sig.result body s = .ok ((), r)
      ∧ t = (r.finished (r.draft.function (.start sig.symbol sig.parameterTypes sig.result entry
        (some sig.symbol))) outer).left := by
  simp only [closeProcedure, bind_eq_ok, finishBody, leaveScope, modify_eq_ok] at h
  obtain ⟨_, r, hr, _, _, rfl, rfl⟩ := h
  exact ⟨r, hr, rfl⟩

end Compile

/-- `Procedure.compile` is opening, the procedures inside, and closing. -/
theorem Procedure.compile_ok {unit name : String} {formals : List FormalSection}
    {result : Option TypeExpr} {declarations : Declarations Procedure} {body : List Statement}
    {s t : Session} {u : Unit}
    (h : (Procedure.mk name formals result declarations body).compile unit s = .ok (u, t)) :
    ∃ sig entry outer a b, Compile.openProcedure name (unit ++ "." ++ name) formals result
        declarations.constants declarations.types declarations.vars s
          = .ok ((sig, entry, outer), a)
      ∧ compileProcedures (unit ++ "." ++ name) declarations.procedures a = .ok ((), b)
      ∧ Compile.closeProcedure sig entry outer body b = .ok ((), t) := by
  obtain ⟨constants, types, vars, procedures⟩ := declarations
  rw [Procedure.compile] at h
  simp only [bind_eq_ok, Compile.within_eq_ok] at h
  obtain ⟨⟨sig, entry, outer⟩, a, ha, _, b, hb, hc⟩ := h
  exact ⟨sig, entry, outer, a, b, ha, hb, hc⟩

/-! ## Procedures -/

/-- Two states of a compilation between which types were resolved, as `withTypes` has it, and
nothing else happened. -/
def Session.Resolves (s t : Session) : Prop :=
  ∃ types, types.scopes.map (·.declared) = s.types.scopes.map (·.declared) ∧ t = s.withTypes types

/-- Many steps of `Session.Resolves` are one. -/
theorem Session.resolves_of_steps {s t : Session} (h : ReflTransGen Session.Resolves s t) :
    s.Resolves t := by
  induction h with
  | refl => exact ⟨s.types, rfl, rfl⟩
  | tail _ hstep ih =>
    obtain ⟨types, hscopes, rfl⟩ := ih
    obtain ⟨types', hscopes', rfl⟩ := hstep
    exact ⟨types', hscopes'.trans hscopes, rfl⟩

namespace Compile

theorem resolves_resolve (type : TypeExpr) : Traces Session.Resolves (resolve type) := by
  intro s ty t hok
  obtain ⟨_, _, rfl⟩ := resolve_ok hok
  exact .single ⟨_, s.types.declared_resolve type, rfl⟩

theorem resolves_resultType (result : Option TypeExpr) :
    Traces Session.Resolves (resultType result) := by
  cases result with
  | none => exact .pure _
  | some type => exact .bind (resolves_resolve type) fun _ => .ite (traces_throw _) (.pure _)

theorem resolves_parameters (formals : List FormalSection) :
    Traces Session.Resolves (parameters formals) := by
  induction formals with
  | nil => exact .pure _
  | cons formal rest ih =>
    exact .bind (resolves_resolve _) fun _ => .bind ih fun _ => .pure _

/-- `signature` resolves types and does nothing else, so nothing of the section is named yet. -/
theorem resolves_signature (symbol : String) (formals : List FormalSection)
    (result : Option TypeExpr) : Traces Session.Resolves (signature symbol formals result) :=
  .bind (resolves_resultType result) fun _ => .bind (resolves_parameters formals) fun _ => .pure _

/-- The symbol of a `signature` is the one asked for. -/
theorem signature_symbol {symbol : String} {formals : List FormalSection}
    {result : Option TypeExpr} {s t : Session} {sig : Signature}
    (h : signature symbol formals result s = .ok (sig, t)) : sig.symbol = symbol := by
  simp only [signature, bind_eq_ok, pure_eq_ok] at h
  obtain ⟨_, _, _, _, _, _, rfl, _⟩ := h
  rfl

/-- `openProcedure` finishes no function. -/
theorem openProcedure_functions {name symbol entry : String} {formals : List FormalSection}
    {result : Option TypeExpr} {constantSection : List (String × Expr)}
    {typeSection : List (String × TypeExpr)} {varSection : List (List String × TypeExpr)}
    {sig : Signature} {outer : Draft} {s t : Session}
    (h : openProcedure name symbol formals result constantSection typeSection varSection s
      = .ok ((sig, entry, outer), t)) : t.functions = s.functions := by
  obtain ⟨r, a, b, c, hsig, -, hp, hcs, hts, hvs⟩ := openProcedure_ok h
  obtain ⟨types, -, rfl⟩ :=
    Session.resolves_of_steps (resolves_signature symbol formals result hsig)
  calc t.functions
    _ = c.functions := Session.functions_of_declares (traces_vars .names traces_localVariable _ hvs)
    _ = b.functions := Session.functions_of_declares (traces_types .names _ hts)
    _ = a.functions := Session.functions_of_declares (traces_constants .names _ hcs)
    _ = ((s.withTypes types).bind name (.procedure sig)).opened.functions :=
      Session.functions_of_declares (traces_bindParameters _ _ hp)

end Compile

/-- What `Procedure.compile` leaves behind: the name, bound in the section that declares it. -/
structure Session.Gains (s t : Session) (name : String) (sig : Signature) : Prop where
  env : t.env = s.env.bind name (.procedure sig)
  scopes : t.types.scopes.map (·.declared) = s.types.scopes.map (·.declared)
  globals : t.globals = s.globals
  draft : t.draft = s.draft
  stock : s.stock.Grows t.stock

/-- A section that `Gains` a procedure keeps all that is outside of it. -/
theorem Session.Gains.keeps {s t : Session} {name : String} {sig : Signature}
    (h : s.Gains t name sig) : s.Keeps t := by
  refine ⟨h.globals, by rw [h.env]; rfl, ?_, h.stock⟩
  rw [List.map_tail, List.map_tail, h.scopes]

/-- A procedure that is opened, has its inner ones compiled and is closed leaves what
`Session.Gains` says. -/
theorem Session.gains_of_parts {name symbol entry : String} {formals : List FormalSection}
    {result : Option TypeExpr} {constantSection : List (String × Expr)}
    {typeSection : List (String × TypeExpr)} {varSection : List (List String × TypeExpr)}
    {sig : Signature} {outer : Draft} {body : List Statement} {s a b t : Session} {u : Unit}
    (ho : Compile.openProcedure name symbol formals result constantSection typeSection varSection s
      = .ok ((sig, entry, outer), a))
    (hn : a.Keeps b) (hc : Compile.closeProcedure sig entry outer body b = .ok (u, t)) :
    s.Gains t name sig := by
  obtain ⟨r, a₁, a₂, a₃, hsig, rfl, hp, hcs, hts, hvs⟩ := Compile.openProcedure_ok ho
  obtain ⟨b₁, hb, rfl⟩ := Compile.closeProcedure_ok hc
  obtain ⟨types, hscopes, rfl⟩ :=
    resolves_of_steps (Compile.resolves_signature symbol formals result hsig)
  -- all that happens from the opening on stays inside of the section
  have hinside : ((s.withTypes types).bind name (.procedure sig)).opened.Keeps b₁ :=
    (keeps_of_declares (Compile.traces_bindParameters _ _ hp)).trans <|
      (keeps_of_declares (Compile.traces_constants .names _ hcs)).trans <|
      (keeps_of_declares (Compile.traces_types .names _ hts)).trans <|
      (keeps_of_declares (Compile.traces_vars .names Compile.traces_localVariable _ hvs)).trans <|
      hn.trans (keeps_of_declares (Compile.traces_statements _ _ hb))
  refine ⟨?_, ?_, hinside.globals, rfl, ?_⟩
  · exact congrArg Environment.mk hinside.frames
  · exact hinside.scopes.trans hscopes
  · have hlabels : s.stock.Grows { s.stock with labels := s.stock.labels + 1 } :=
      ⟨List.prefix_rfl, Nat.le_succ _, le_rfl, id⟩
    exact hlabels.trans hinside.stock

/-- `compileProcedures` keeps what is outside of the section and its draft, if each procedure leaves
only its name. -/
theorem compileProcedures_keeps_of {unit : String} {procedures : List Procedure}
    (h : ∀ p ∈ procedures, ∀ {unit s t u}, p.compile unit s = .ok (u, t) → ∃ name sig,
      s.Gains t name sig) {s t : Session} {u : Unit}
    (hok : compileProcedures unit procedures s = .ok (u, t)) :
    s.Keeps t ∧ t.draft = s.draft := by
  induction procedures generalizing s with
  | nil =>
    rw [compileProcedures] at hok
    obtain ⟨_, rfl⟩ := pure_eq_ok.mp hok
    exact ⟨.refl _, rfl⟩
  | cons p rest ih =>
    rw [compileProcedures] at hok
    obtain ⟨_, r, hp, hrest⟩ := bind_eq_ok.mp hok
    obtain ⟨name, sig, hgains⟩ := h p List.mem_cons_self hp
    obtain ⟨hkeeps, hdraft⟩ := ih (fun p hp => h p (List.mem_cons_of_mem _ hp)) hrest
    exact ⟨hgains.keeps.trans hkeeps, hdraft.trans hgains.draft⟩

/-- The name of a procedure. -/
def Procedure.name : Procedure → String
  | .mk name .. => name

/-- A procedure leaves nothing behind in its section but its name, as `Session.Gains` has it. -/
theorem Procedure.gains_of_compile {p : Procedure} {unit : String} {s t : Session} {u : Unit}
    (h : p.compile unit s = .ok (u, t)) : ∃ sig, s.Gains t p.name sig := by
  induction p using Procedure.induction generalizing unit s t u with
  | mk name formals result declarations body ih =>
    obtain ⟨sig, entry, outer, a, b, ho, hn, hc⟩ := Procedure.compile_ok h
    have hkeeps := compileProcedures_keeps_of (fun p hp {unit s t u} h =>
      ⟨p.name, ih p hp h⟩) hn
    exact ⟨sig, Session.gains_of_parts ho hkeeps.1 hc⟩

/-- `compileProcedures` keeps what is outside of the section, and the body that it interrupts. -/
theorem compileProcedures_keeps {unit : String} {procedures : List Procedure} {s t : Session}
    {u : Unit} (h : compileProcedures unit procedures s = .ok (u, t)) :
    s.Keeps t ∧ t.draft = s.draft :=
  compileProcedures_keeps_of (fun p _ {_ _ _ _} h => ⟨p.name, p.gains_of_compile h⟩) h

/-! ## What procedures keep -/

/-- A property of compilations that procedures keep. It may speak of what the bodies that wait
hold; `held s` is what the current body of `s` holds when a procedure interrupts it. -/
structure Session.Invariant {α : Type} (P : List α → Session → Prop) (held : Session → List α) :
    Prop where
  declares : ∀ {waiting s t}, P waiting s → s.Declares t → P waiting t
  opens : ∀ {waiting s} (types : TypeTable) (name : String) (sig : Signature), P waiting s →
    P (held s ++ waiting) ((s.withTypes types).bind name (.procedure sig)).opened
  closes : ∀ {waiting s t} (sig : Signature), P (held s ++ waiting) t →
    P waiting (t.finished (t.draft.function (.start sig.symbol sig.parameterTypes sig.result
      s.entryLabel (some sig.symbol))) s.draft).left

namespace Session.Invariant

variable {α : Type} {P : List α → Session → Prop} {held : Session → List α} {unit : String}
  {waiting : List α} {s t : Session} {u : Unit}

/-- An `Invariant` holds along any run of `Declares`. -/
theorem of_declares (hP : Invariant P held) (hs : P waiting s) (h : ReflTransGen Declares s t) :
    P waiting t := by
  induction h with
  | refl => exact hs
  | tail _ hstep ih => exact hP.declares ih hstep

/-- `compileProcedures` keeps `P` if each of the procedures does. -/
theorem compileProcedures_of {procedures : List Procedure}
    (h : ∀ p ∈ procedures, ∀ {unit waiting s t u}, p.compile unit s = .ok (u, t) →
      P waiting s → P waiting t)
    (hok : Oberon.compileProcedures unit procedures s = .ok (u, t)) (hs : P waiting s) :
    P waiting t := by
  induction procedures generalizing s with
  | nil =>
    rw [Oberon.compileProcedures] at hok
    obtain ⟨_, rfl⟩ := pure_eq_ok.mp hok
    exact hs
  | cons p rest ih =>
    rw [Oberon.compileProcedures] at hok
    obtain ⟨_, r, hp, hrest⟩ := bind_eq_ok.mp hok
    exact ih (fun p hp => h p (List.mem_cons_of_mem _ hp)) hrest (h p List.mem_cons_self hp hs)

/-- An `Invariant` survives a procedure: it is opened, declares, compiles those inside, emits its
body and is closed. -/
theorem compile (hP : Invariant P held) {p : Procedure} (h : p.compile unit s = .ok (u, t))
    (hs : P waiting s) : P waiting t := by
  induction p using Procedure.induction generalizing unit waiting s t u with
  | mk name formals result declarations body ih =>
    obtain ⟨sig, entry, outer, a, b, ho, hn, hc⟩ := Procedure.compile_ok h
    obtain ⟨r, a₁, a₂, a₃, hsig, rfl, hp, hcs, hts, hvs⟩ := Compile.openProcedure_ok ho
    obtain ⟨r', hsig', -, rfl⟩ := Compile.openProcedure_names ho
    obtain ⟨-, rfl⟩ := Prod.mk.inj (Except.ok.inj (hsig.symm.trans hsig'))
    obtain ⟨b₁, hb, rfl⟩ := Compile.closeProcedure_ok hc
    obtain ⟨types, -, rfl⟩ := resolves_of_steps (Compile.resolves_signature _ formals result hsig)
    have hopened := hP.opens types name sig hs
    have hdeclared := hP.of_declares hopened <|
      (Compile.traces_bindParameters _ _ hp).trans <|
      (Compile.traces_constants .names _ hcs).trans <|
      (Compile.traces_types .names _ hts).trans <|
      Compile.traces_vars .names Compile.traces_localVariable _ hvs
    have hnested :=
      compileProcedures_of (P := P) (fun p hp {_ _ _ _ _} => ih p hp) hn hdeclared
    have hbody := hP.of_declares hnested (Compile.traces_statements _ _ hb)
    exact hP.closes (s := s) sig hbody

/-- An `Invariant` survives all procedures of a unit. -/
theorem compileProcedures (hP : Invariant P held) {procedures : List Procedure}
    (h : Oberon.compileProcedures unit procedures s = .ok (u, t)) (hs : P waiting s) :
    P waiting t :=
  compileProcedures_of (P := P) (fun _ _ {_ _ _ _ _} hp => hP.compile hp) h hs

end Session.Invariant

/-! ## Modules -/

/-- The session in which the declarations of a module are compiled. -/
def Session.begun : Session :=
  { functions := Module.primitives, env := Environment.push {}, types := TypeTable.push {} }

/-- The function at which a program starts. -/
def Session.entryFunction (s : Session) (entry : String) : Function :=
  s.draft.function (.start entryName [] .status entry none)

/-- What `Module.compile` does: declarations, procedures, and the body at last. -/
theorem Module.compile_parts {m : Module} {platform : Platform} {p : Program}
    (h : m.compile platform = .ok p) :
    ∃ a b c d e, Compile.constants m.declarations.constants .begun = .ok ((), a)
      ∧ Compile.types m.declarations.types a = .ok ((), b)
      ∧ Compile.vars (Compile.globalVariable m.name) m.declarations.vars b = .ok ((), c)
      ∧ compileProcedures m.name m.declarations.procedures c = .ok ((), d)
      ∧ Compile.statements .status (m.body.getD []) d.started = .ok ((), e)
      ∧ p = { name := m.name, target := platform.triple, globals := e.globals,
              strings := e.stock.strings,
              functions := Program.insertFunction (e.entryFunction d.entryLabel) e.functions } := by
  unfold Module.compile at h
  cases hs : (do m.compileDeclarations; Compile.within m.name m.compileEntry : CompileUnit Unit)
      { functions := primitives } with
  | error e =>
    rw [hs] at h
    exact nomatch h
  | ok r =>
    rw [hs] at h
    obtain ⟨_, t⟩ := r
    obtain rfl := Except.ok.inj h
    simp only [bind_eq_ok, compileDeclarations, compileEntry, Compile.within_eq_ok,
      Compile.enterScope, Compile.modify_eq_ok] at hs
    obtain ⟨_, d, ⟨_, c, ⟨_, r, rfl, _, a, ha, _, b, hb, hc⟩, hd⟩, ⟨entry, outer⟩, r', hstart, _, e,
      he, hfinish⟩ := hs
    obtain ⟨rfl, rfl, rfl⟩ := Compile.startBody_ok hstart
    obtain rfl := Compile.modify_eq_ok.mp hfinish
    exact ⟨a, b, c, d, e, ha, hb, hc, hd, he, rfl⟩

/-- What `Module.compile` does, as in `Module.compile_parts`, whatever the name of the first block
of the entry function. -/
theorem Module.compile_ok {m : Module} {platform : Platform} {p : Program}
    (h : m.compile platform = .ok p) :
    ∃ a b c d e entry, Compile.constants m.declarations.constants .begun = .ok ((), a)
      ∧ Compile.types m.declarations.types a = .ok ((), b)
      ∧ Compile.vars (Compile.globalVariable m.name) m.declarations.vars b = .ok ((), c)
      ∧ compileProcedures m.name m.declarations.procedures c = .ok ((), d)
      ∧ Compile.statements .status (m.body.getD []) d.started = .ok ((), e)
      ∧ p = { name := m.name, target := platform.triple, globals := e.globals,
              strings := e.stock.strings,
              functions := Program.insertFunction (e.entryFunction entry) e.functions } := by
  obtain ⟨a, b, c, d, e, h⟩ := Module.compile_parts h
  exact ⟨a, b, c, d, e, _, h⟩

/-- The constants, types and variables of a module are steps of `Session.Collects`. -/
theorem Module.collects_of_sections {m : Module} {a b c : Session}
    (ha : Compile.constants m.declarations.constants .begun = .ok ((), a))
    (hb : Compile.types m.declarations.types a = .ok ((), b))
    (hc : Compile.vars (Compile.globalVariable m.name) m.declarations.vars b = .ok ((), c)) :
    ReflTransGen Session.Collects .begun c :=
  (Compile.traces_constants .names _ ha).trans <| (Compile.traces_types .names _ hb).trans <|
    Compile.traces_vars .names (Compile.traces_globalVariable m.name) _ hc

end Oberon
