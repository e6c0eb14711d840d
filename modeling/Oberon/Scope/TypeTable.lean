import Oberon.CompileError
import Oberon.Syntax

/-!
# Declared types

Type names are declared in nested scopes, one per declaration section. A name is resolved in
the innermost scope that declares it, and its definition is read in that scope, so names of
inner scopes never change what an outer type means. What a scope has resolved it remembers,
until another type is declared there.

Scopes are listed with the innermost first. A definition declared in some scope sees that
scope and the ones after it in the list, which is why resolution passes on suffixes.
-/

namespace Oberon

/-- The types of one declaration section. -/
structure TypeScope where
  /-- Definitions; the first one of a name counts. -/
  declared : List (String × TypeExpr) := []
  /-- Types found for declared names. -/
  resolved : List (String × Code.Ty) := []

/-- Scopes of type names, the innermost first. -/
structure TypeTable where
  scopes : List TypeScope := []
  /-- The names whose definitions are being read, each with the number of scopes it sees, which
  tells scopes apart. -/
  resolving : List (Nat × String) := []

/-- What resolving a type gives: the type or an error, the scopes with what they remember
afterwards, the names whose definitions are still being read, and the lengths of the dimensions
that were evaluated, in order. -/
structure Resolution where
  result : Except TypeError Code.Ty
  scopes : List TypeScope
  resolving : List (Nat × String)
  lengths : List Nat := []

namespace TypeScope

/-- The scope with one more definition; all that it remembered is dropped. -/
def declare (s : TypeScope) (name : String) (definition : TypeExpr) : TypeScope :=
  { declared := (name, definition) :: s.declared }

/-- The scope with one more type to remember. -/
def remember (s : TypeScope) (name : String) (ty : Code.Ty) : TypeScope :=
  { s with resolved := (name, ty) :: s.resolved }

end TypeScope

namespace Resolution

/-- The resolution of an array whose element type has been resolved. -/
def arrayOf (lengths : List Nat) (element : Resolution) : Resolution :=
  { element with
    result := element.result.map (Code.Ty.arrayOf lengths)
    lengths := lengths ++ element.lengths }

/-- The definition of a name has been read. -/
def release (key : Nat × String) (r : Resolution) : Resolution :=
  { r with resolving := r.resolving.erase key }

/-- Remembers the result, if there is one, in the first scope. -/
def remember (name : String) (r : Resolution) : Resolution :=
  match r.result, r.scopes with
  | .ok ty, scope :: outer => { r with scopes := scope.remember name ty :: outer }
  | _, _ => r

/-- Puts scopes that were passed over back in front. -/
def behind (inner : List TypeScope) (r : Resolution) : Resolution :=
  { r with scopes := inner ++ r.scopes }

/-- The table afterwards. -/
def table (r : Resolution) : TypeTable :=
  { scopes := r.scopes, resolving := r.resolving }

end Resolution

/-- Resolves a type, given what names resolve to and the names whose definitions are being read.
All dimensions of an array are evaluated before its element type. -/
def TypeExpr.resolve (dimension : Expr → Nat) (named : String → Resolution)
    (scopes : List TypeScope) (resolving : List (Nat × String)) : TypeExpr → Resolution
  | .integer => { result := .ok .integer, scopes, resolving }
  | .real => { result := .ok .real, scopes, resolving }
  | .boolean => { result := .ok .boolean, scopes, resolving }
  | .string => { result := .ok .string, scopes, resolving }
  | .named name => named name
  | .array dimensions element =>
    (element.resolve dimension named scopes resolving).arrayOf (dimensions.map dimension)

/-- Resolves a name. While its definition is read it is among the names of `resolving`; coming
back to one of them is a cycle. Every round adds a name that was not among them, so `rounds` need
not exceed the number of definitions. -/
def resolveName (dimension : Expr → Nat) :
    Nat → List (Nat × String) → List TypeScope → String → Resolution
  | 0, resolving, scopes, name => { result := .error (.cyclic name), scopes, resolving }
  | rounds + 1, resolving, scopes, name =>
    let inner := scopes.takeWhile fun s => (s.declared.lookup name).isNone
    match scopes.drop inner.length with
    | [] => { result := .error (.undefined name), scopes, resolving }
    | scope :: outer =>
      let visible := scope :: outer
      let key := (visible.length, name)
      match scope.resolved.lookup name, scope.declared.lookup name with
      | some ty, _ => { result := .ok ty, scopes, resolving }
      | none, none => { result := .error (.undefined name), scopes, resolving }
      | none, some definition =>
        if resolving.contains key then { result := .error (.cyclic name), scopes, resolving }
        else
          let reading := key :: resolving
          let next := resolveName dimension rounds reading visible
          let r := (definition.resolve dimension next visible reading).release key
          (r.remember name).behind inner

namespace TypeTable

/-- Opens a scope. -/
def push (t : TypeTable) : TypeTable :=
  { t with scopes := {} :: t.scopes }

/-- Closes the innermost scope, if there is one. -/
def pop (t : TypeTable) : TypeTable :=
  { t with scopes := t.scopes.tail }

/-- Declares a type in the innermost scope; a table without scopes gets one. -/
def declare (t : TypeTable) (name : String) (definition : TypeExpr) : TypeTable :=
  { t with scopes := (t.scopes.headD {}).declare name definition :: t.scopes.tail }

/-- The number of definitions in all scopes. -/
def definitionCount (t : TypeTable) : Nat :=
  (t.scopes.flatMap (·.declared)).length

/-- Resolves a type from the innermost scope, with `dimension` to give the length that a
dimension stands for. -/
def resolve (t : TypeTable) (dimension : Expr → Nat) (type : TypeExpr) : Resolution :=
  type.resolve dimension (resolveName dimension (t.definitionCount + 1) t.resolving t.scopes)
    t.scopes t.resolving

end TypeTable
end Oberon
