/-!
# Located values

A value together with the unit it belongs to: a module, or the dotted path of a procedure
such as `Demo.Outer.Inner`.
-/

namespace Oberon

/-- A value and the unit where it arose. -/
structure Located (α : Type) where
  value : α
  unit : String
  deriving DecidableEq

/-- The text of a value with its unit. -/
def Located.text {α : Type} (render : α → String) (l : Located α) : String :=
  render l.value ++ " (in " ++ l.unit ++ ")"

/-- The terse text of a value with its unit. -/
def Located.terseText {α : Type} (render : α → String) (l : Located α) : String :=
  render l.value ++ " in " ++ l.unit

end Oberon
