import Oberon.Report.Located

/-!
# Reports

A problem is a message and the messages of what caused it, the nearest cause first. A report
lists located problems, and ends with their number.
-/

namespace Oberon

/-- A message, and what caused it. -/
structure Problem where
  message : String
  causes : List String := []
  deriving DecidableEq

/-- The problem seen from outside of its unit: located, and caused by the problem itself. -/
def Located.toProblem (l : Located Problem) : Problem where
  message := l.text Problem.message
  causes := l.value.message :: l.value.causes

/-- Located problems of one kind. -/
structure Diagnostics where
  kind : String := "error"
  problems : List (Located Problem) := []

namespace Diagnostics

/-- The report of one problem. -/
def problemText (kind : String) (l : Located Problem) : String :=
  kind ++ ": " ++ l.value.message ++ "\n --> in " ++ l.unit ++ "\n"
    ++ String.join (l.value.causes.map fun cause => "  = caused by: " ++ cause ++ "\n") ++ "\n"

/-- The whole report. -/
def text (d : Diagnostics) : String :=
  if d.problems.isEmpty then "No errors were reported\n"
  else
    let count := d.problems.length
    String.join (d.problems.map (problemText d.kind))
      ++ "Build failed with " ++ toString count
      ++ (if count = 1 then " error" else " errors") ++ "\n"

end Diagnostics
end Oberon
