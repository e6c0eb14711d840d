import Oberon.Syntax

/-!
# Bundled programs

Small programs that come with the compiler. Each one is written out in its comment.
-/

namespace Oberon.Bundled

/-- An integer. -/
def int (value : Int64) : Expr :=
  .literal (.integer value)

/-- A variable or constant. -/
def var (name : String) : Expr :=
  .designator name []

/-- An assignment to a variable. -/
def assign (name : String) (value : Expr) : Statement :=
  .assign { name } value

/-- `WRITE(value)`. -/
def write (value : Expr) : Statement :=
  .call "WRITE" [value]

/-- `WRITELN(value)`. -/
def writeln (value : Expr) : Statement :=
  .call "WRITELN" [value]

/-- ```text
MODULE Arithmetic;
  VAR x: INTEGER;
BEGIN
  x := 3 + 4 * 2;
  WRITELN(x)
END Arithmetic.
``` -/
def arithmetic : Module where
  name := "Arithmetic"
  declarations := { vars := [(["x"], .integer)] }
  body := some
    [assign "x" (.binary (int 3) .add (.binary (int 4) .mul (int 2))), writeln (var "x")]

/-- ```text
MODULE Countdown;
  VAR i: INTEGER;
BEGIN
  FOR i := 5 DOWNTO 1 DO WRITE(i) END
END Countdown.
``` -/
def countdown : Module where
  name := "Countdown"
  declarations := { vars := [(["i"], .integer)] }
  body := some [.forDo "i" (int 5) (int 1) .down [write (var "i")]]

/-- ```text
MODULE Increment;
  VAR y: INTEGER;
  PROCEDURE Inc(VAR x: INTEGER);
  BEGIN x := x + 1 END Inc;
BEGIN
  y := 41; Inc(y); WRITELN(y)
END Increment.
``` -/
def increment : Module where
  name := "Increment"
  declarations :=
    { vars := [(["y"], .integer)]
      procedures :=
        [.mk "Inc" [⟨true, ["x"], .integer⟩] none {}
          [assign "x" (.binary (var "x") .add (int 1))]] }
  body := some [assign "y" (int 41), .call "Inc" [var "y"], writeln (var "y")]

/-- ```text
MODULE Case;
BEGIN
  CASE 2 OF 1, 2: WRITE(1) | 3: WRITE(2) ELSE WRITE(3) END
END Case.
``` -/
def case : Module where
  name := "Case"
  body := some
    [.caseOf (int 2)
      [([.integer 1, .integer 2], [write (int 1)]), ([.integer 3], [write (int 2)])]
      (some [write (int 3)])]

/-- ```text
MODULE Factorial;
  CONST N = 10;
  PROCEDURE Fact(n: INTEGER): INTEGER;
  BEGIN
    IF n <= 1 THEN RETURN 1 END;
    RETURN n * Fact(n - 1)
  END Fact;
BEGIN
  WRITELN(Fact(N))
END Factorial.
``` -/
def factorial : Module where
  name := "Factorial"
  declarations :=
    { constants := [("N", int 10)]
      procedures :=
        [.mk "Fact" [⟨false, ["n"], .integer⟩] (some .integer) {}
          [.ifThen
            [(.relation (var "n") .lessOrEqual (int 1), [.returnWith (some (int 1))])] none,
            .returnWith (some (.binary (var "n") .mul
              (.call "Fact" [.binary (var "n") .sub (int 1)])))]] }
  body := some [writeln (.call "Fact" [var "N"])]

/-- Loops over the rows and columns of a grid. -/
def overGrid (body : Statement) : Statement :=
  .forDo "i" (int 0) (.binary (var "Rows") .sub (int 1)) .up
    [.forDo "j" (int 0) (.binary (var "Cols") .sub (int 1)) .up [body]]

/-- ```text
MODULE Matrix;
  CONST Rows = 2; Cols = 3;
  TYPE Grid = ARRAY Rows, Cols OF INTEGER;
  VAR a, b: Grid; i, j: INTEGER;
  PROCEDURE Sum(VAR g: Grid): INTEGER;
    VAR i, j, total: INTEGER;
  BEGIN
    total := 0;
    FOR i := 0 TO Rows - 1 DO
      FOR j := 0 TO Cols - 1 DO total := total + g[i][j] END
    END;
    RETURN total
  END Sum;
BEGIN
  FOR i := 0 TO Rows - 1 DO
    FOR j := 0 TO Cols - 1 DO a[i, j] := i * 10 + j END
  END;
  b := a;
  WRITELN(Sum(b))
END Matrix.
``` -/
def matrix : Module where
  name := "Matrix"
  declarations :=
    { constants := [("Rows", int 2), ("Cols", int 3)]
      types := [("Grid", .array [var "Rows", var "Cols"] .integer)]
      vars := [(["a", "b"], .named "Grid"), (["i", "j"], .integer)]
      procedures :=
        [.mk "Sum" [⟨true, ["g"], .named "Grid"⟩] (some .integer)
          { vars := [(["i", "j", "total"], .integer)] }
          [assign "total" (int 0),
            overGrid (assign "total"
              (.binary (var "total") .add (.designator "g" [[var "i"], [var "j"]]))),
            .returnWith (some (var "total"))]] }
  body := some
    [overGrid (.assign { name := "a", selectors := [[var "i", var "j"]] }
        (.binary (.binary (var "i") .mul (int 10)) .add (var "j"))),
      assign "b" (var "a"),
      writeln (.call "Sum" [var "b"])]

/-- ```text
MODULE Echo;
  VAR n: INTEGER; total: INTEGER;
BEGIN
  total := 0;
  REPEAT
    READ(n);
    IF n # 0 THEN total := total + n END
  UNTIL n = 0;
  WRITELN(total)
END Echo.
``` -/
def echo : Module where
  name := "Echo"
  declarations := { vars := [(["n"], .integer), (["total"], .integer)] }
  body := some
    [assign "total" (int 0),
      .repeatUntil
        [.call "READ" [var "n"],
          .ifThen
            [(.relation (var "n") .notEqual (int 0),
              [assign "total" (.binary (var "total") .add (var "n"))])] none]
        (.relation (var "n") .equal (int 0)),
      writeln (var "total")]

/-- All bundled programs, by name. -/
def all : List (String × Module) :=
  [("arithmetic", arithmetic), ("countdown", countdown), ("increment", increment),
    ("case", case), ("factorial", factorial), ("matrix", matrix), ("echo", echo)]

/-- The bundled program with a name. -/
def find? (name : String) : Option Module :=
  all.lookup name

end Oberon.Bundled
