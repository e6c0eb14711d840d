import Mathlib.Data.List.Nodup
import Mathlib.Logic.Relation
import Mathlib.Order.Nat
import Oberon.Proofs.Emission
import Oberon.Proofs.Trees

/-!
# Steps of an emission

Whatever is emitted, an emission changes by steps of a few kinds. Expressions and simple
statements make `Extends` steps, which add instructions to the current block and strings to the
stock; control structures make `Changes` steps, which also add blocks, end them and move between
them. A fact that every step keeps is kept by every emission.
-/

namespace Oberon

open Code Relation

/-- A step of straight-line code. -/
inductive Emission.Extends : Emission → Emission → Prop
  | push (s : Emission) {i : Instr} (h : i.output = none) : Extends s (s.pushed i)
  | define (s : Emission) {i : Instr} (h : i.output = some s.stock.temps)
    (hcell : i.isAlloca = false) : Extends s (s.defined i)
  | string (s : Emission) (text : String) : Extends s (s.withString text)

/-- A step of any code: one of `Extends`, or one that reserves a cell, ends a block, adds a block or
goes to one. -/
inductive Emission.Changes : Emission → Emission → Prop
  | extend {s t : Emission} (h : s.Extends t) : Changes s t
  | cell (s : Emission) (ty : Ty) : Changes s (s.reserved ty)
  | terminate (s : Emission) (t : Terminator) : Changes s (s.terminated t)
  | move (s : Emission) (label : Nat) : Changes s (s.moved label)
  | block (s : Emission) (name : String) : Changes s (s.withBlock name)

section

variable {σ ε α β : Type} {R : σ → σ → Prop}

/-- An action that makes only steps of `R`. -/
def Traces (R : σ → σ → Prop) (x : StateT σ (Except ε) α) : Prop :=
  ∀ ⦃s a t⦄, x s = .ok (a, t) → ReflTransGen R s t

namespace Traces

/-- `Pure.pure` takes no step. -/
theorem pure (a : α) : Traces R (Pure.pure a : StateT σ (Except ε) α) := by
  intro s b t h
  obtain ⟨_, rfl⟩ := pure_eq_ok.mp h
  exact .refl

/-- An action that fails traces any relation: `Traces` speaks of successful runs only. -/
theorem fail (e : CompileError) {R : Emission → Emission → Prop} :
    Traces R (Emit.fail e : Emit α) :=
  fun _ _ _ h => (Emit.fail_eq_ok.mp h).elim

/-- The steps of `x >>= f` are those of `x` and then those of `f`. -/
theorem bind {x : StateT σ (Except ε) α} {f : α → StateT σ (Except ε) β} (hx : Traces R x)
    (hf : ∀ a, Traces R (f a)) : Traces R (x >>= f) := by
  intro s b t h
  obtain ⟨a, r, ha, hb⟩ := bind_eq_ok.mp h
  exact (hx ha).trans (hf a hb)

/-- A coarser relation than `R` is traced as well. -/
theorem mono {R' : σ → σ → Prop} {x : StateT σ (Except ε) α} (hx : Traces R x)
    (h : ∀ s t, R s t → R' s t) : Traces R' x :=
  fun _ _ _ hok => ReflTransGen.mono h _ _ (hx hok)

theorem ite {p : Prop} [Decidable p] {x y : StateT σ (Except ε) α} (hx : Traces R x)
    (hy : Traces R y) : Traces R (if p then x else y) := by
  split
  · exact hx
  · exact hy

/-- Straight-line code is code: every step of `Emission.Extends` is one of `Emission.Changes`. -/
theorem changes {x : Emit α} (hx : Traces Emission.Extends x) : Traces Emission.Changes x :=
  hx.mono fun _ _ h => .extend h

end Traces

end

namespace Emit

/-! ## Operations -/

/-- `push` adds one instruction, which must not define a temporary; `traces_result` is for those
that do. -/
theorem traces_push {i : Instr} (h : i.output = none) : Traces Emission.Extends (push i) := by
  intro s u t hok
  obtain rfl := push_eq_ok.mp hok
  exact .single (.push s h)

/-- `result` draws a temporary and adds the instruction that defines it. Cells are drawn by `cell`,
outside of straight-line code. -/
theorem traces_result {ty : Ty} {instr : Nat → Instr}
    (h : ∀ n, (instr n).output = some n ∧ (instr n).isAlloca = false) :
    Traces Emission.Extends (result ty instr) := by
  intro s v t hok
  obtain ⟨_, rfl⟩ := result_eq_ok.mp hok
  exact .single (.define s (h _).1 (h _).2)

/-- `string` may intern its text, and adds no instruction. -/
theorem traces_string (text : String) : Traces Emission.Extends (string text) := by
  intro s v t hok
  obtain ⟨_, rfl⟩ := string_eq_ok.mp hok
  exact .single (.string s text)

theorem traces_truth (value : Value) : Traces Emission.Extends (truth value) := by
  unfold truth
  split
  · exact .pure _
  · exact traces_result fun _ => ⟨rfl, rfl⟩
  · exact traces_result fun _ => ⟨rfl, rfl⟩
  · exact .fail _

/-- Every conversion of `coerce` is at most one instruction. -/
theorem traces_coerce (value : Value) (into : Ty) :
    Traces Emission.Extends (coerce value into) := by
  unfold coerce
  refine .ite (.pure _) ?_
  split
  · exact traces_truth value
  · exact traces_result fun _ => ⟨rfl, rfl⟩
  · exact traces_result fun _ => ⟨rfl, rfl⟩
  · exact traces_result fun _ => ⟨rfl, rfl⟩
  · exact .fail _

/-- `unify` converts both operands to their common type, each by one instruction at most. -/
theorem traces_unify (lhs rhs : Value) : Traces Emission.Extends (unify lhs rhs) := by
  unfold unify
  split
  · exact .fail _
  · exact .bind (traces_coerce _ _) fun _ => .bind (traces_coerce _ _) fun _ => .pure _

/-- `binary` is one instruction with a result. -/
theorem traces_binary (op : BinOp) (lhs rhs : Value) :
    Traces Emission.Extends (binary op lhs rhs) :=
  traces_result fun _ => ⟨rfl, rfl⟩

/-- The operators of `arithmetic` include AND and OR: both operands are evaluated, without a
branch. -/
theorem traces_arithmetic (op : BinaryOp) (lhs rhs : Value) :
    Traces Emission.Extends (arithmetic op lhs rhs) := by
  refine .bind (traces_unify lhs rhs) fun operands => ?_
  dsimp only
  split
  · exact traces_binary _ _ _
  · exact .fail _

/-- `compare` unifies its operands first; no case of it branches. -/
theorem traces_compare (op : RelationOp) (lhs rhs : Value) :
    Traces Emission.Extends (compare op lhs rhs) := by
  refine .bind (traces_unify lhs rhs) fun operands => ?_
  dsimp only
  split
  · exact traces_result fun _ => ⟨rfl, rfl⟩
  · exact traces_result fun _ => ⟨rfl, rfl⟩
  · exact .fail _

theorem traces_not (value : Value) : Traces Emission.Extends (not value) :=
  .bind (traces_truth value) fun _ => traces_binary _ _ _

theorem traces_negate (value : Value) : Traces Emission.Extends (negate value) := by
  unfold negate
  split
  · exact traces_result fun _ => ⟨rfl, rfl⟩
  · exact traces_result fun _ => ⟨rfl, rfl⟩
  · exact .fail _

theorem traces_load (ty : Ty) (address : Value) : Traces Emission.Extends (load ty address) :=
  traces_result fun _ => ⟨rfl, rfl⟩

theorem traces_literal (value : Literal) : Traces Emission.Extends (literal value) := by
  cases value with
  | string text => exact traces_string text
  | integer value => exact .pure _
  | real value => exact .pure _
  | boolean value => exact .pure _
  | nil => exact .pure _

theorem traces_constant (value : Constant) : Traces Emission.Extends (constant value) := by
  cases value with
  | string text => exact traces_string text
  | integer value => exact .pure _
  | real value => exact .pure _
  | boolean value => exact .pure _

/-- An index becomes 64 bits wide by `index`, in at most one instruction. -/
theorem traces_index (value : Value) : Traces Emission.Extends (index value) := by
  unfold index
  split
  · exact traces_coerce _ _
  · exact .fail _

/-! ## Expressions -/

variable {env : Environment}

/-- `address` computes the place of a variable behind its `indices`, which emit code of their
own. -/
theorem traces_address {name : String} {count : Nat} {indices : Emit (List Value)}
    (h : Traces Emission.Extends indices) :
    Traces Emission.Extends (address env name count indices) := by
  unfold address
  split
  · exact .fail _
  · refine .ite (.pure _) ?_
    split
    · exact .fail _
    · exact .bind h fun _ => .bind (traces_result fun _ => ⟨rfl, rfl⟩) fun _ => .pure _

/-- A `designator` is a constant, or a place from which is loaded. -/
theorem traces_designator {name : String} {plain : Bool} {count : Nat}
    {indices : Emit (List Value)} (h : Traces Emission.Extends indices) :
    Traces Emission.Extends (designator env name plain count indices) := by
  unfold designator
  split
  · exact .ite (traces_constant _) (.fail _)
  · exact .bind (traces_address h) fun _ => .ite (.fail _) (traces_load _ _)

/-- A `call` emits its arguments and one instruction. -/
theorem traces_call {name : String} {count : Nat} {arguments : List Parameter → Emit (List Value)}
    (h : ∀ parameters, Traces Emission.Extends (arguments parameters)) :
    Traces Emission.Extends (call env name count arguments) := by
  unfold call
  refine .ite (.fail _) ?_
  split
  · refine .ite (.fail _) (.bind (h _) fun _ => .ite ?_ ?_)
    · exact .bind (traces_push rfl) fun _ => .pure _
    · exact .bind (traces_result fun _ => ⟨rfl, rfl⟩) fun _ => .pure _
  · exact .fail _

/-- An `argument` is passed as a `place` or as a `value`, so both have to be traced. -/
theorem traces_argument {procedure : String} {position : Nat} {parameter : Parameter}
    {place : Option (Emit (Value × Ty))} {value : Emit Value}
    (hp : ∀ x ∈ place, Traces Emission.Extends x) (hv : Traces Emission.Extends value) :
    Traces Emission.Extends (argument procedure position parameter place value) := by
  unfold argument
  refine .ite ?_ (.bind hv fun _ => traces_coerce _ _)
  split
  · exact .bind (hp _ rfl) fun _ => .ite (.pure _) (.fail _)
  · exact .fail _

end Emit

open Emit

/-- `emitIndices` emits the indices of one selector, in order. -/
theorem traces_emitIndices {env : Environment} {es : List Expr}
    (h : ∀ e ∈ es, Traces Emission.Extends (e.emit env)) :
    Traces Emission.Extends (emitIndices env es) := by
  induction es with
  | nil => exact .pure _
  | cons e rest ih =>
    rw [emitIndices]
    have hrest := ih fun e he => h e (List.mem_cons_of_mem _ he)
    exact .bind (h e List.mem_cons_self) fun _ => .bind (traces_index _) fun _ =>
      .bind hrest fun _ => .pure _

/-- `emitSelectors` emits the indices of all selectors, in order. -/
theorem traces_emitSelectors {env : Environment} {selectors : List (List Expr)}
    (h : ∀ selector ∈ selectors, ∀ e ∈ selector, Traces Emission.Extends (e.emit env)) :
    Traces Emission.Extends (emitSelectors env selectors) := by
  induction selectors with
  | nil => exact .pure _
  | cons selector rest ih =>
    rw [emitSelectors]
    have hrest := ih fun sel hsel => h sel (List.mem_cons_of_mem _ hsel)
    exact .bind (traces_emitIndices (h selector List.mem_cons_self)) fun _ =>
      .bind hrest fun _ => .pure _

/-- The place that an expression may denote when it is passed by reference. -/
def Expr.place? (env : Environment) : Expr → Option (Emit (Value × Ty))
  | .designator name selectors =>
    some (Emit.address env name (indexCount selectors) (emitSelectors env selectors))
  | _ => none

/-- Unfolds `emitArguments` by one argument, with `Emit.argument` for the first. -/
theorem emitArguments_cons (env : Environment) (procedure : String) (position : Nat)
    (parameter : Parameter) (parameters : List Parameter) (e : Expr) (rest : List Expr) :
    emitArguments env procedure position (parameter :: parameters) (e :: rest) = (do
      let first ← Emit.argument procedure position parameter (e.place? env) (e.emit env)
      let others ← emitArguments env procedure (position + 1) parameters rest
      pure (first :: others)) := by
  cases e <;> rfl

/-- `emitArguments` traces what its expressions do, both by value and by reference. -/
theorem traces_emitArguments {env : Environment} {procedure : String} {position : Nat}
    {parameters : List Parameter} {es : List Expr}
    (h : ∀ e ∈ es, Traces Emission.Extends (e.emit env)
      ∧ ∀ x ∈ e.place? env, Traces Emission.Extends x) :
    Traces Emission.Extends (emitArguments env procedure position parameters es) := by
  induction es generalizing position parameters with
  | nil => exact .pure _
  | cons e rest ih =>
    cases parameters with
    | nil => exact .pure _
    | cons parameter parameters =>
      rw [emitArguments_cons]
      obtain ⟨hv, hp⟩ := h e List.mem_cons_self
      have hrest := fun e he => h e (List.mem_cons_of_mem _ he)
      exact .bind (traces_argument hp hv) fun _ => .bind (ih hrest) fun _ => .pure _

/-- `Expr.emit` and `Expr.place?` emit straight-line code, so that an expression does whether it is
evaluated or passed by reference. -/
theorem Expr.traces (env : Environment) (e : Expr) :
    Traces Emission.Extends (e.emit env) ∧ ∀ x ∈ e.place? env, Traces Emission.Extends x := by
  induction e using Expr.induction with
  | literal value => exact ⟨traces_literal value, fun x hx => nomatch hx⟩
  | designator name selectors ih =>
    have hindices := traces_emitSelectors fun sel hsel e he => (ih sel hsel e he).1
    rw [Expr.emit]
    refine ⟨traces_designator hindices, fun x hx => ?_⟩
    obtain rfl := Option.mem_some.mp hx
    exact traces_address hindices
  | call callee arguments ih =>
    rw [Expr.emit]
    refine ⟨.bind (traces_call fun _ => traces_emitArguments ih) fun value => ?_,
      fun x hx => nomatch hx⟩
    split
    · exact .pure _
    · exact .fail _
  | not operand ih =>
    rw [Expr.emit]
    exact ⟨.bind ih.1 fun _ => traces_not _, fun x hx => nomatch hx⟩
  | negate operand ih =>
    rw [Expr.emit]
    exact ⟨.bind ih.1 fun _ => traces_negate _, fun x hx => nomatch hx⟩
  | binary lhs op rhs ihl ihr =>
    rw [Expr.emit]
    exact ⟨.bind ihl.1 fun _ => .bind ihr.1 fun _ => traces_arithmetic _ _ _,
      fun x hx => nomatch hx⟩
  | relation lhs op rhs ihl ihr =>
    rw [Expr.emit]
    exact ⟨.bind ihl.1 fun _ => .bind ihr.1 fun _ => traces_compare _ _ _,
      fun x hx => nomatch hx⟩

theorem Expr.traces_emit (env : Environment) (e : Expr) : Traces Emission.Extends (e.emit env) :=
  (e.traces env).1

/-- Conditions are expressions with a test of their type, so `Expr.emitCondition` emits
straight-line code too. -/
theorem Expr.traces_emitCondition (env : Environment) (e : Expr) :
    Traces Emission.Extends (e.emitCondition env) :=
  .bind (e.traces_emit env) fun _ => traces_truth _

/-- `Designator.emitAddress` emits the indices and one element instruction at most. -/
theorem Designator.traces_emitAddress (env : Environment) (d : Designator) :
    Traces Emission.Extends (d.emitAddress env) :=
  traces_address (traces_emitSelectors fun _ _ e _ => e.traces_emit env)

/-! ## Simple statements -/

section
variable (env : Environment)

theorem traces_emitCall (name : String) (arguments : List Expr) :
    Traces Emission.Extends (emitCall env name arguments) :=
  .bind (traces_call fun _ => traces_emitArguments fun e _ => e.traces env) fun _ => .pure _

/-- `printable` widens an integer that has no conversion of its own. -/
theorem Emit.traces_printable (value : Value) : Traces Emission.Extends (printable value) := by
  unfold printable
  split
  · exact .pure _
  · exact .bind (traces_coerce _ _) fun _ => .pure _
  · exact .pure _
  · exact .pure _
  · exact .fail _
  · exact .fail _

theorem Emit.traces_print (value : Value) (ending : String) :
    Traces Emission.Extends (print value ending) :=
  .bind (traces_printable value) fun _ => .bind (traces_string _) fun _ => traces_push rfl

/-- `emitPrints` prints its expressions one after the other; `ending` comes behind the last one. -/
theorem traces_emitPrints (ending : String) (es : List Expr) :
    Traces Emission.Extends (emitPrints env ending es) := by
  induction es with
  | nil => exact .pure _
  | cons e rest ih =>
    cases rest with
    | nil => exact .bind (e.traces_emit env) fun _ => traces_print _ _
    | cons e' rest =>
      exact .bind (e.traces_emit env) fun _ => .bind (traces_print _ _) fun _ => ih

/-- `emitWriteln` is `emitPrints` with a line end, or a call that prints an empty line. -/
theorem traces_emitWriteln (es : List Expr) :
    Traces Emission.Extends (emitWriteln env es) := by
  unfold emitWriteln
  split
  · exact .bind (traces_string _) fun _ => traces_push rfl
  · exact traces_emitPrints env _ es

/-- `emitRead` passes the address of a variable on to what the machine provides. -/
theorem traces_emitRead (es : List Expr) : Traces Emission.Extends (emitRead env es) := by
  unfold emitRead
  split
  · refine .bind (traces_address (.pure _)) fun place => ?_
    dsimp only
    split
    · exact .bind (traces_string _) fun _ => traces_push rfl
    · exact .fail _
  · exact .fail _

/-- `emitCallStatement` is one of READ, WRITE and WRITELN, or a call of a procedure. -/
theorem traces_emitCallStatement (name : String) (es : List Expr) :
    Traces Emission.Extends (emitCallStatement env name es) :=
  .ite (traces_emitPrints env _ es)
    (.ite (traces_emitWriteln env es) (.ite (traces_emitRead env es) (traces_emitCall env name es)))

/-- `emitAssign` is a store, or a copy for arrays: none of them branches. -/
theorem traces_emitAssign (target : Designator) (value : Expr) :
    Traces Emission.Extends (emitAssign env target value) := by
  refine .bind (target.traces_emitAddress env) fun place => ?_
  dsimp only
  split
  · refine .bind (Designator.traces_emitAddress env _) fun source => .ite ?_ (.fail _)
    split
    · exact traces_push rfl
    · exact .fail _
  · exact .bind (Expr.traces_emit env _) fun _ => .bind (traces_coerce _ _) fun _ =>
      traces_push rfl

/-- `emitCounter` only looks up the variable of a FOR statement. -/
theorem traces_emitCounter (name : String) : Traces Emission.Extends (emitCounter env name) := by
  unfold emitCounter
  split
  · exact .fail _
  · exact .fail _
  · split
    · exact .ite (.fail _) (.pure _)
    · exact .fail _

/-- `emitResult` converts the value that is returned, if there is one. -/
theorem traces_emitResult (scene : Scene) (value : Option Expr) :
    Traces Emission.Extends (emitResult scene value) := by
  cases value with
  | none => exact .pure _
  | some e =>
    exact .bind (e.traces_emit _) fun _ =>
      .ite (.pure _) (.bind (traces_coerce _ _) fun _ => .pure _)

/-- `either` joins a test with those before it. -/
theorem Emit.traces_either (before : Option Value) (test : Value) :
    Traces Emission.Extends (either before test) := by
  cases before with
  | none => exact .pure _
  | some before => exact traces_binary _ _ _

/-- `matchLabels` compares the selector with each label, without a branch between the labels. -/
theorem Emit.traces_matchLabels (selector : Value) (found : Option Value)
    (labels : List Literal) : Traces Emission.Extends (matchLabels selector found labels) := by
  induction labels generalizing found with
  | nil => exact .pure _
  | cons label rest ih =>
    exact .bind (traces_literal label) fun _ => .bind (traces_compare _ _ _) fun _ =>
      .bind (traces_either _ _) fun _ => ih _

end

/-! ## Control structures -/

namespace Emit

theorem traces_terminate (t : Terminator) : Traces Emission.Changes (terminate t) := by
  intro s u r h
  obtain rfl := terminate_eq_ok.mp h
  exact .single (.terminate s t)

theorem traces_switchTo (label : Nat) : Traces Emission.Changes (switchTo label) := by
  intro s u r h
  obtain rfl := switchTo_eq_ok.mp h
  exact .single (.move s label)

/-- `newBlock` adds an empty block and stays in the current one. -/
theorem traces_newBlock (name : String) : Traces Emission.Changes (newBlock name) := by
  intro s l r h
  obtain ⟨_, rfl⟩ := newBlock_eq_ok.mp h
  exact .single (.block s name)

/-- `cell` draws a temporary for an address and reserves its storage in the first block. -/
theorem traces_cell (ty : Ty) : Traces Emission.Changes (cell ty) := by
  intro s v r h
  obtain ⟨_, rfl⟩ := cell_eq_ok.mp h
  exact .single (.cell s ty)

/-- `leave` ends the current block and goes on in a new one. -/
theorem traces_leave (t : Terminator) (name : String) : Traces Emission.Changes (leave t name) :=
  .bind (traces_terminate t) fun _ => .bind (traces_newBlock name) fun _ => traces_switchTo _

/-- `blockIf` makes a block only if it is wanted. -/
theorem traces_blockIf (wanted : Bool) (name : String) (label : Nat) :
    Traces Emission.Changes (blockIf wanted name label) :=
  .ite (traces_newBlock name) (.pure _)

theorem traces_afterBranch (isLast hasElse : Bool) (done : Nat) :
    Traces Emission.Changes (afterBranch isLast hasElse done) :=
  .ite (traces_blockIf _ _ _) (traces_newBlock _)

/-- `ifBranch` tests, runs its body behind the test and jumps to `done`. -/
theorem traces_ifBranch {condition : Emit Value} {next : Emit Nat} {done : Nat}
    {body : Emit Unit} (hc : Traces Emission.Extends condition)
    (hn : Traces Emission.Changes next) (hb : Traces Emission.Changes body) :
    Traces Emission.Changes (ifBranch condition next done body) :=
  .bind hc.changes fun _ => .bind (traces_newBlock _) fun _ => .bind hn fun _ =>
    .bind (traces_terminate _) fun _ => .bind (traces_switchTo _) fun _ => .bind hb fun _ =>
      .bind (traces_terminate _) fun _ => traces_switchTo _

/-- `elsePart` runs its body and goes on at `done`. -/
theorem traces_elsePart {done : Nat} {body : Emit Unit} (hb : Traces Emission.Changes body) :
    Traces Emission.Changes (elsePart done body) :=
  .bind hb fun _ => .bind (traces_terminate _) fun _ => traces_switchTo _

/-- `whileDo` makes three blocks around a condition and a body. -/
theorem traces_whileDo {condition : Emit Value} {body : Loop → Emit Unit}
    (hc : Traces Emission.Extends condition) (hb : ∀ l, Traces Emission.Changes (body l)) :
    Traces Emission.Changes (whileDo condition body) :=
  .bind (traces_newBlock _) fun _ => .bind (traces_newBlock _) fun _ =>
    .bind (traces_newBlock _) fun _ => .bind (traces_terminate _) fun _ =>
      .bind (traces_switchTo _) fun _ => .bind hc.changes fun _ =>
        .bind (traces_terminate _) fun _ => .bind (traces_switchTo _) fun _ =>
          .bind (hb _) fun _ => .bind (traces_terminate _) fun _ => traces_switchTo _

/-- `repeatUntil` runs its body before the condition. -/
theorem traces_repeatUntil {condition : Emit Value} {body : Loop → Emit Unit}
    (hc : Traces Emission.Extends condition) (hb : ∀ l, Traces Emission.Changes (body l)) :
    Traces Emission.Changes (repeatUntil body condition) :=
  .bind (traces_newBlock _) fun _ => .bind (traces_newBlock _) fun _ =>
    .bind (traces_newBlock _) fun _ => .bind (traces_terminate _) fun _ =>
      .bind (traces_switchTo _) fun _ => .bind (hb _) fun _ =>
        .bind (traces_terminate _) fun _ => .bind (traces_switchTo _) fun _ =>
          .bind hc.changes fun _ => .bind (traces_terminate _) fun _ => traces_switchTo _

/-- `countTo` is the loop of a FOR statement after start and limit were evaluated. -/
theorem traces_countTo {place limit : Value} {bits : Nat} {direction : Direction}
    {body : Loop → Emit Unit} (hb : ∀ l, Traces Emission.Changes (body l)) :
    Traces Emission.Changes (countTo place bits limit direction body) :=
  .bind (traces_newBlock _) fun _ => .bind (traces_newBlock _) fun _ =>
    .bind (traces_newBlock _) fun _ => .bind (traces_newBlock _) fun _ =>
      .bind (traces_terminate _) fun _ => .bind (traces_switchTo _) fun _ =>
        .bind (traces_load _ _).changes fun _ => .bind (traces_compare _ _ _).changes fun _ =>
          .bind (traces_terminate _) fun _ => .bind (traces_switchTo _) fun _ =>
            .bind (hb _) fun _ => .bind (traces_terminate _) fun _ =>
              .bind (traces_switchTo _) fun _ => .bind (traces_load _ _).changes fun _ =>
                .bind (traces_binary _ _ _).changes fun _ =>
                  .bind (traces_push rfl).changes fun _ =>
                    .bind (traces_terminate _) fun _ => traces_switchTo _

/-- `forDo` evaluates start and limit once, and loops by `countTo`. -/
theorem traces_forDo {counter : Emit (Value × Nat)} {start limit : Emit Value}
    {direction : Direction} {body : Loop → Emit Unit} (hn : Traces Emission.Extends counter)
    (hs : Traces Emission.Extends start) (hl : Traces Emission.Extends limit)
    (hb : ∀ l, Traces Emission.Changes (body l)) :
    Traces Emission.Changes (forDo counter start limit direction body) :=
  .bind hn.changes fun _ => .bind hs.changes fun _ => .bind (traces_coerce _ _).changes fun _ =>
    .bind (traces_push rfl).changes fun _ => .bind hl.changes fun _ =>
      .bind (traces_coerce _ _).changes fun _ => traces_countTo hb

/-- `caseHead` evaluates the selector and makes the blocks that all branches share. -/
theorem traces_caseHead {selector : Emit Value} {hasElse : Bool}
    (hs : Traces Emission.Extends selector) :
    Traces Emission.Changes (caseHead selector hasElse) :=
  .bind hs.changes fun _ => .bind (traces_newBlock _) fun _ => .bind (traces_blockIf _ _ _) fun _ =>
    .bind (traces_newBlock _) fun _ => .bind (traces_terminate _) fun _ => .pure _

/-- `caseBranch` matches labels in the block `test` and runs its body in a block of its own. -/
theorem traces_caseBranch {selector : Value} {labels : List Literal} {test done : Nat}
    {next : Emit Nat} {body : Emit Unit} (hn : Traces Emission.Changes next)
    (hb : Traces Emission.Changes body) :
    Traces Emission.Changes (caseBranch selector labels test done next body) :=
  .bind (traces_switchTo _) fun _ => .bind (traces_matchLabels _ _ _).changes fun _ =>
    .bind (traces_newBlock _) fun _ => .bind hn fun _ => .bind (traces_terminate _) fun _ =>
      .bind (traces_switchTo _) fun _ => .bind hb fun _ => .bind (traces_terminate _) fun _ =>
        .pure _

/-- `caseFallback` goes on where no label has matched. -/
theorem traces_caseFallback (isEmpty : Bool) (test fallback : Nat) :
    Traces Emission.Changes (caseFallback isEmpty test fallback) :=
  .ite (.bind (traces_switchTo _) fun _ => .bind (traces_terminate _) fun _ => traces_switchTo _)
    (traces_switchTo _)

end Emit

/-- `emitReturn` ends the current block; what follows goes to a block that nothing reaches. -/
theorem traces_emitReturn (scene : Scene) (value : Option Expr) :
    Traces Emission.Changes (emitReturn scene value) :=
  .bind (traces_emitResult scene value).changes fun _ => traces_leave _ _

/-- `emitBreak` leaves the innermost loop, and fails outside of any. -/
theorem traces_emitBreak (loop : Option Loop) : Traces Emission.Changes (emitBreak loop) := by
  cases loop with
  | none => exact .fail _
  | some loop => exact traces_leave _ _

/-- `emitContinue` starts the next round of the innermost loop, and fails outside of any. -/
theorem traces_emitContinue (loop : Option Loop) : Traces Emission.Changes (emitContinue loop) := by
  cases loop with
  | none => exact .fail _
  | some loop => exact traces_leave _ _

/-- `emitStatements` traces `Emission.Changes` if each of its statements does. -/
theorem traces_emitStatements_of {scene : Scene} {loop : Option Loop} {body : List Statement}
    (h : ∀ s ∈ body, ∀ loop, Traces Emission.Changes (s.emit scene loop)) :
    Traces Emission.Changes (emitStatements scene loop body) := by
  induction body with
  | nil => exact .pure _
  | cons s rest ih =>
    rw [emitStatements]
    exact .bind (h s List.mem_cons_self loop) fun _ =>
      ih fun s hs => h s (List.mem_cons_of_mem _ hs)

/-- `emitElse` traces `Emission.Changes` if the statements of the ELSE part do. -/
theorem traces_emitElse_of {scene : Scene} {loop : Option Loop} {done : Nat}
    {otherwise : Option (List Statement)}
    (h : ∀ body ∈ otherwise, ∀ s ∈ body, ∀ loop, Traces Emission.Changes (s.emit scene loop)) :
    Traces Emission.Changes (emitElse scene loop done otherwise) := by
  cases otherwise with
  | none => exact .pure _
  | some body => exact traces_elsePart (traces_emitStatements_of (h body rfl))

/-- `emitBranches` traces `Emission.Changes` if the statements of all IF branches do. -/
theorem traces_emitBranches_of {scene : Scene} {loop : Option Loop} {done : Nat} {hasElse : Bool}
    {branches : List (Expr × List Statement)}
    (h : ∀ branch ∈ branches, ∀ s ∈ branch.2, ∀ loop,
      Traces Emission.Changes (s.emit scene loop)) :
    Traces Emission.Changes (emitBranches scene loop done hasElse branches) := by
  induction branches with
  | nil => exact .pure _
  | cons branch rest ih =>
    obtain ⟨condition, body⟩ := branch
    rw [emitBranches]
    have hbody : Traces Emission.Changes (emitStatements scene loop body) :=
      traces_emitStatements_of (h _ List.mem_cons_self)
    exact .bind (traces_ifBranch (condition.traces_emitCondition _) (traces_afterBranch _ _ _)
      hbody) fun _ => ih fun branch hbranch => h branch (List.mem_cons_of_mem _ hbranch)

/-- `emitCases` traces `Emission.Changes` if the statements of all CASE branches do. -/
theorem traces_emitCases_of {scene : Scene} {loop : Option Loop} {selector : Value}
    {done fallback test : Nat} {branches : List (List Literal × List Statement)}
    (h : ∀ branch ∈ branches, ∀ s ∈ branch.2, ∀ loop,
      Traces Emission.Changes (s.emit scene loop)) :
    Traces Emission.Changes (emitCases scene loop selector done fallback test branches) := by
  induction branches generalizing test with
  | nil => exact .pure _
  | cons branch rest ih =>
    obtain ⟨labels, body⟩ := branch
    rw [emitCases]
    have hbody : Traces Emission.Changes (emitStatements scene loop body) :=
      traces_emitStatements_of (h _ List.mem_cons_self)
    exact .bind (traces_caseBranch (traces_blockIf _ _ _) hbody) fun _ =>
      ih fun branch hbranch => h branch (List.mem_cons_of_mem _ hbranch)

/-- Statements emit code by the steps of `Emission.Changes`. -/
theorem Statement.traces_emit (scene : Scene) (s : Statement) (loop : Option Loop) :
    Traces Emission.Changes (s.emit scene loop) := by
  induction s using Statement.induction generalizing loop with
  | assign target value => exact (traces_emitAssign _ target value).changes
  | call name arguments => exact (traces_emitCallStatement _ name arguments).changes
  | ifThen branches otherwise ihb iho =>
    rw [Statement.emit]
    exact .bind (traces_newBlock _) fun _ => .bind (traces_emitBranches_of ihb) fun _ =>
      traces_emitElse_of iho
  | whileDo condition body ih =>
    rw [Statement.emit]
    exact traces_whileDo (condition.traces_emitCondition _) fun _ => traces_emitStatements_of ih
  | repeatUntil body condition ih =>
    rw [Statement.emit]
    exact traces_repeatUntil (condition.traces_emitCondition _) fun _ => traces_emitStatements_of ih
  | forDo counter start limit direction body ih =>
    rw [Statement.emit]
    exact traces_forDo (traces_emitCounter _ counter) (start.traces_emit _) (limit.traces_emit _)
      fun _ => traces_emitStatements_of ih
  | caseOf selector branches otherwise ihb iho =>
    rw [Statement.emit]
    exact .bind (traces_caseHead (selector.traces_emit _)) fun _ =>
      .bind (traces_emitCases_of ihb) fun _ => .bind (traces_caseFallback _ _ _) fun _ =>
        traces_emitElse_of iho
  | breakLoop => exact traces_emitBreak loop
  | continueLoop => exact traces_emitContinue loop
  | returnWith value => exact traces_emitReturn scene value

theorem traces_emitStatements (scene : Scene) (loop : Option Loop) (body : List Statement) :
    Traces Emission.Changes (emitStatements scene loop body) :=
  traces_emitStatements_of fun s _ loop => s.traces_emit scene loop

/-! ## What every emission keeps -/

/-- The temporary that an edit defines. -/
def Code.Edit.output : Edit → Option Nat
  | .push i | .pushEntry i => i.output
  | .addBlock _ | .switchTo _ | .terminate _ => none

/-- The temporaries that a draft defines, by `Edit.output`, in the order of its edits. -/
def Draft.outputs (d : Draft) : List Nat :=
  d.script.toList.filterMap Edit.output

/-- String constants are named by their positions, as `.str.n`. -/
def Stock.Numbered (s : Stock) : Prop :=
  s.strings.map (·.name) = (List.range s.strings.length).map (".str." ++ toString ·)

/-- A later state of a stock. -/
structure Stock.Grows (s t : Stock) : Prop where
  strings : s.strings <+: t.strings
  labels : s.labels ≤ t.labels
  temps : s.temps ≤ t.temps
  numbered : s.Numbered → t.Numbered

/-- A later state of an emission: nothing is taken back, and the temporaries defined in between
are new. -/
structure Emission.Grows (s t : Emission) : Prop where
  stock : s.stock.Grows t.stock
  outputs : ∃ new : List Nat, t.draft.outputs = s.draft.outputs ++ new ∧ new.Nodup
    ∧ ∀ n ∈ new, s.stock.temps ≤ n ∧ n < t.stock.temps

namespace Stock

variable {s t u : Stock}

theorem Grows.refl (s : Stock) : s.Grows s :=
  ⟨List.prefix_rfl, le_rfl, le_rfl, id⟩

/-- `Stock.Grows` composes: what was drawn and interned stays so. -/
theorem Grows.trans (h : s.Grows t) (h' : t.Grows u) : s.Grows u :=
  ⟨h.strings.trans h'.strings, h.labels.trans h'.labels, h.temps.trans h'.temps,
    h'.numbered ∘ h.numbered⟩

/-- `intern` adds a string behind those that are there, or none. -/
theorem grows_intern (s : Stock) (bytes : List UInt8) : s.Grows (s.intern bytes).2 := by
  unfold Stock.intern
  split
  · exact .refl s
  · refine ⟨List.prefix_append _ _, le_rfl, le_rfl, fun h => ?_⟩
    unfold Numbered at h ⊢
    rw [List.map_append, h, List.length_append, List.length_singleton, List.range_succ,
      List.map_append]
    rfl

/-- `intern` draws no temporary. -/
theorem temps_intern (s : Stock) (bytes : List UInt8) : (s.intern bytes).2.temps = s.temps := by
  unfold Stock.intern
  split <;> rfl

end Stock

/-- What `f` reads from the last edit of a script comes last. -/
theorem filterMap_concat {α : Type} (f : Edit → Option α) (script : List Edit) (e : Edit) :
    (script ++ [e]).filterMap f = script.filterMap f ++ (f e).toList := by
  rw [List.filterMap_append]
  cases h : f e <;> simp [h]

namespace Emission

/-- What `f` reads from the script after `edited` is what it read before, and what the new edit
gives. -/
theorem filterMap_edited {α : Type} (f : Edit → Option α) (s : Emission) (e : Edit) :
    (s.edited e).draft.script.toList.filterMap f
      = s.draft.script.toList.filterMap f ++ (f e).toList := by
  rw [edited, Array.toList_push, filterMap_concat]

/-- `Draft.outputs` gains what the new edit defines. -/
theorem outputs_edited (s : Emission) (e : Edit) :
    (s.edited e).draft.outputs = s.draft.outputs ++ e.output.toList :=
  filterMap_edited Edit.output s e

namespace Grows

variable {s t u : Emission}

/-- An emission `Grows` when its stock does, with the same draft. -/
theorem of_stock {stock : Stock} (h : s.stock.Grows stock) : s.Grows { s with stock } :=
  ⟨h, [], (List.append_nil _).symm, List.nodup_nil, fun _ hn => nomatch hn⟩

theorem refl (s : Emission) : s.Grows s :=
  of_stock (.refl _)

/-- `Emission.Grows` composes, so it holds along every run of steps. -/
theorem trans (h : s.Grows t) (h' : t.Grows u) : s.Grows u := by
  obtain ⟨new, hnew, hnodup, hbounds⟩ := h.outputs
  obtain ⟨new', hnew', hnodup', hbounds'⟩ := h'.outputs
  refine ⟨h.stock.trans h'.stock, new ++ new', by rw [hnew', hnew, List.append_assoc], ?_, ?_⟩
  · -- the later temporaries are at least as great as the counter was in between
    refine hnodup.append hnodup' fun n hn hn' => ?_
    exact absurd (hbounds n hn).2 (Nat.not_lt.mpr (hbounds' n hn').1)
  · intro n hn
    rcases List.mem_append.mp hn with hn | hn
    · exact ⟨(hbounds n hn).1, (hbounds n hn).2.trans_le h'.stock.temps⟩
    · exact ⟨h.stock.temps.trans (hbounds' n hn).1, (hbounds' n hn).2⟩

/-- An edit that defines no temporary makes the emission grow, without a change of the stock. -/
theorem edited {e : Edit} (h : e.output = none) : s.Grows (s.edited e) := by
  refine ⟨.refl _, [], ?_, List.nodup_nil, fun _ hn => nomatch hn⟩
  rw [outputs_edited, h]
  rfl

/-- An edit that defines the temporary just drawn makes the emission grow: the output is new and
below the counter. -/
theorem drawn {e : Edit} (h : e.output = some s.stock.temps) : s.Grows (s.drawn.edited e) := by
  refine ⟨⟨List.prefix_rfl, le_rfl, Nat.le_succ _, id⟩, [s.stock.temps], ?_,
    List.nodup_singleton _, List.forall_mem_singleton.mpr ⟨le_rfl, Nat.lt_succ_self _⟩⟩
  rw [outputs_edited, h]
  rfl

end Grows

theorem Extends.grows {s t : Emission} (h : s.Extends t) : s.Grows t := by
  cases h with
  | push h => exact .edited h
  | define h _ => exact .drawn h
  | string text => exact .of_stock (s.stock.grows_intern _)

theorem Changes.grows {s t : Emission} (h : s.Changes t) : s.Grows t := by
  cases h with
  | extend h => exact h.grows
  | cell ty => exact .drawn rfl
  | terminate t => exact .edited rfl
  | move label => exact .edited rfl
  | block name =>
    refine ⟨⟨List.prefix_rfl, Nat.le_succ _, le_rfl, id⟩, [], ?_, List.nodup_nil,
      fun _ hn => nomatch hn⟩
    simp [withBlock, Draft.outputs, Edit.output]

/-- Whatever is emitted, the emission `Grows`: temporaries are defined once and stay below the
counter. -/
theorem grows_of_changes {s t : Emission} (h : ReflTransGen Changes s t) : s.Grows t := by
  induction h with
  | refl => exact .refl s
  | tail _ hstep ih => exact ih.trans hstep.grows

end Emission

end Oberon
