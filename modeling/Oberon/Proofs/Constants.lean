import Oberon.Proofs.StaticValues

/-!
# Constants at run time

An expression with a value at compile time can be compiled wherever it stands, and its code
computes that value. Compile-time arithmetic has no value where run-time arithmetic would wrap
around or fault, so the two agree on every value there is.
-/

namespace Oberon

open Code Machine Relation

/-! ## Operators -/

namespace Constant

/-- A value that is known is the one that a running program has. -/
theorem eq_ok_of_static {o : Option Constant} {static : Bool} {r : Except Fault Datum}
    {c : Constant} (h : o = some c)
    (heq : o.map datum = if static then r.toOption else none) : r = .ok c.datum := by
  rw [h] at heq
  split at heq
  · cases r with
    | error e => exact nomatch heq
    | ok d => exact congrArg Except.ok (Option.some.inj heq).symm
  · exact nomatch heq

variable {a b c : Constant}

/-- `Constant.binary` is `Datum.binary` where it has a value. -/
theorem binary_datum {op : BinaryOp} (h : a.binary op b = some c) :
    a.datum.binary op b.datum = .ok c.datum :=
  eq_ok_of_static h (a.binary_eq b op)

/-- `Constant.relation` is `Datum.relation` where it has a value. -/
theorem relation_datum {op : RelationOp} (h : a.relation op b = some c) :
    ∃ holds, c = .boolean holds ∧ a.datum.relation op b.datum = .ok holds := by
  have hvalue := eq_ok_of_static h (a.relation_eq b op)
  cases hholds : a.datum.relation op b.datum with
  | error e =>
    rw [hholds] at hvalue
    exact nomatch hvalue
  | ok holds =>
    rw [hholds] at hvalue
    refine ⟨holds, ?_, rfl⟩
    cases c with
    | boolean value => exact congrArg boolean (Datum.boolean.inj (Except.ok.inj hvalue)).symm
    | integer value => exact nomatch hvalue
    | real value => exact nomatch hvalue
    | string value => exact nomatch hvalue

/-- `Constant.negate` is `Datum.negate` where it has a value. -/
theorem negate_datum (h : a.negate = some c) : a.datum.negate = .ok c.datum :=
  eq_ok_of_static h a.negate_eq

/-- `Constant.not` is the negation of `Datum.truth` where it has a value. -/
theorem not_datum (h : a.not = some c) :
    (do let b ← a.datum.truth; .ok (Datum.boolean !b)) = .ok c.datum := by
  rw [← eq_ok_of_static h a.not_eq]
  cases a.datum.truth <;> rfl

end Constant

/-! ## Compilation -/

namespace Emit

/-- An action that gives an operand of type `ty`, wherever it is emitted. -/
def Gives (x : Emit Value) (ty : Ty) : Prop :=
  ∀ s, ∃ v t, x s = .ok (v, t) ∧ v.ty = ty

theorem gives_pure {v : Value} {ty : Ty} (h : v.ty = ty) : Gives (pure v) ty :=
  fun s => ⟨v, s, rfl, h⟩

theorem gives_result (ty : Ty) (instr : Nat → Instr) : Gives (result ty instr) ty :=
  fun _ => ⟨_, _, rfl, rfl⟩

theorem gives_string (text : String) : Gives (string text) .ptr := by
  intro s
  obtain ⟨v, t, h⟩ : ∃ v t, string text s = .ok (v, t) := ⟨_, _, string_eq_ok.mpr ⟨rfl, rfl⟩⟩
  obtain ⟨rfl, -⟩ := string_eq_ok.mp h
  exact ⟨_, t, h, rfl⟩

/-- `Gives` of a sequence: the second action may count on the type of the first result. -/
theorem Gives.bind {x : Emit Value} {f : Value → Emit Value} {ty ty' : Ty} (hx : Gives x ty)
    (hf : ∀ v, v.ty = ty → Gives (f v) ty') : Gives (x >>= f) ty' := by
  intro s
  obtain ⟨v, t, hv, hty⟩ := hx s
  obtain ⟨w, u, hw, hty'⟩ := hf v hty t
  exact ⟨w, u, bind_eq_ok.mpr ⟨v, t, hv, hw⟩, hty'⟩

/-- A type whose values can be converted to `into`, in which they meet others. -/
def Meets (ty into : Ty) : Prop :=
  ty = into ∨ ty = .integer ∧ into = .real

/-- `coerce` gives an operand of the type that the given one `Meets`. -/
theorem gives_coerce {v : Value} {ty into : Ty} (hv : v.ty = ty) (h : Meets ty into) :
    Gives (coerce v into) into := by
  rcases h with rfl | ⟨rfl, rfl⟩
  · subst hv
    rw [show coerce v v.ty = pure v by simp only [coerce, if_true]]
    exact gives_pure rfl
  · rw [show coerce v .real = result .real (.cast · .sitofp v .real) by simp [coerce, hv]]
    exact gives_result _ _

/-- `unify` gives operands of their common type, for an action that works on them there. -/
theorem gives_unify {v w : Value} {into ty : Ty} {f : Value × Value → Emit Value}
    (hcommon : Ty.common v.ty w.ty = some into) (hv : Meets v.ty into) (hw : Meets w.ty into)
    (hf : ∀ v w : Value, v.ty = into → w.ty = into → Gives (f (v, w)) ty) :
    Gives (unify v w >>= f) ty := by
  have hunify : unify v w >>= f
      = coerce v into >>= fun v => coerce w into >>= fun w => f (v, w) := by
    simp only [unify, hcommon, bind_assoc, pure_bind]
  rw [hunify]
  exact (gives_coerce rfl hv).bind fun v hv => (gives_coerce rfl hw).bind fun w hw => hf v w hv hw

/-- `arithmetic` gives an operand of the common type, if there is an operation for it. -/
theorem gives_arithmetic {v w : Value} {into : Ty} {op : BinaryOp} {o : BinOp}
    (hcommon : Ty.common v.ty w.ty = some into) (hv : Meets v.ty into) (hw : Meets w.ty into)
    (hop : opFor? into op = some o) : Gives (arithmetic op v w) into := by
  refine gives_unify hcommon hv hw fun v w hv hw => ?_
  simp only [hv, hop, binary]
  exact gives_result _ _

/-- `compare` gives a BOOLEAN, if the common type can be compared. -/
theorem gives_compare {v w : Value} {into : Ty} (op : RelationOp)
    (hcommon : Ty.common v.ty w.ty = some into) (hv : Meets v.ty into) (hw : Meets w.ty into)
    (hinto : into.isInteger = true ∨ into = .real) : Gives (compare op v w) .boolean := by
  refine gives_unify hcommon hv hw fun v w hv hw => ?_
  cases into with
  | int bits =>
    simp only [hv]
    exact gives_result _ _
  | real =>
    simp only [hv]
    exact gives_result _ _
  | void => simp [Ty.isInteger] at hinto
  | ptr => simp [Ty.isInteger] at hinto
  | array length element => simp [Ty.isInteger] at hinto

end Emit

namespace Constant

open Emit

/-- The type that a constant has in code. -/
def ty : Constant → Ty
  | .integer _ => .integer
  | .real _ => .real
  | .boolean _ => .boolean
  | .string _ => .string

variable {a b c : Constant} {v w : Value}

/-- `constant` gives an operand of the type of the constant. -/
theorem gives_constant (c : Constant) : Gives (constant c) c.ty := by
  cases c with
  | integer n => exact gives_pure rfl
  | real r => exact gives_pure rfl
  | boolean b => exact gives_pure rfl
  | string text => exact gives_string text

theorem gives_binary {op : BinaryOp} (h : a.binary op b = some c) (hv : v.ty = a.ty)
    (hw : w.ty = b.ty) : Gives (arithmetic op v w) c.ty := by
  have hreal {x y : Double} (h : (realOp op x y).map Constant.real = some c) :
      c.ty = .real ∧ ∃ o, opFor? .real op = some o := by
    obtain ⟨r, hr, rfl⟩ := Option.map_eq_some_iff.mp h
    refine ⟨rfl, ?_⟩
    cases op <;> first | exact ⟨_, rfl⟩ | exact nomatch hr
  -- where one operand is a REAL, the other is made one
  match a, b, h with
  | .integer x, .integer y, h =>
    obtain ⟨n, hn, rfl⟩ := Option.map_eq_some_iff.mp h
    obtain ⟨o, ho⟩ : ∃ o, opFor? .integer op = some o := by cases op <;> exact ⟨_, rfl⟩
    exact gives_arithmetic (by rw [hv, hw]; rfl) (.inl hv) (.inl hw) ho
  | .boolean x, .boolean y, h =>
    obtain ⟨n, hn, rfl⟩ := Option.map_eq_some_iff.mp h
    obtain ⟨o, ho⟩ : ∃ o, opFor? .boolean op = some o := by cases op <;> exact ⟨_, rfl⟩
    exact gives_arithmetic (by rw [hv, hw]; rfl) (.inl hv) (.inl hw) ho
  | .integer x, .real y, h =>
    obtain ⟨hty, o, ho⟩ := hreal h
    rw [hty]
    exact gives_arithmetic (by rw [hv, hw]; rfl) (.inr ⟨hv, rfl⟩) (.inl hw) ho
  | .real x, .integer y, h =>
    obtain ⟨hty, o, ho⟩ := hreal h
    rw [hty]
    exact gives_arithmetic (by rw [hv, hw]; rfl) (.inl hv) (.inr ⟨hw, rfl⟩) ho
  | .real x, .real y, h =>
    obtain ⟨hty, o, ho⟩ := hreal h
    rw [hty]
    exact gives_arithmetic (by rw [hv, hw]; rfl) (.inl hv) (.inl hw) ho

theorem gives_relation {op : RelationOp} (h : a.relation op b = some c) (hv : v.ty = a.ty)
    (hw : w.ty = b.ty) : Gives (compare op v w) c.ty := by
  obtain ⟨holds, rfl, -⟩ := relation_datum h
  match a, b, h with
  | .integer x, .integer y, h =>
    exact gives_compare op (by rw [hv, hw]; rfl) (.inl hv) (.inl hw) (.inl rfl)
  | .boolean x, .boolean y, h =>
    exact gives_compare op (by rw [hv, hw]; rfl) (.inl hv) (.inl hw) (.inl rfl)
  | .integer x, .real y, h =>
    exact gives_compare op (by rw [hv, hw]; rfl) (.inr ⟨hv, rfl⟩) (.inl hw) (.inr rfl)
  | .real x, .integer y, h =>
    exact gives_compare op (by rw [hv, hw]; rfl) (.inl hv) (.inr ⟨hw, rfl⟩) (.inr rfl)
  | .real x, .real y, h =>
    exact gives_compare op (by rw [hv, hw]; rfl) (.inl hv) (.inl hw) (.inr rfl)

theorem gives_negate (h : a.negate = some c) (hv : v.ty = a.ty) : Gives (Emit.negate v) c.ty := by
  match a, h with
  | .integer x, h =>
    obtain ⟨n, hn, rfl⟩ := Option.map_eq_some_iff.mp h
    simp only [Emit.negate, hv, ty]
    exact gives_result _ _
  | .real x, h =>
    obtain rfl := Option.some.inj h
    simp only [Emit.negate, hv, ty]
    exact gives_result _ _

theorem gives_not (h : a.not = some c) (hv : v.ty = a.ty) : Gives (Emit.not v) c.ty := by
  have htruth {x : Emit Value} (hx : Gives x .boolean) :
      Gives (x >>= fun value => Emit.binary .xor value (.boolean true)) .boolean := by
    refine hx.bind fun v hv => ?_
    rw [Emit.binary, hv]
    exact gives_result _ _
  match a, h with
  | .integer x, h =>
    obtain rfl := Option.some.inj h
    refine htruth ?_
    simp only [truth, hv, ty]
    exact gives_result _ _
  | .boolean x, h =>
    obtain rfl := Option.some.inj h
    refine htruth ?_
    simp only [truth, hv, ty]
    exact gives_pure hv

end Constant

/-- A name has a value by `Expr.fold` only if it is that of a constant. -/
theorem Expr.fold_designator {env : Environment} {name : String} {selectors : List (List Expr)}
    {c : Constant} (h : (Expr.designator name selectors).fold env = some c) :
    selectors = [] ∧ env.lookup name = some (.constant c) := by
  cases selectors with
  | cons selector rest =>
    rw [Expr.fold] at h
    cases h
  | nil =>
    rw [Expr.fold] at h
    split at h
    · rename_i value hlookup
      exact ⟨rfl, Option.some.inj h ▸ hlookup⟩
    · cases h

/-- An expression that `Expr.fold` gives a value can be compiled anywhere. -/
theorem Expr.gives_emit {env : Environment} (e : Expr) {c : Constant} (h : e.fold env = some c) :
    Emit.Gives (e.emit env) c.ty := by
  induction e using Expr.induction generalizing c with
  | literal value =>
    rw [Expr.emit]
    rw [Expr.fold] at h
    cases value with
    | nil => cases h
    | integer n =>
      obtain rfl := Option.some.inj h
      exact Emit.gives_pure rfl
    | real r =>
      obtain rfl := Option.some.inj h
      exact Emit.gives_pure rfl
    | boolean b =>
      obtain rfl := Option.some.inj h
      exact Emit.gives_pure rfl
    | string text =>
      obtain rfl := Option.some.inj h
      exact Emit.gives_string text
  | designator name selectors ih =>
    -- only a constant without selectors has a value at compile time
    obtain ⟨rfl, hlookup⟩ := Expr.fold_designator h
    rw [Expr.emit]
    simp only [Emit.designator, hlookup, List.isEmpty_nil, if_true]
    exact Constant.gives_constant c
  | call callee arguments => cases h
  | not operand ih =>
    rw [Expr.fold] at h
    obtain ⟨a, ha, h⟩ := Option.bind_eq_some_iff.mp h
    rw [Expr.emit]
    exact (ih ha).bind fun v hv => Constant.gives_not h hv
  | negate operand ih =>
    rw [Expr.fold] at h
    obtain ⟨a, ha, h⟩ := Option.bind_eq_some_iff.mp h
    rw [Expr.emit]
    exact (ih ha).bind fun v hv => Constant.gives_negate h hv
  | binary lhs op rhs ihl ihr =>
    rw [Expr.fold] at h
    obtain ⟨a, ha, h⟩ := Option.bind_eq_some_iff.mp h
    obtain ⟨b, hb, h⟩ := Option.bind_eq_some_iff.mp h
    rw [Expr.emit]
    exact (ihl ha).bind fun v hv => (ihr hb).bind fun w hw => Constant.gives_binary h hv hw
  | relation lhs op rhs ihl ihr =>
    rw [Expr.fold] at h
    obtain ⟨a, ha, h⟩ := Option.bind_eq_some_iff.mp h
    obtain ⟨b, hb, h⟩ := Option.bind_eq_some_iff.mp h
    rw [Expr.emit]
    exact (ihl ha).bind fun v hv => (ihr hb).bind fun w hw => Constant.gives_relation h hv hw

/-! ## Execution -/

/-- The string constants of a program are in memory, which `HasText` of each. -/
def Machine.Image.HoldsTexts (image : Image) (m : Memory) : Prop :=
  ∀ k ∈ image.program.strings, ∃ address, image.symbols.lookup k.name = some address
    ∧ address < 2 ^ 64 ∧ m.HasText address k.bytes

/-- The scalar that represents a constant at run time. -/
def Machine.Scalar.Represents (image : Image) (m : Memory) (x : Scalar) : Constant → Prop
  | .integer n => x = .int n
  | .real r => x = .real r
  | .boolean b => x = .int (if b then -1 else 0)
  | .string text => ∃ k ∈ image.program.strings, k.bytes = Text.utf8Bytes text
    ∧ ∃ address, image.symbols.lookup k.name = some address ∧ m.HasText address k.bytes
      ∧ x = .ofAddress address

/-- A scalar that `Shows` the value of a constant `Represents` it, in memory that holds the
texts. -/
theorem Machine.Scalar.Shows.represents {image : Image} {m : Memory} {x : Scalar} {c : Constant}
    (h : x.Shows image c.datum) (hm : image.HoldsTexts m) : x.Represents image m c := by
  cases c with
  | integer n => exact h.integer
  | real r => exact h.real
  | boolean b => exact h.boolean
  | string text =>
    have h : x.Shows image (.string (some text)) := h
    obtain ⟨n, rfl⟩ := h.string
    obtain ⟨k, hk, hbytes, hlookup⟩ := h
    obtain ⟨address, hlookup', -, htext⟩ := hm k hk
    obtain rfl := Option.some.inj (hlookup.symm.trans hlookup')
    exact ⟨k, hk, hbytes, addressOf n, hlookup, htext, congrArg Scalar.int (ofNat_addressOf n).symm⟩

section

open Emit

variable {image : Image} {call : Call} {env : Environment}

/-- The code of an expression computes the value that `Expr.fold` gives it, if any. -/
theorem Expr.computes_fold (hfinds : image.FindsTexts) (e : Expr) {c : Constant}
    (h : e.fold env = some c) (Γ : Moment) :
    Computes image call Γ (e.emit env) (.ok c.datum) fun Δ v d => Denotes image call Δ v d := by
  induction e using Expr.induction generalizing c Γ with
  | literal value =>
    have hvalue : value.datum = c.datum := by
      rw [Expr.fold] at h
      cases value with
      | nil => cases h
      | _ => exact congrArg Constant.datum (Option.some.inj h)
    rw [Expr.emit, ← hvalue]
    exact computes_literal hfinds value
  | designator name selectors ih =>
    obtain ⟨rfl, hlookup⟩ := Expr.fold_designator h
    rw [Expr.emit]
    simp only [Emit.designator, hlookup, List.isEmpty_nil, if_true]
    exact computes_constant hfinds c
  | call callee arguments => cases h
  | not operand ih =>
    rw [Expr.fold] at h
    obtain ⟨a, ha, h⟩ := Option.bind_eq_some_iff.mp h
    rw [Expr.emit, ← Constant.not_datum h]
    exact Computes.bind_ok (ih ha Γ) fun _ _ hv => computes_not hv
  | negate operand ih =>
    rw [Expr.fold] at h
    obtain ⟨a, ha, h⟩ := Option.bind_eq_some_iff.mp h
    rw [Expr.emit, ← Constant.negate_datum h]
    exact Computes.bind_ok (ih ha Γ) fun _ _ hv => computes_negate hv
  | binary lhs op rhs ihl ihr =>
    rw [Expr.fold] at h
    obtain ⟨a, ha, h⟩ := Option.bind_eq_some_iff.mp h
    obtain ⟨b, hb, h⟩ := Option.bind_eq_some_iff.mp h
    rw [Expr.emit, ← Constant.binary_datum h]
    refine Computes.bind_ok (ihl ha Γ) fun _ _ hv => ?_
    exact Computes.bind_ok (ihr hb _) fun hle _ hw => computes_arithmetic op (hv.mono hle) hw
  | relation lhs op rhs ihl ihr =>
    rw [Expr.fold] at h
    obtain ⟨a, ha, h⟩ := Option.bind_eq_some_iff.mp h
    obtain ⟨b, hb, h⟩ := Option.bind_eq_some_iff.mp h
    obtain ⟨holds, rfl, hholds⟩ := Constant.relation_datum h
    -- a comparison gives a truth value, which the semantics wraps into a datum
    have hresult : Except.ok (Constant.boolean holds).datum
        = (a.datum.relation op b.datum).map Datum.boolean := by
      rw [hholds]
      rfl
    rw [Expr.emit, hresult]
    refine Computes.bind_ok (ihl ha Γ) fun _ _ hv => ?_
    refine Computes.bind_ok (ihr hb _) fun hle _ hw => ?_
    exact Performs.map (computes_compare op (hv.mono hle) hw) fun _ h => h

end

/-- An expression with a value at compile time compiles wherever it stands, to an operand of the
type of the value and code in the current block. Wherever that code is run, in memory that holds
the string constants, it faults at nothing, changes nothing but temporaries, and leaves the
operand with the representation of the value. -/
theorem Expr.runs_fold {e : Expr} {env : Environment} {c : Constant} (h : e.fold env = some c)
    (s : Emission) :
    ∃ v t code, e.emit env s = .ok (v, t) ∧ s.Adds code t ∧ v.ty = c.ty
      ∧ ∀ (image : Image) (M : State) (rest : List Instr),
        t.stock.strings ⊆ image.program.strings → image.HoldsTexts M.world.memory →
        M.frame.rest = code ++ rest →
        ∃ n temps x, (∀ budget fuel, image.run budget (n + fuel) M
            = image.run budget fuel { M with frame := { M.frame with temps, rest } })
          ∧ image.value { M.frame with temps, rest } v = .ok x
          ∧ x.Represents image M.world.memory c := by
  obtain ⟨v, t, hemit, hty⟩ := e.gives_emit h s
  obtain ⟨code, hcode⟩ := Emit.Straight.exists_adds hemit
  refine ⟨v, t, code, hemit, hcode, hty, ?_⟩
  intro image M rest hstrings htexts hrest
  have hfinds : image.FindsTexts := by
    intro k hk
    obtain ⟨address, hlookup, hlt, -⟩ := htexts k hk
    exact ⟨address, hlookup, hlt⟩
  -- the state as a moment of a call
  set call : Call := ⟨M.frame.function, M.frame.blocks, M.frame.arguments, M.frame.base,
    M.frame.out, M.callers⟩
  set Γ : Moment := ⟨M.world, M.frame.temps, s.stock.temps⟩
  have hstate : M = call.state Γ M.frame.block (code ++ rest) := by
    rw [← hrest]
    rfl
  obtain ⟨N, hmoves, Δ, -, -, rfl, hworld, hdenotes⟩ :=
    e.computes_fold hfinds h Γ hemit hcode rfl hstrings M.frame.block rest
  rw [← hstate] at hmoves
  obtain ⟨n, hrun⟩ := Image.run_of_moves hmoves
  obtain ⟨-, x, hx, hshows⟩ := hdenotes
  refine ⟨n, Δ.temps, x, fun budget fuel => ?_, hx.value _ _, hshows.represents htexts⟩
  rw [hrun]
  show image.run budget fuel ⟨Δ.world, _, _⟩ = _
  rw [hworld]
  rfl

/-- An expression with a division and a truth value made from a number, where `n` is 7. -/
def Expr.quotient : Expr :=
  .binary (.relation (.binary (.designator "n" []) .div (.negate (.literal (.integer 2)))) .less
    (.literal (.integer 2))) .and (.not (.literal (.integer 0)))

/-- A program without anything in it. -/
def Machine.Image.bare : Image :=
  ⟨{ name := "M", target := "" }, []⟩

/-- A state with nothing but code to run. -/
def Machine.State.bare (code : List Instr) : State :=
  ⟨{ memory := .initial, input := [] },
    ⟨"f", #[], [], {}, nullPage, none, { name := "b", instrs := code }, code⟩, []⟩

theorem Expr.runs_fold_quotient :
    ∃ v t code, Expr.quotient.emit { frames := [[("n", .constant (.integer 7))]] } ⟨{}, {}⟩
        = .ok (v, t) ∧ v.ty = .boolean
      ∧ ∃ n temps, (∀ budget fuel, Image.bare.run budget (n + fuel) (.bare code)
          = Image.bare.run budget fuel
            { State.bare code with frame := { (State.bare code).frame with temps, rest := [] } })
        ∧ Image.bare.value { (State.bare code).frame with temps, rest := [] } v
          = .ok (.int (-1)) := by
  have hfold : Expr.quotient.fold { frames := [[("n", .constant (.integer 7))]] }
      = some (.boolean true) := by
    decide +kernel
  have hstrings : ∀ r ∈ (Expr.quotient.emit { frames := [[("n", .constant (.integer 7))]] }
      ⟨{}, {}⟩).toOption, r.2.stock.strings = [] := by
    decide +kernel
  obtain ⟨v, t, code, hemit, -, hty, hrun⟩ := Expr.runs_fold hfold ⟨{}, {}⟩
  have hnone : t.stock.strings = [] := hstrings (v, t) (by rw [hemit]; rfl)
  obtain ⟨n, temps, x, hsteps, hvalue, rfl⟩ := hrun .bare (.bare code) []
    (by rw [hnone]; exact List.nil_subset _) (List.forall_mem_nil _) (List.append_nil code).symm
  exact ⟨v, t, code, hemit, hty, n, temps, hsteps, hvalue⟩

end Oberon
