import Oberon.Proofs.Blocks
import Oberon.Proofs.Computations

/-!
# Expressions without calls

An expression without calls that compiles has a meaning: over variables of their types, its value
has the type of the operand that it was compiled to, unless the evaluation divides by zero or
leaves an array. Its code sets temporaries and does nothing else. So wherever the code is run, it
comes to the value of the expression or stops at its first fault, in the same world.
-/

namespace Oberon

open Code Machine Relation

/-! ## Meanings -/

/-- A fault that `Expr.eval` can have. -/
def Machine.Fault.IsOfExpression : Fault → Prop
  | .divisionByZero => True
  | .indexOutOfRange _ => True
  | _ => False

/-- A result that is as `Q` says, or a fault of expressions. -/
def Settles {δ : Type} (r : Except Fault δ) (Q : δ → Prop) : Prop :=
  match r with
  | .ok d => Q d
  | .error e => e.IsOfExpression

/-- Where an action succeeds, the result `r` that it stands for `Settles`. -/
def Emit.Means {α δ : Type} (x : Emit α) (r : Except Fault δ) (Q : α → δ → Prop) : Prop :=
  ∀ ⦃s a t⦄, x s = .ok (a, t) → Settles r (Q a)

namespace Emit

section

variable {α β δ ε : Type} {x : Emit α} {r : Except Fault δ} {Q : α → δ → Prop}

theorem Means.pure {a : α} {d : δ} (h : Q a d) : Means (Pure.pure a) (.ok d) Q := by
  intro s b t hok
  obtain ⟨rfl, rfl⟩ := pure_eq_ok.mp hok
  exact h

/-- An action that fails `Means` anything: the semantics has something to say only about what
compiles. -/
theorem Means.fail (e : CompileError) : Means (Emit.fail e) r Q :=
  fun _ _ _ hok => (Emit.fail_eq_ok.mp hok).elim

theorem Means.fail_bind (e : CompileError) {f : β → Emit α} : Means (Emit.fail e >>= f) r Q := by
  intro s a t hok
  obtain ⟨b, u, hb, -⟩ := bind_eq_ok.mp hok
  exact (Emit.fail_eq_ok.mp hb).elim

/-- `Means` of a sequence: the second part is compared for each pair that the first one relates. -/
theorem Means.bind {f : α → Emit β} {g : δ → Except Fault ε} {R : β → ε → Prop}
    (hx : Means x r Q) (hf : ∀ {a d}, Q a d → Means (f a) (g d) R) :
    Means (x >>= f) (r >>= g) R := by
  intro s b t hok
  obtain ⟨a, u, ha, hb⟩ := bind_eq_ok.mp hok
  have hr := hx ha
  cases r with
  | ok d => exact hf hr hb
  | error e => exact hr

/-- `Emit.result` has one outcome, a temporary of its type, so only the semantic side is to
settle. -/
theorem Means.result {ty : Ty} {instr : Nat → Instr} {Q : Value → δ → Prop}
    (h : ∀ n, Settles r (Q (.temp n ty))) : Means (Emit.result ty instr) r Q := by
  intro s v t hok
  obtain ⟨rfl, -⟩ := result_eq_ok.mp hok
  exact h _

/-- `Means` with the semantic result read by `g`. -/
theorem Means.map {g : δ → ε} {R : α → ε → Prop} (hx : Means x r Q)
    (h : ∀ {a d}, Q a d → R a (g d)) : Means x (r.map g) R := by
  intro s a t hok
  have hr := hx hok
  cases r with
  | ok d => exact h hr
  | error e => exact hr

end

/-! ## Operators -/

variable {v w : Value} {d e : Datum} {ty into : Ty}

theorem ty_of_truth : Means (truth v) (.ok ()) fun u _ => u.ty = .boolean := by
  unfold truth
  split
  · exact .pure (by assumption)
  · exact .result fun _ => rfl
  · exact .result fun _ => rfl
  · exact .fail _

/-- `coerce` gives a value of the type that it is asked for. -/
theorem ty_of_coerce : Means (coerce v into) (.ok ()) fun u _ => u.ty = into := by
  unfold coerce
  split
  · exact .pure (by assumption)
  · split
    · exact ty_of_truth
    · exact .result fun _ => rfl
    · exact .result fun _ => rfl
    · exact .result fun _ => rfl
    · exact .fail _

/-- `truth` compiles for the values that `Datum.truth` accepts. -/
theorem means_truth (h : v.ty = d.ty) : Means (truth v) d.truth fun u _ => u.ty = .boolean := by
  intro s u t hok
  cases d with
  | string text => simp [truth, h, Datum.ty, fail] at hok
  | _ => exact ty_of_truth hok

theorem means_toInteger (h : v.ty = d.ty) :
    Means (coerce v .integer) d.toInteger fun u _ => u.ty = .integer := by
  intro s u t hok
  cases d with
  | string text => simp [coerce, h, Datum.ty, fail] at hok
  | _ => exact ty_of_coerce hok

/-- `coerce` to a REAL compiles for the values that `Datum.toReal` accepts. -/
theorem means_toReal (h : v.ty = d.ty) :
    Means (coerce v .real) d.toReal fun u _ => u.ty = .real := by
  intro s u t hok
  cases d with
  | string text => simp [coerce, h, Datum.ty, fail] at hok
  | _ => exact ty_of_coerce hok

/-- `coerce` to any type of values is `Datum.convert`. -/
theorem means_coerce (hbits : ∀ bits, into = .int bits → bits = 64 ∨ bits = 1)
    (h : v.ty = d.ty) :
    Means (coerce v into) (d.convert into) fun u e => u.ty = e.ty ∧ u.ty = into := by
  cases into with
  | int bits =>
    rcases hbits bits rfl with rfl | rfl
    · exact Means.map (means_toInteger h) fun hu => ⟨hu, hu⟩
    · rw [coerce_boolean]
      exact Means.map (means_truth h) fun hu => ⟨hu, hu⟩
  | real => exact Means.map (means_toReal h) fun hu => ⟨hu, hu⟩
  | ptr =>
    intro s u t hok
    cases d with
    | string text => exact ⟨ty_of_coerce hok, ty_of_coerce hok⟩
    | _ => simp [coerce, h, Datum.ty, fail] at hok
  | void =>
    intro s u t hok
    cases d <;> simp [coerce, h, Datum.ty, fail] at hok
  | array length element =>
    intro s u t hok
    cases d <;> simp [coerce, h, Datum.ty, fail] at hok

/-- `index` compiles for the values that `Datum.index` accepts. -/
theorem means_index (h : v.ty = d.ty) :
    Means (index v) d.index fun u _ => u.ty = .integer := by
  cases d with
  | integer n =>
    rw [show index v = coerce v .integer by simp only [index, h, Datum.ty]]
    exact means_toInteger h
  | boolean b =>
    rw [show index v = coerce v .integer by simp only [index, h, Datum.ty]]
    exact means_toInteger h
  | real r =>
    simp only [index, h, Datum.ty]
    exact .fail _
  | string text =>
    simp only [index, h, Datum.ty]
    exact .fail _

/-- `unify` brings operands to one type, and `meet` the values. -/
theorem means_unify (h : v.ty = d.ty) (h' : w.ty = e.ty) (hty : Ty.common d.ty e.ty = some ty) :
    Means (unify v w) (meet ty d e) fun operands values =>
      operands.1.ty = values.1.ty ∧ operands.2.ty = values.2.ty
        ∧ operands.1.ty = operands.2.ty := by
  have hbits : ∀ bits, ty = .int bits → bits = 64 ∨ bits = 1 := by
    rintro bits rfl
    exact common_bits hty
  have hcommon : Ty.common v.ty w.ty = some ty := by rw [h, h', hty]
  simp only [unify, hcommon]
  refine Means.bind (means_coerce hbits h) fun ha => ?_
  refine Means.bind (means_coerce hbits h') fun hb => ?_
  exact .pure ⟨ha.1, hb.1, ha.2.trans hb.2.symm⟩

/-- `Datum.integerOp` has a result, but for a division by zero, which is a fault of expressions. -/
theorem settles_integerOp (op : BinaryOp) (a b : Int64) :
    Settles (Datum.integerOp op a b) fun _ => True := by
  have hdivision (q : Int64) :
      Settles (if b = 0 then .error .divisionByZero else .ok q) fun _ => True := by
    split <;> trivial
  cases op with
  | divide => exact hdivision (a / b)
  | div => exact hdivision (a / b)
  | mod => exact hdivision (a % b)
  | _ => trivial

theorem settles_booleanOp (op : BinaryOp) (a b : Bool) :
    Settles (Datum.booleanOp op a b) fun _ => True := by
  cases op <;> cases b <;> trivial

/-- `Datum.realOp` has a result for the operators that `opFor?` knows on REALs. -/
theorem settles_realOp {op : BinaryOp} {o : BinOp} (h : opFor? .real op = some o) (a b : Double) :
    Settles (Datum.realOp op a b) fun _ => True := by
  cases op <;> trivial

/-- `operation` compiles where `operate` has a result, on operands of one type. -/
theorem means_operate (op : BinaryOp) (h : v.ty = d.ty) (h' : w.ty = e.ty) (hty : v.ty = w.ty) :
    Means (operation op v w) (operate op d e) fun u d => u.ty = d.ty := by
  unfold operation
  cases hop : opFor? v.ty op with
  | none => exact .fail _
  | some o =>
    -- whatever the instruction, its result has the type of the left operand
    have hresult {δ : Type} {r : Except Fault δ} {f : δ → Datum} (hr : Settles r fun _ => True)
        (hf : ∀ x, (f x).ty = v.ty) :
        Means (binary o v w) (r.map f) fun u d => u.ty = d.ty := by
      refine Means.map (Q := fun u _ => u.ty = v.ty) (.result fun n => ?_)
        fun hu => hu.trans (hf _).symm
      cases r with
      | ok x => rfl
      | error e => exact hr
    rw [h, h'] at hty
    match d, e, hty with
    | .integer a, .integer b, _ => exact hresult (settles_integerOp op a b) fun _ => h.symm
    | .boolean a, .boolean b, _ => exact hresult (settles_booleanOp op a b) fun _ => h.symm
    | .real a, .real b, _ =>
      rw [h] at hop
      exact hresult (settles_realOp hop a b) fun _ => h.symm
    | .string a, .string b, _ =>
      rw [h] at hop
      -- no instruction works on strings
      cases op <;> cases hop

/-- `arithmetic` compiles where `Datum.binary` has a result or a fault of expressions. -/
theorem means_arithmetic (op : BinaryOp) (h : v.ty = d.ty) (h' : w.ty = e.ty) :
    Means (arithmetic op v w) (d.binary op e) fun u d => u.ty = d.ty := by
  rw [arithmetic_eq]
  cases hty : Ty.common d.ty e.ty with
  | none =>
    rw [unify_eq_fail h h' hty]
    exact .fail_bind _
  | some ty =>
    rw [binary_eq_operate op hty]
    exact Means.bind (means_unify h h' hty) fun hp => means_operate op hp.1 hp.2.1 hp.2.2

theorem means_relate (op : RelationOp) (h : v.ty = d.ty) (h' : w.ty = e.ty) (hty : v.ty = w.ty) :
    Means (comparison op v w) (relate op d e) fun u _ => u.ty = .boolean := by
  rw [h, h'] at hty
  unfold comparison
  rw [h]
  match d, e, hty with
  | .integer a, .integer b, _ => exact .result fun _ => rfl
  | .boolean a, .boolean b, _ => exact .result fun _ => rfl
  | .real a, .real b, _ => exact .result fun _ => rfl
  | .string a, .string b, _ => exact .fail _

/-- `compare` compiles where `Datum.relation` has a result. -/
theorem means_compare (op : RelationOp) (h : v.ty = d.ty) (h' : w.ty = e.ty) :
    Means (compare op v w) (d.relation op e) fun u _ => u.ty = .boolean := by
  rw [compare_eq]
  cases hty : Ty.common d.ty e.ty with
  | none =>
    rw [unify_eq_fail h h' hty]
    exact .fail_bind _
  | some ty =>
    rw [relation_eq_relate op hty]
    exact Means.bind (means_unify h h' hty) fun hp => means_relate op hp.1 hp.2.1 hp.2.2

theorem means_not (h : v.ty = d.ty) :
    Means (not v) (do let b ← d.truth; .ok (Datum.boolean !b)) fun u d => u.ty = d.ty :=
  Means.bind (means_truth h) fun hu => .result fun _ => hu

/-- `negate` compiles where `Datum.negate` has a result. -/
theorem means_negate (h : v.ty = d.ty) : Means (negate v) d.negate fun u d => u.ty = d.ty := by
  cases d with
  | string text =>
    simp only [negate, h, Datum.ty]
    exact .fail _
  | _ =>
    simp only [negate, h, Datum.ty]
    exact .result fun _ => rfl

theorem means_string (text : String) :
    Means (string text) (.ok ()) fun v _ => v.ty = .string := by
  intro s v t hok
  obtain ⟨rfl, -⟩ := string_eq_ok.mp hok
  rfl

theorem means_literal (value : Literal) :
    Means (literal value) (.ok value.datum) fun v d => v.ty = d.ty := by
  cases value with
  | string text => exact Means.map (g := fun _ => Datum.string (some text)) (means_string text) id
  | _ => exact .pure rfl

theorem means_constant (value : Constant) :
    Means (constant value) (.ok value.datum) fun v d => v.ty = d.ty := by
  cases value with
  | string text => exact Means.map (g := fun _ => Datum.string (some text)) (means_string text) id
  | _ => exact .pure rfl

end Emit

/-! ## Designators -/

/-- Variables that `findVariable` allows to use have types of which there can be variables, and
values of these types. -/
def Environment.Types (env : Environment) (store : Store) : Prop :=
  ∀ ⦃name cell⦄, Emit.findVariable env name = .ok cell → cell.ty.IsProper
    ∧ ∀ ⦃path found⦄, cell.ty.HasPath path found → found.IsScalar → (store name path).ty = found

/-- Memory that `Depicts` a store has values of the declared types in it. -/
theorem Depicts.types {image : Image} {c : Call} {env : Environment} {store : Store} {Γ : Moment}
    (h : Depicts image c env store Γ) : env.Types store := by
  intro name cell hcell
  obtain ⟨a, -, hhouse, hshows⟩ := h.cell hcell
  exact ⟨hhouse.isProper, fun path found hpath hscalar => (hshows hpath hscalar).1⟩

namespace Emit

variable {env : Environment} {store : Store} {name : String}

/-- `address` leads where `Ty.follow` leads along the same indices. -/
theorem means_address {cell : Variable} {count : Nat} {indices : Emit (List Value)}
    {r : Except Fault (List Int64)} (hcell : findVariable env name = .ok cell)
    (hi : Means indices r fun vs ns => vs.length = count ∧ ns.length = count)
    (hzero : count = 0 → r = .ok []) :
    Means (address env name count indices) (r >>= cell.ty.follow) fun p q =>
      p.2 = q.2 ∧ cell.ty.HasPath q.1 q.2 := by
  simp only [address, hcell]
  by_cases hcount : count = 0
  · rw [if_pos hcount, hzero hcount]
    show Means _ (cell.ty.follow []) _
    rw [Ty.follow_nil]
    exact .pure ⟨rfl, Ty.hasPath_nil.mpr rfl⟩
  · rw [if_neg hcount]
    cases hstrip : cell.ty.strip count with
    | none => exact .fail _
    | some element =>
      refine Means.bind hi fun {vs ns} hlengths => ?_
      obtain ⟨-, rfl⟩ := hlengths
      intro s p t hok
      obtain ⟨place, u, -, hp⟩ := bind_eq_ok.mp hok
      obtain ⟨rfl, -⟩ := pure_eq_ok.mp hp
      -- the code is the same whether or not the indices are in range; only the meaning may fail
      obtain ⟨bad, hbad⟩ | ⟨path, hpath⟩ := follow_strip hstrip
      · rw [hbad]
        trivial
      · rw [hpath]
        exact ⟨rfl, Ty.hasPath_of_follow hpath⟩

/-- `designator` is the value that the scope and the store have for the name. -/
theorem means_designator {plain : Bool} {count : Nat} {indices : Emit (List Value)}
    {r : Except Fault (List Int64)} (hstore : env.Types store)
    (hi : Means indices r fun vs ns => vs.length = count ∧ ns.length = count)
    (hzero : count = 0 → r = .ok []) :
    Means (designator env name plain count indices)
      (match env.scope name with
        | some (.constant value) => .ok value
        | some (.variable ty) => do
          let indices ← r
          let (path, _) ← ty.follow indices
          .ok (store name path)
        | none => meaningless) fun v d => v.ty = d.ty := by
  by_cases hconstant : ∃ value, env.lookup name = some (.constant value)
  · obtain ⟨value, hlookup⟩ := hconstant
    simp only [designator, hlookup, Environment.scope_constant hlookup]
    cases plain with
    | true => exact means_constant value
    | false => exact .fail _
  · rw [designator_eq fun value hlookup => hconstant ⟨value, hlookup⟩]
    cases hcell : findVariable env name with
    | error e =>
      have haddress : address env name count indices = fail e := by simp only [address, hcell]
      rw [haddress]
      exact .fail_bind _
    | ok cell =>
      rw [Environment.scope_variable hcell]
      show Means _ (r >>= fun indices => cell.ty.follow indices >>= fun q =>
        .ok (store name q.1)) _
      -- read as an address followed by a load, as the code is
      rw [← bind_assoc]
      refine Means.bind (means_address hcell hi hzero) fun {p q} h => ?_
      obtain ⟨hty, hpath⟩ := h
      rw [hty]
      cases harray : q.2.isArray with
      | true => exact .fail _
      | false =>
        -- what is no array here is a scalar, for the type of a variable is proper
        obtain ⟨hproper, hvalues⟩ := hstore hcell
        have hscalar := ((hpath.has 0).isProper hproper).shaped.isScalar harray
        exact .result fun _ => (hvalues hpath hscalar).symm

end Emit

/-! ## Expressions -/

open Emit

section

variable {env : Environment} {store : Store}

/-- `emitIndices` and `evalIndices` have as many results as there are expressions. -/
theorem means_emitIndices {es : List Expr}
    (h : ∀ e ∈ es, Means (e.emit env) (e.eval env.scope store) fun v d => v.ty = d.ty) :
    Means (emitIndices env es) (evalIndices env.scope store es) fun vs ns =>
      vs.length = es.length ∧ ns.length = es.length := by
  induction es with
  | nil =>
    rw [emitIndices, evalIndices]
    exact .pure ⟨rfl, rfl⟩
  | cons e rest ih =>
    rw [emitIndices, evalIndices]
    refine Means.bind (h e List.mem_cons_self) fun hv => ?_
    refine Means.bind (means_index hv) fun _ => ?_
    refine Means.bind (ih fun e he => h e (List.mem_cons_of_mem _ he)) fun hothers => ?_
    exact .pure ⟨congrArg (· + 1) hothers.1, congrArg (· + 1) hothers.2⟩

/-- `emitSelectors` and `evalSelectors` have `indexCount` many results. -/
theorem means_emitSelectors {selectors : List (List Expr)}
    (h : ∀ selector ∈ selectors, ∀ e ∈ selector,
      Means (e.emit env) (e.eval env.scope store) fun v d => v.ty = d.ty) :
    Means (emitSelectors env selectors) (evalSelectors env.scope store selectors) fun vs ns =>
      vs.length = indexCount selectors ∧ ns.length = indexCount selectors := by
  induction selectors with
  | nil =>
    rw [emitSelectors, evalSelectors]
    exact .pure ⟨rfl, rfl⟩
  | cons selector rest ih =>
    rw [emitSelectors, evalSelectors]
    refine Means.bind (means_emitIndices (h selector List.mem_cons_self)) fun hfirst => ?_
    refine Means.bind (ih fun s hs => h s (List.mem_cons_of_mem _ hs)) fun hothers => ?_
    refine .pure ⟨?_, ?_⟩
    · rw [List.length_append, hfirst.1, hothers.1]
      simp [indexCount]
    · rw [List.length_append, hfirst.2, hothers.2]
      simp [indexCount]

/-- An expression that compiles has a meaning by `Expr.eval`: its value has the type of its
operand. -/
theorem Expr.means_emit {e : Expr} (h : e.CallFree) (hstore : env.Types store) :
    Means (e.emit env) (e.eval env.scope store) fun v d => v.ty = d.ty := by
  induction h with
  | literal value =>
    rw [Expr.emit, Expr.eval]
    exact means_literal value
  | designator _ ih =>
    rw [Expr.emit, Expr.eval]
    exact means_designator hstore (means_emitSelectors ih) evalSelectors_of_indexCount
  | not _ ih =>
    rw [Expr.emit, Expr.eval]
    exact Means.bind ih means_not
  | negate _ ih =>
    rw [Expr.emit, Expr.eval]
    exact Means.bind ih means_negate
  | binary op _ _ ihl ihr =>
    rw [Expr.emit, Expr.eval]
    exact Means.bind ihl fun ha => Means.bind ihr fun hb => means_arithmetic op ha hb
  | relation op _ _ ihl ihr =>
    rw [Expr.emit, Expr.eval]
    refine Means.bind ihl fun ha => Means.bind ihr fun {w b} hb => ?_
    show Means _ (_ >>= fun holds => pure (Datum.boolean holds)) _
    rw [bind_pure_comp]
    exact Means.map (means_compare op ha hb) id

end

/-! ## Code that only computes -/

/-- An instruction that sets a temporary and changes nothing else. -/
def Code.Instr.isQuiet : Instr → Bool
  | .alloca .. | .store .. | .call .. | .copy .. => false
  | _ => true

theorem Code.Instr.isAlloca_of_isQuiet {i : Instr} (h : i.isQuiet = true) : i.isAlloca = false := by
  cases i with
  | alloca out ty => cases h
  | _ => rfl

/-- An action whose code only sets temporaries: each instruction `isQuiet`. -/
class Emit.Quiet {α : Type} (x : Emit α) : Prop extends Straight x where
  quiet : ∀ ⦃s a t code⦄, x s = .ok (a, t) → s.Adds code t → ∀ i ∈ code, i.isQuiet = true

namespace Emit

variable {α β : Type}

instance (a : α) : Quiet (pure a) where
  quiet := by
    intro s b t code hok hcode i hi
    obtain ⟨-, rfl⟩ := pure_eq_ok.mp hok
    obtain rfl := (Emission.Adds.refl t).unique hcode
    cases hi

instance (e : CompileError) : Quiet (fail e : Emit α) where
  quiet := fun _ _ _ _ hok => (fail_eq_ok.mp hok).elim

instance {x : Emit α} {f : α → Emit β} [hx : Quiet x] [hf : ∀ a, Quiet (f a)] :
    Quiet (x >>= f) where
  quiet := by
    intro s b t code hok hcode i hi
    obtain ⟨a, u, ha, hb⟩ := bind_eq_ok.mp hok
    obtain ⟨first, hfirst⟩ := Straight.exists_adds ha
    obtain ⟨second, hsecond⟩ := Straight.exists_adds hb
    obtain rfl := (hfirst.trans hsecond).unique hcode
    rcases List.mem_append.mp hi with hi | hi
    · exact hx.quiet ha hfirst i hi
    · exact (hf a).quiet hb hsecond i hi

instance {p : Prop} [Decidable p] {x y : Emit α} [Quiet x] [Quiet y] :
    Quiet (if p then x else y) := by
  split <;> infer_instance

instance (text : String) : Quiet (string text) where
  quiet := by
    intro s v t code hok hcode i hi
    obtain ⟨-, rfl⟩ := string_eq_ok.mp hok
    obtain rfl := (s.adds_withString text).unique hcode
    cases hi

/-- `result` is `Quiet` if its instruction is. -/
theorem quiet_result {ty : Ty} {instr : Nat → Instr} (hout : ∀ n, (instr n).output = some n)
    (h : ∀ n, (instr n).isQuiet = true) : Quiet (result ty instr) where
  traces := traces_result fun n => ⟨hout n, Instr.isAlloca_of_isQuiet (h n)⟩
  quiet := by
    intro s v t code hok hcode i hi
    obtain ⟨-, rfl⟩ := result_eq_ok.mp hok
    obtain rfl := (s.adds_defined (hout _)).unique hcode
    rw [List.mem_singleton.mp hi]
    exact h _

instance (v : Value) : Quiet (truth v) := by
  unfold truth
  split
  · infer_instance
  · exact quiet_result (fun _ => rfl) fun _ => rfl
  · exact quiet_result (fun _ => rfl) fun _ => rfl
  · infer_instance

instance (v : Value) (into : Ty) : Quiet (coerce v into) := by
  unfold coerce
  split
  · infer_instance
  · split
    · infer_instance
    · exact quiet_result (fun _ => rfl) fun _ => rfl
    · exact quiet_result (fun _ => rfl) fun _ => rfl
    · exact quiet_result (fun _ => rfl) fun _ => rfl
    · infer_instance

instance (v w : Value) : Quiet (unify v w) := by
  unfold unify
  split <;> infer_instance

instance (op : BinOp) (v w : Value) : Quiet (binary op v w) :=
  quiet_result (fun _ => rfl) fun _ => rfl

instance (op : BinaryOp) (v w : Value) : Quiet (operation op v w) := by
  unfold operation
  split <;> infer_instance

instance (op : BinaryOp) (v w : Value) : Quiet (arithmetic op v w) := by
  rw [arithmetic_eq]
  infer_instance

instance (op : RelationOp) (v w : Value) : Quiet (comparison op v w) := by
  unfold comparison
  split
  · exact quiet_result (fun _ => rfl) fun _ => rfl
  · exact quiet_result (fun _ => rfl) fun _ => rfl
  · infer_instance

instance (op : RelationOp) (v w : Value) : Quiet (compare op v w) := by
  rw [compare_eq]
  infer_instance

instance (v : Value) : Quiet (not v) := by
  unfold not
  infer_instance

instance (v : Value) : Quiet (negate v) := by
  unfold negate
  split
  · exact quiet_result (fun _ => rfl) fun _ => rfl
  · exact quiet_result (fun _ => rfl) fun _ => rfl
  · infer_instance

instance (v : Value) : Quiet (index v) := by
  unfold index
  split <;> infer_instance

instance (ty : Ty) (place : Value) : Quiet (load ty place) :=
  quiet_result (fun _ => rfl) fun _ => rfl

instance (value : Literal) : Quiet (literal value) := by
  cases value <;> (unfold literal; infer_instance)

instance (value : Constant) : Quiet (constant value) := by
  cases value <;> (unfold constant; infer_instance)

instance (base : Ty) (place : Value) (indices : List Value) :
    Quiet (result .ptr (.element · base place indices)) :=
  quiet_result (fun _ => rfl) fun _ => rfl

instance (env : Environment) (name : String) (count : Nat) (indices : Emit (List Value))
    [Quiet indices] : Quiet (address env name count indices) := by
  unfold address
  split
  · infer_instance
  · split
    · infer_instance
    · split <;> infer_instance

instance (env : Environment) (name : String) (plain : Bool) (count : Nat)
    (indices : Emit (List Value)) [Quiet indices] :
    Quiet (designator env name plain count indices) := by
  unfold designator
  split <;> infer_instance

end Emit

theorem quiet_emitIndices {env : Environment} {es : List Expr}
    (h : ∀ e ∈ es, Quiet (e.emit env)) : Quiet (emitIndices env es) := by
  induction es with
  | nil =>
    rw [emitIndices]
    infer_instance
  | cons e rest ih =>
    have hfirst := h e List.mem_cons_self
    have hrest := ih fun e he => h e (List.mem_cons_of_mem _ he)
    rw [emitIndices]
    infer_instance

theorem quiet_emitSelectors {env : Environment} {selectors : List (List Expr)}
    (h : ∀ selector ∈ selectors, ∀ e ∈ selector, Quiet (e.emit env)) :
    Quiet (emitSelectors env selectors) := by
  induction selectors with
  | nil =>
    rw [emitSelectors]
    infer_instance
  | cons selector rest ih =>
    have hfirst := quiet_emitIndices (h selector List.mem_cons_self)
    have hrest := ih fun s hs => h s (List.mem_cons_of_mem _ hs)
    rw [emitSelectors]
    infer_instance

/-- The code of a `CallFree` expression only sets temporaries. -/
theorem Expr.CallFree.quiet_emit {e : Expr} (h : e.CallFree) (env : Environment) :
    Quiet (e.emit env) := by
  induction h with
  | literal value =>
    rw [Expr.emit]
    infer_instance
  | designator _ ih =>
    have := quiet_emitSelectors ih
    rw [Expr.emit]
    infer_instance
  | not _ ih =>
    rw [Expr.emit]
    infer_instance
  | negate _ ih =>
    rw [Expr.emit]
    infer_instance
  | binary op _ _ ihl ihr =>
    rw [Expr.emit]
    infer_instance
  | relation op _ _ ihl ihr =>
    rw [Expr.emit]
    infer_instance

namespace Machine

variable {image : Image} {c : Call} {Γ : Moment}

/-- `Image.value` does not depend on the place in the code. -/
theorem Image.value_frame (v : Value) (block : Block) (rest : List Instr) :
    image.value (c.frame Γ block rest) v = image.value (c.frame Γ { name := "" } []) v := by
  cases v <;> rfl

theorem Image.int_frame (v : Value) (block : Block) (rest : List Instr) :
    image.int (c.frame Γ block rest) v = image.int (c.frame Γ { name := "" } []) v := by
  rw [Image.int, Image.int, image.value_frame]

theorem Image.real_frame (v : Value) (block : Block) (rest : List Instr) :
    image.real (c.frame Γ block rest) v = image.real (c.frame Γ { name := "" } []) v := by
  rw [Image.real, Image.real, image.value_frame]

theorem Image.ints_frame (vs : List Value) (block : Block) (rest : List Instr) :
    image.ints (c.frame Γ block rest) vs = image.ints (c.frame Γ { name := "" } []) vs := by
  induction vs with
  | nil => rfl
  | cons v vs ih => rw [Image.ints, Image.ints, image.int_frame, ih]

theorem Image.cast_frame (op : CastOp) (v : Value) (into : Ty) (block : Block)
    (rest : List Instr) :
    image.cast (c.frame Γ block rest) op v into
      = image.cast (c.frame Γ { name := "" } []) op v into := by
  cases op <;> simp only [Image.cast, image.int_frame v block rest, image.real_frame v block rest]

/-- An instruction with `isQuiet` sets temporaries or fails, in the same way wherever it stands. -/
theorem Image.execute_quiet {i : Instr} (hi : i.isQuiet = true) :
    ∃ r : Except Fault (Std.TreeMap Nat Scalar), ∀ block rest,
      image.execute (c.state Γ block rest) i
        = r.map fun temps => c.state { Γ with temps } block rest := by
  -- run in an empty block, where no code follows: operands do not depend on either
  refine ⟨(image.execute (c.state Γ { name := "" } []) i).map (·.frame.temps),
    fun block rest => ?_⟩
  cases i with
  | load out ty place =>
    simp only [Image.execute, Call.state, image.int_frame place block rest]
    cases image.int (c.frame Γ { name := "" } []) place with
    | error e => rfl
    | ok a =>
      dsimp only [bind, Except.bind]
      cases Γ.world.memory.read ty (addressOf a) <;> rfl
  | binary out op lhs rhs =>
    simp only [Image.execute, Call.state, image.value_frame _ block rest]
    cases image.value (c.frame Γ { name := "" } []) lhs with
    | error e => rfl
    | ok a =>
      cases image.value (c.frame Γ { name := "" } []) rhs with
      | error e => rfl
      | ok b =>
        dsimp only [bind, Except.bind]
        cases Machine.binary op (widthOf lhs.ty) a b <;> rfl
  | fneg out v =>
    simp only [Image.execute, Call.state, image.real_frame v block rest]
    cases image.real (c.frame Γ { name := "" } []) v <;> rfl
  | icmp out predicate lhs rhs =>
    simp only [Image.execute, Call.state, image.int_frame _ block rest]
    cases image.int (c.frame Γ { name := "" } []) lhs with
    | error e => rfl
    | ok a => cases image.int (c.frame Γ { name := "" } []) rhs <;> rfl
  | fcmp out predicate lhs rhs =>
    simp only [Image.execute, Call.state, image.real_frame _ block rest]
    cases image.real (c.frame Γ { name := "" } []) lhs with
    | error e => rfl
    | ok a => cases image.real (c.frame Γ { name := "" } []) rhs <;> rfl
  | cast out op v into =>
    simp only [Image.execute, Call.state, image.cast_frame op v into block rest]
    cases image.cast (c.frame Γ { name := "" } []) op v into <;> rfl
  | element out ty place indices =>
    simp only [Image.execute, Call.state, image.int_frame place block rest,
      image.ints_frame indices block rest]
    cases image.int (c.frame Γ { name := "" } []) place with
    | error e => rfl
    | ok a =>
      cases image.ints (c.frame Γ { name := "" } []) indices with
      | error e => rfl
      | ok ns =>
        dsimp only [bind, Except.bind]
        cases elementAddress ty a ns <;> rfl
  | alloca out ty => cases hi
  | store v place => cases hi
  | call out target result arguments => cases hi
  | copy destination source bytes => cases hi

/-- Code of `isQuiet` instructions is run to its end, or up to an instruction that fails, whatever
follows it. -/
theorem Image.run_quiet {code : List Instr} (h : ∀ i ∈ code, i.isQuiet = true) :
    (∃ temps, ∀ block rest, ReflTransGen image.Moves (c.state Γ block (code ++ rest))
        (c.state { Γ with temps } block rest))
      ∨ ∃ temps more e, ∀ block rest, ReflTransGen image.Moves (c.state Γ block (code ++ rest))
          (c.state { Γ with temps } block (more ++ rest))
        ∧ image.step (c.state { Γ with temps } block (more ++ rest)) = .error e := by
  induction code generalizing Γ with
  | nil => exact .inl ⟨Γ.temps, fun block rest => .refl⟩
  | cons i code ih =>
    obtain ⟨hi, hcode⟩ := List.forall_mem_cons.mp h
    obtain ⟨r, hr⟩ := image.execute_quiet (c := c) (Γ := Γ) hi
    have hstep (block : Block) (rest : List Instr) :
        image.step (c.state Γ block (i :: code ++ rest))
          = r.map fun temps => .running (c.state { Γ with temps } block (code ++ rest)) := by
      show (image.execute (c.state Γ block (code ++ rest)) i >>= _) = _
      rw [hr]
      cases r <;> rfl
    -- the first instruction that fails is where the run stops
    cases r with
    | error e => exact .inr ⟨Γ.temps, i :: code, e, fun block rest => ⟨.refl, hstep block rest⟩⟩
    | ok temps =>
      rcases ih (Γ := { Γ with temps }) hcode with ⟨temps', hrun⟩ | ⟨temps', more, e, hrun⟩
      · exact .inl ⟨temps', fun block rest => (hrun block rest).head (hstep block rest)⟩
      · refine .inr ⟨temps', more, e, fun block rest => ⟨?_, (hrun block rest).2⟩⟩
        exact (hrun block rest).1.head (hstep block rest)

/-- From one state `Image.Moves` comes to one fault at most. -/
theorem Image.eq_of_faults {M N K : State} {e f : Fault} (hN : ReflTransGen image.Moves M N)
    (hK : ReflTransGen image.Moves M K) (he : image.step N = .error e)
    (hf : image.step K = .error f) : N = K ∧ e = f := by
  have hunique : Relator.RightUnique image.Moves := fun _ _ _ h h' =>
    Progress.running.inj (Except.ok.inj (h.symm.trans h'))
  have hstuck {N K : State} {e : Fault} (he : image.step N = .error e)
      (h : ReflTransGen image.Moves N K) : N = K := by
    rcases h.cases_head with heq | ⟨L, hmove, -⟩
    · exact heq
    · cases he.symm.trans hmove
  have hsame : N = K := by
    rcases hN.total_of_right_unique hunique hK with h | h
    · exact hstuck he h
    · exact (hstuck hf h).symm
  subst hsame
  exact ⟨rfl, Except.error.inj (he.symm.trans hf)⟩

/-- A fault with `IsOfExpression` to which quiet code leads, whatever follows it, is the fault of
one of its instructions. -/
theorem Image.fault_of_quiet {code : List Instr} {f : Fault}
    (h : ∀ i ∈ code, i.isQuiet = true) (hf : f.IsOfExpression)
    (hleads : ∃ N, ReflTransGen image.Moves (c.state Γ { name := "" } (code ++ [])) N
      ∧ image.step N = .error f) (block : Block) (rest : List Instr) :
    ∃ temps more, ReflTransGen image.Moves (c.state Γ block (code ++ rest))
        (c.state { Γ with temps } block more)
      ∧ image.step (c.state { Γ with temps } block more) = .error f := by
  obtain ⟨N, hN, hfault⟩ := hleads
  rcases image.run_quiet (c := c) (Γ := Γ) h with ⟨temps, hrun⟩ | ⟨temps, more, e, hrun⟩
  · -- a block without a terminator has no fault of expressions
    obtain ⟨-, rfl⟩ := image.eq_of_faults hN (hrun { name := "" } []) hfault rfl
    exact hf.elim
  · obtain ⟨hend, hstep⟩ := hrun { name := "" } []
    obtain ⟨-, rfl⟩ := image.eq_of_faults hN hend hfault hstep
    exact ⟨temps, more ++ rest, hrun block rest⟩

/-- The call that a state is in. -/
def State.call (M : State) : Call :=
  ⟨M.frame.function, M.frame.blocks, M.frame.arguments, M.frame.base, M.frame.out, M.callers⟩

/-- The moment that a state is at, when temporaries below `next` have been drawn. -/
def State.moment (M : State) (next : Nat) : Moment :=
  ⟨M.world, M.frame.temps, next⟩

end Machine

/-- An expression without calls, if it compiles, adds code to the current block and does nothing
else. Wherever that code is run, over memory that depicts the variables in scope, it changes
nothing but temporaries. It comes to its end, where the operand shows the value of the expression
and has its type; or it stops at the first division by zero or index out of range. -/
theorem Expr.runs_eval {e : Expr} (h : e.CallFree) {env : Environment} {s t : Emission} {v : Value}
    (hemit : e.emit env s = .ok (v, t)) :
    ∃ code, s.Adds code t
      ∧ (∀ start : Builder,
        start.run t.draft.script = (start.run s.draft.script).pushAll code)
      ∧ ∀ (image : Image) (M : State) (store : Store) (rest : List Instr),
        t.stock.strings ⊆ image.program.strings →
        Depicts image M.call env store (M.moment s.stock.temps) → M.frame.rest = code ++ rest →
        (∀ d, e.eval env.scope store = .ok d → v.ty = d.ty ∧ ∃ n temps x,
          (∀ budget fuel, image.run budget (n + fuel) M
            = image.run budget fuel { M with frame := { M.frame with temps, rest } })
          ∧ image.value { M.frame with temps, rest } v = .ok x ∧ x.Shows image d)
        ∧ ∀ f, e.eval env.scope store = .error f → f.IsOfExpression ∧ ∃ n temps more,
          (∀ budget fuel, image.run budget (n + fuel) M
            = image.run budget fuel { M with frame := { M.frame with temps, rest := more } })
          ∧ image.step { M with frame := { M.frame with temps, rest := more } } = .error f := by
  obtain ⟨code, hcode⟩ := Emit.Straight.exists_adds hemit
  refine ⟨code, hcode, hcode.run_eq, fun image M store rest hstrings hdepicts hrest => ?_⟩
  have hstate : M = M.call.state (M.moment s.stock.temps) M.frame.block (code ++ rest) := by
    rw [← hrest]
    rfl
  have hcomputes := e.computes_emit_of (.inl h) _ hdepicts hemit hcode rfl hstrings
  have hmeans := Expr.means_emit h hdepicts.types hemit
  refine ⟨fun d hd => ?_, fun f hf => ?_⟩
  · rw [hd] at hcomputes hmeans
    obtain ⟨N, hmoves, Δ, -, -, rfl, hworld, -, x, hx, hshows⟩ := hcomputes M.frame.block rest
    rw [← hstate] at hmoves
    obtain ⟨n, hrun⟩ := Image.run_of_moves hmoves
    refine ⟨hmeans, n, Δ.temps, x, fun budget fuel => ?_, hx.value _ _, hshows⟩
    rw [hrun]
    show image.run budget fuel ⟨Δ.world, _, _⟩ = _
    rw [hworld]
    rfl
  · rw [hf] at hcomputes hmeans
    have hquiet := (h.quiet_emit env).quiet hemit hcode
    obtain ⟨temps, more, hmoves, hstep⟩ := image.fault_of_quiet hquiet hmeans
      (hcomputes { name := "" } []) M.frame.block rest
    rw [← hstate] at hmoves
    obtain ⟨n, hrun⟩ := Image.run_of_moves hmoves
    exact ⟨hmeans, n, temps, more, hrun, hstep⟩

/-- `a[x MOD k, 2] DIV x + g`, where `a` has two dimensions and `g` is a truth value. -/
def Expr.share : Expr :=
  .binary (.binary (.designator "a" [[.binary (.designator "x" []) .mod (.designator "k" []),
    .literal (.integer 2)]]) .div (.designator "x" [])) .add (.designator "g" [])

namespace Share

/-- A variable of a procedure. -/
def x : Variable :=
  { name := "x", storage := .temp 0 .ptr, ty := .integer, level := 1 }

/-- A parameter of the procedure, passed by reference. -/
def a : Variable :=
  { name := "a", storage := .param 0 .ptr, ty := .array 2 (.array 3 .integer), byReference := true,
    level := 1 }

/-- A variable of the module. -/
def g : Variable :=
  { name := "g", storage := .global "M.g", ty := .boolean, isGlobal := true, level := 0 }

/-- The names in the procedure, with a constant `k`. -/
def env : Environment where
  frames := [[("k", .constant (.integer 2)), ("x", .var x), ("a", .var a)], [("g", .var g)]]

/-- The values of the variables. -/
def store : Store := fun name path =>
  if name = "a" then .integer (if path = [1, 2] then 40 else 0)
  else if name = "x" then .integer 7 else .boolean true

/-- A program with one global. -/
def image : Image :=
  ⟨{ name := "M", target := "" }, [("M.g", 72)]⟩

/-- Memory with the values of the variables: `a` at 16, `x` at 64 and `g` at 72. -/
def memory : Memory :=
  (((Memory.initial.extend 80).writeWord 56 8 40).writeWord 64 8 7).writeWord 72 1 255

/-- The call of the procedure at some code. -/
def state (code : List Instr) : State :=
  ⟨{ memory, input := [] },
    ⟨"M.p", #[], [.int 16], Std.TreeMap.ofList [(0, Scalar.int 64)], 80, none,
      { name := "b", instrs := code }, code⟩, []⟩

theorem callFree : Expr.share.CallFree := by
  refine .binary _ (.binary _ (.designator ?_) (.designator ?_)) (.designator ?_)
  · simp only [List.forall_mem_singleton, List.forall_mem_cons]
    exact ⟨.binary _ (.designator (by simp)) (.designator (by simp)), .literal _⟩
  · simp
  · simp

theorem eq_of_findVariable {name : String} {cell : Variable}
    (h : Emit.findVariable env name = .ok cell) :
    (name = "x" ∧ cell = x) ∨ (name = "a" ∧ cell = a) ∨ (name = "g" ∧ cell = g) := by
  have hlookup := Emit.lookup_of_findVariable h
  by_cases hk : name = "k"
  · subst hk
    cases hlookup
  by_cases hx : name = "x"
  · subst hx
    exact .inl ⟨rfl, (Named.var.inj (Option.some.inj hlookup)).symm⟩
  by_cases ha : name = "a"
  · subst ha
    exact .inr (.inl ⟨rfl, (Named.var.inj (Option.some.inj hlookup)).symm⟩)
  by_cases hg : name = "g"
  · subst hg
    exact .inr (.inr ⟨rfl, (Named.var.inj (Option.some.inj hlookup)).symm⟩)
  · simp [Environment.lookup, env, List.lookup_cons, beq_false_of_ne hk, beq_false_of_ne hx,
      beq_false_of_ne ha, beq_false_of_ne hg] at hlookup

/-- The array `a` of the example is shown by its bytes. -/
theorem shows_a : memory.Shows image 16 a.ty (store "a") := by
  intro path found hpath hscalar
  match path, hpath with
  | [], hpath =>
    obtain rfl := Ty.hasPath_nil.mp hpath
    exact hscalar.elim
  | [i], hpath =>
    obtain rfl := Ty.hasPath_nil.mp hpath.2
    exact hscalar.elim
  | [i, j], hpath =>
    obtain ⟨hi, hj, hfound⟩ := hpath
    obtain rfl := Ty.hasPath_nil.mp hfound
    refine ⟨rfl, ?_⟩
    have hvalues : ∀ i < 2, ∀ j < 3, Scalar.ofWord .integer
        (memory.readWord (16 + a.ty.offset [i, j]) 8)
          = .int (if [i, j] = [1, 2] then 40 else 0) := by
      decide +kernel
    rw [show Ty.integer.width = 8 from rfl, hvalues i hi j hj]
    rfl
  | i :: j :: k :: rest, hpath => exact hpath.2.2.elim

theorem shows_scalar {address : Nat} {ty : Ty} {d : Datum} (hty : ty.IsScalar) (hd : d.ty = ty)
    (h : (Scalar.ofWord ty (memory.readWord address ty.width)).Shows image d) :
    memory.Shows image address ty fun _ => d := by
  intro path found hpath _
  obtain rfl := hpath.eq_nil hty
  obtain rfl := Ty.hasPath_nil.mp hpath
  rw [Ty.offset_nil]
  exact ⟨hd, h⟩

/-- The memory of the example `Depicts` its store, whatever code is to run. -/
theorem depicts (code : List Instr) :
    Depicts image (state code).call env store ((state code).moment 1) := by
  have hinteger : Ty.integer.IsScalar := ⟨by decide, by decide⟩
  have hboolean : Ty.boolean.IsScalar := ⟨by decide, by decide⟩
  refine ⟨List.forall_mem_nil _, fun {name cell} hcell => ?_⟩
  rcases eq_of_findVariable hcell with ⟨rfl, rfl⟩ | ⟨rfl, rfl⟩ | ⟨rfl, rfl⟩
  · refine ⟨64, ⟨fun block rest => rfl, fun i ty hv => ?_⟩, ?_, shows_scalar hinteger rfl ?_⟩
    · obtain ⟨rfl, -⟩ := Value.temp.inj hv
      exact Nat.one_pos
    · have hhouse : addressOf 64 + 8 ≤ memory.size := by decide +kernel
      exact ⟨hinteger.isProper, by decide, hhouse, by decide⟩
    · show (_ : Int64) = 7
      decide +kernel
  · refine ⟨16, ⟨fun block rest => rfl, by rintro _ _ ⟨⟩⟩, ?_, shows_a⟩
    have hhouse : addressOf 16 + a.ty.width ≤ memory.size := by decide +kernel
    have hshaped : a.ty.IsShaped := ⟨by decide, by decide, by decide, by decide, hinteger⟩
    exact ⟨⟨hshaped, by decide⟩, by decide, hhouse, by decide⟩
  · refine ⟨72, ⟨fun block rest => rfl, by rintro _ _ ⟨⟩⟩, ?_, shows_scalar hboolean rfl ?_⟩
    · have hhouse : addressOf 72 + 1 ≤ memory.size := by decide +kernel
      exact ⟨hboolean.isProper, by decide, hhouse, by decide⟩
    · show (_ : Int64) = Datum.ofTruth true
      decide +kernel

end Share

theorem Expr.runs_eval_share :
    ∃ v t code, Expr.share.emit Share.env ⟨{ temps := 1 }, {}⟩ = .ok (v, t) ∧ v.ty = .integer
      ∧ ∃ n temps, (∀ budget fuel, Share.image.run budget (n + fuel) (Share.state code)
          = Share.image.run budget fuel
            { Share.state code with frame := { (Share.state code).frame with temps, rest := [] } })
        ∧ Share.image.value { (Share.state code).frame with temps, rest := [] } v
          = .ok (.int 4) := by
  have hok : (Expr.share.emit Share.env ⟨{ temps := 1 }, {}⟩).isOk = true := by decide +kernel
  have hstrings : ∀ r ∈ (Expr.share.emit Share.env ⟨{ temps := 1 }, {}⟩).toOption,
      r.2.stock.strings = [] := by
    decide +kernel
  have heval : Expr.share.eval Share.env.scope Share.store = .ok (.integer 4) := by
    decide +kernel
  obtain ⟨r, hemit⟩ := Except.exists_of_isOk hok
  obtain ⟨v, t⟩ := r
  obtain ⟨code, -, -, hrun⟩ := Expr.runs_eval Share.callFree hemit
  have hnone : t.stock.strings = [] := hstrings (v, t) (by rw [hemit]; rfl)
  obtain ⟨hvalue, -⟩ := hrun Share.image (Share.state code) Share.store []
    (by rw [hnone]; exact List.nil_subset _) (Share.depicts code) (List.append_nil code).symm
  obtain ⟨hty, n, temps, x, hsteps, hx, hshows⟩ := hvalue _ heval
  obtain rfl := hshows.integer
  exact ⟨v, t, code, hemit, hty, n, temps, hsteps, hx⟩

end Oberon
