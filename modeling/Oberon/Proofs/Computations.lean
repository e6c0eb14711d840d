import Oberon.Proofs.Operations

/-!
# Expressions at work

At a moment that depicts a store, the code of an expression computes the value of the expression
in that store, or has its fault, and leaves the world as it was.
-/

namespace Oberon

open Code Machine

/-! ## What names mean -/

/-- The value of a constant. -/
def Constant.datum : Constant → Datum
  | .integer value => .integer value
  | .real value => .real value
  | .boolean value => .boolean value
  | .string value => .string (some value)

/-- What names mean in code: a constant, or a variable that `findVariable` allows to use. -/
def Environment.scope (env : Environment) : Scope := fun name =>
  match env.lookup name with
  | some (.constant value) => some (.constant value.datum)
  | _ =>
    match Emit.findVariable env name with
    | .ok cell => some (.variable cell.ty)
    | .error _ => none

/-- `Environment.scope` has the value of each constant. -/
theorem Environment.scope_constant {env : Environment} {name : String} {value : Constant}
    (h : env.lookup name = some (.constant value)) :
    env.scope name = some (.constant value.datum) := by
  simp only [scope, h]

/-- What `findVariable` finds is what the name is bound to. -/
theorem Emit.lookup_of_findVariable {env : Environment} {name : String} {cell : Variable}
    (h : findVariable env name = .ok cell) : env.lookup name = some (.var cell) := by
  unfold findVariable at h
  split at h
  · rename_i found hfound
    split at h
    · obtain rfl := Except.ok.inj h
      exact hfound
    · exact nomatch h
  · exact nomatch h
  · exact nomatch h
  · exact nomatch h

/-- `Environment.scope` has the type of each variable that may be used. -/
theorem Environment.scope_variable {env : Environment} {name : String} {cell : Variable}
    (h : Emit.findVariable env name = .ok cell) : env.scope name = some (.variable cell.ty) := by
  simp only [scope, Emit.lookup_of_findVariable h, h]

/-- An environment without procedures. -/
def Environment.IsPlain (env : Environment) : Prop :=
  ∀ name signature, env.lookup name ≠ some (.procedure signature)

/-- Valid memory in which a variable of a type with `IsProper` can be. -/
structure Machine.Memory.Houses (m : Memory) (address : Nat) (ty : Ty) : Prop where
  isProper : ty.IsProper
  null : nullPage ≤ address
  finish : address + ty.width ≤ m.size
  addressable : address + ty.width < 2 ^ 64

/-- A moment that depicts a store: the strings have addresses, and each variable that `findVariable`
allows to use is in valid memory, which shows its values. -/
structure Depicts (image : Image) (c : Call) (env : Environment) (store : Store) (Γ : Moment) :
    Prop where
  texts : image.FindsTexts
  cell : ∀ {name : String} {cell : Variable}, Emit.findVariable env name = .ok cell →
    ∃ a, Γ.Has image c cell.storage (.int a) ∧ Γ.world.memory.Houses (addressOf a) cell.ty
      ∧ Γ.world.memory.Shows image (addressOf a) cell.ty (store name)

/-- Parts of a variable that memory `Houses` are in valid memory, too. -/
theorem Machine.Memory.Houses.check {m : Memory} {address : Nat} {ty found : Ty}
    {path : List Nat} (h : m.Houses address ty) (hpath : ty.HasPath path found) :
    m.check (address + ty.offset path) found.width = .ok () := by
  have hpart := (hpath.has address).bounds
  have hnull := h.null
  have hfinish := h.finish
  simp only [Object.finish] at hpart
  exact check_eq_ok (by omega) (by omega)

/-- An operand that is the address of a part of a variable, the one at `path`. -/
def IsPlaceOf (image : Image) (c : Call) (env : Environment) (Γ : Moment) (place : Value)
    (name : String) (path : List Nat) (ty : Ty) : Prop :=
  ∃ cell a b, Emit.findVariable env name = .ok cell ∧ Γ.Has image c cell.storage (.int a)
    ∧ cell.ty.HasPath path ty ∧ Γ.Has image c place (.int b)
    ∧ addressOf b = addressOf a + cell.ty.offset path

/-- Operands each of which `Denotes` an INTEGER, in a row. -/
def AreNumbers (image : Image) (c : Call) (Γ : Moment) (vs : List Value) (ns : List Int64) :
    Prop :=
  List.Forall₂ (fun v n => Denotes image c Γ v (.integer n)) vs ns

section

variable {image : Image} {c : Call} {env : Environment} {store : Store} {Γ Δ : Moment}
  {vs : List Value} {ns : List Int64}

/-- `Depicts` stays true at later moments of an unchanged world. -/
theorem Depicts.mono (h : Depicts image c env store Γ) (hle : Γ ≤ Δ)
    (hworld : Δ.world = Γ.world) : Depicts image c env store Δ := by
  refine ⟨h.texts, fun hcell => ?_⟩
  obtain ⟨a, ha, hhouse, hshows⟩ := h.cell hcell
  exact ⟨a, ha.mono hle, hworld ▸ hhouse, hworld ▸ hshows⟩

/-- `IsPlaceOf` stays true at later moments. -/
theorem IsPlaceOf.mono {place : Value} {name : String} {path : List Nat} {ty : Ty}
    (h : IsPlaceOf image c env Γ place name path ty) (hle : Γ ≤ Δ) :
    IsPlaceOf image c env Δ place name path ty := by
  obtain ⟨cell, a, b, hcell, ha, hpath, hb, haddress⟩ := h
  exact ⟨cell, a, b, hcell, ha.mono hle, hpath, hb.mono hle, haddress⟩

theorem AreNumbers.mono (h : AreNumbers image c Γ vs ns) (hle : Γ ≤ Δ) :
    AreNumbers image c Δ vs ns :=
  List.Forall₂.imp (fun _ _ h => h.mono hle) h

/-- `Image.ints` reads the numbers of all indices. -/
theorem AreNumbers.ints (h : AreNumbers image c Γ vs ns) (block : Block) (rest : List Instr) :
    image.ints (c.frame Γ block rest) vs = .ok ns := by
  induction h with
  | nil => rfl
  | cons hv _ ih =>
    rw [Image.ints, hv.integer.int, ih]
    rfl

end

namespace Emit

instance (value : Literal) : Straight (literal value) := ⟨traces_literal value⟩
instance (env : Environment) (name : String) (count : Nat) (indices : Emit (List Value))
    [h : Straight indices] : Straight (address env name count indices) :=
  ⟨traces_address h.traces⟩
instance (env : Environment) (e : Expr) : Straight (e.emit env) := ⟨e.traces_emit env⟩
instance (env : Environment) (es : List Expr) : Straight (emitIndices env es) :=
  ⟨traces_emitIndices fun e _ => e.traces_emit env⟩
instance (env : Environment) (selectors : List (List Expr)) :
    Straight (emitSelectors env selectors) :=
  ⟨traces_emitSelectors fun _ _ e _ => e.traces_emit env⟩
instance (env : Environment) (e : Expr) : Straight (e.emitCondition env) :=
  ⟨e.traces_emitCondition env⟩
instance (env : Environment) (d : Designator) : Straight (d.emitAddress env) :=
  ⟨d.traces_emitAddress env⟩

variable {image : Image} {c : Call} {env : Environment} {store : Store} {Γ : Moment}
  {name : String}

/-! ## Constants -/

/-- `string` interns its text as a constant of the program. -/
theorem computes_text (text : String) :
    Computes image c Γ (string text) (.ok ()) fun _ v _ =>
      ∃ k ∈ image.program.strings, k.bytes = Text.utf8Bytes text ∧ v = .string k.name := by
  intro s v t code hok hcode htemps hstrings block rest
  obtain ⟨rfl, rfl⟩ := string_eq_ok.mp hok
  obtain rfl := (s.adds_withString text).unique hcode
  obtain ⟨k, hk, hbytes, hname⟩ := s.stock.exists_intern (Text.utf8Bytes text)
  refine .refl ⟨Γ, le_rfl, ?_, rfl, rfl, k, hstrings hk, hbytes, by rw [hname]⟩
  exact htemps.symm.trans (s.stock.temps_intern _).symm

/-- The name of a string constant `Denotes` its text. -/
theorem denotes_string (hfinds : image.FindsTexts) {k : StringConstant} {text : String}
    (hk : k ∈ image.program.strings) (hbytes : k.bytes = Text.utf8Bytes text) :
    Denotes image c Γ (.string k.name) (.string (some text)) := by
  obtain ⟨address, hlookup, hlt⟩ := hfinds k hk
  refine ⟨rfl, _, .string hlookup, k, hk, hbytes, ?_⟩
  rw [hlookup, addressOf_ofNat hlt]

theorem computes_string (hfinds : image.FindsTexts) (text : String) :
    Computes image c Γ (string text) (.ok (.string (some text)))
      fun Δ v d => Denotes image c Δ v d := by
  refine Performs.map (g := fun _ => Datum.string (some text)) (computes_text text) fun _ h => ?_
  obtain ⟨hworld, k, hk, hbytes, rfl⟩ := h
  exact ⟨hworld, denotes_string hfinds hk hbytes⟩

theorem denotes_integer (n : Int64) : Denotes image c Γ (.integer n) (.integer n) :=
  .of_integer rfl (wrap_64 n ▸ .constant n 64)

theorem denotes_boolean (b : Bool) : Denotes image c Γ (.boolean b) (.boolean b) := by
  have hwrap : Word.wrap 1 (if b then 1 else 0) = Datum.ofTruth b := by cases b <;> rfl
  exact .of_boolean rfl (hwrap ▸ .constant _ 1)

/-- `literal` computes `Literal.datum`. -/
theorem computes_literal (hfinds : image.FindsTexts) (value : Literal) :
    Computes image c Γ (literal value) (.ok value.datum) fun Δ v d => Denotes image c Δ v d := by
  cases value with
  | integer n => exact .pure ⟨rfl, denotes_integer n⟩
  | real r => exact .pure ⟨rfl, .of_real rfl (.double r)⟩
  | boolean b => exact .pure ⟨rfl, denotes_boolean b⟩
  | string text => exact computes_string hfinds text
  | nil => exact .pure ⟨rfl, rfl, _, .null, rfl⟩

/-- `constant` computes `Constant.datum`. -/
theorem computes_constant (hfinds : image.FindsTexts) (value : Constant) :
    Computes image c Γ (constant value) (.ok value.datum) fun Δ v d => Denotes image c Δ v d := by
  cases value with
  | integer n => exact .pure ⟨rfl, denotes_integer n⟩
  | real r => exact .pure ⟨rfl, .of_real rfl (.double r)⟩
  | boolean b => exact .pure ⟨rfl, denotes_boolean b⟩
  | string text => exact computes_string hfinds text

/-! ## Designators -/

instance (base : Ty) (address : Value) (indices : List Value) :
    Straight (result .ptr (.element · base address indices)) :=
  ⟨traces_result fun _ => ⟨rfl, rfl⟩⟩

/-- An `element` instruction computes the address of the end of its path. -/
theorem computes_element {base element : Ty} {place : Value} {a : Int64} {vs : List Value}
    {ns : List Int64} (hproper : base.IsProper) (hbounds : addressOf a + base.width < 2 ^ 64)
    (ha : Γ.Has image c place (.int a)) (hvs : AreNumbers image c Γ vs ns)
    (hstrip : base.strip ns.length = some element) :
    Computes image c Γ (result .ptr (.element · base place (.integer 0 :: vs))) (base.follow ns)
      fun Δ u p => p.2 = element ∧ base.HasPath p.1 element ∧ ∃ b, Δ.Has image c u (.int b)
        ∧ addressOf b = addressOf a + base.offset p.1 := by
  have hresult : Computes image c Γ (result .ptr (.element · base place (.integer 0 :: vs)))
      (base.follow ns) fun Δ u p =>
        Δ.Has image c u (.int (a + Int64.ofNat (base.offset p.1))) ∧ u.ty = .ptr := by
    refine Performs.result (f := fun p : List Nat × Ty => .int (a + Int64.ofNat (base.offset p.1)))
      (fun _ => rfl) fun block rest => ?_
    have hints : image.ints (c.frame Γ block rest) (.integer 0 :: vs) = .ok (0 :: ns) := by
      rw [Image.ints, (denotes_integer 0).integer.int, hvs.ints]
      rfl
    simp only [Image.execute, Call.state, ha.int, hints]
    show (elementAddress base a (0 :: ns) >>= _) = _
    rw [elementAddress_eq_follow hproper hstrip]
    cases base.follow ns <;> rfl
  -- the path is known once the indices were followed, and with it where the place is
  refine Performs.imp (Performs.known hresult) fun {Δ u p} _ h => ?_
  obtain ⟨⟨hworld, hu, -⟩, hfollow⟩ := h
  obtain ⟨bad, hbad⟩ | ⟨path, hok⟩ := follow_strip hstrip
  · rw [hbad] at hfollow
    cases hfollow
  · obtain rfl := Except.ok.inj (hok.symm.trans hfollow)
    have hpath := Ty.hasPath_of_follow hfollow
    have hpart := (hpath.has (addressOf a)).bounds
    simp only [Object.finish] at hpart
    refine ⟨hworld, rfl, hpath, _, hu, addressOf_add_ofNat ?_⟩
    show addressOf a + base.offset path < 2 ^ 64
    omega

/-- `address` computes where a part of a variable is. -/
theorem computes_address {cell : Variable} {count : Nat} {indices : Emit (List Value)}
    [Straight indices] {r : Except Fault (List Int64)}
    (henv : Depicts image c env store Γ) (hcell : findVariable env name = .ok cell)
    (hi : Computes image c Γ indices r fun Δ vs ns =>
      vs.length = count ∧ AreNumbers image c Δ vs ns)
    (hzero : count = 0 → r = .ok []) :
    Computes image c Γ (address env name count indices) (r >>= cell.ty.follow) fun Δ p q =>
      p.2 = q.2 ∧ IsPlaceOf image c env Δ p.1 name q.1 q.2 := by
  obtain ⟨a, ha, hhouse, -⟩ := henv.cell hcell
  simp only [address, hcell]
  -- without indices the address is the variable itself, and no code is emitted
  by_cases hcount : count = 0
  · rw [if_pos hcount, hzero hcount]
    show Computes image c Γ _ (cell.ty.follow []) _
    rw [Ty.follow_nil]
    refine .pure ⟨rfl, rfl, cell, a, a, hcell, ha, Ty.hasPath_nil.mpr rfl, ha, ?_⟩
    rw [Ty.offset_nil, Nat.add_zero]
  · rw [if_neg hcount]
    cases hstrip : cell.ty.strip count with
    | none => exact .fail _
    | some element =>
      refine Computes.bind hi fun {Δ vs ns} hle hworld hvs => ?_
      obtain ⟨hlength, hvs⟩ := hvs
      have hstrip : cell.ty.strip ns.length = some element := by
        rw [← hvs.length_eq, hlength, hstrip]
      have helement := computes_element hhouse.isProper hhouse.addressable (ha.mono hle) hvs
        hstrip
      rw [← bind_pure (cell.ty.follow ns)]
      refine Computes.bind helement fun {Θ u q} hle' hworld' h => ?_
      obtain ⟨rfl, hpath, b, hb, haddress⟩ := h
      exact .pure ⟨rfl, rfl, cell, a, b, hcell, ha.mono (hle.trans hle'), hpath, hb, haddress⟩

/-- `load` computes the value that the store has at a place. -/
theorem computes_read {path : List Nat} {ty : Ty} {place : Value}
    (henv : Depicts image c env store Γ) (hty : ty.isArray = false)
    (hplace : IsPlaceOf image c env Γ place name path ty) :
    Computes image c Γ (load ty place) (.ok (store name path))
      fun Δ v d => Denotes image c Δ v d := by
  obtain ⟨cell, a, b, hcell, ha, hpath, hb, haddress⟩ := hplace
  obtain ⟨a', ha', hhouse, hshows⟩ := henv.cell hcell
  obtain rfl := Scalar.int.inj (ha.eq ha')
  have hscalar : ty.IsScalar :=
    ((hpath.has (addressOf a)).isProper hhouse.isProper).shaped.isScalar hty
  obtain ⟨hfound, hshown⟩ := hshows hpath hscalar
  have hread := Memory.read_eq hscalar (hhouse.check hpath)
  rw [← haddress] at hread hshown
  refine Performs.map (g := fun _ => store name path)
    (computes_load (f := fun _ : Unit => _) (x := ()) hb hread) fun _ h => ?_
  exact ⟨h.1, h.2.2.trans hfound.symm, _, h.2.1, hshown⟩

/-- `designator` of a name that is no constant is a load from its address. -/
theorem designator_eq (h : ∀ value, env.lookup name ≠ some (.constant value)) {plain : Bool}
    {count : Nat} {indices : Emit (List Value)} :
    designator env name plain count indices = (do
      let p ← address env name count indices
      if p.2.isArray then fail .arrayValue else load p.2 p.1) := by
  unfold designator
  split
  · rename_i value hlookup
    exact absurd hlookup (h value)
  · rfl

/-- `designator` computes what the scope and the store have for the name. -/
theorem computes_designator {plain : Bool} {count : Nat} {indices : Emit (List Value)}
    [Straight indices] {r : Except Fault (List Int64)}
    (henv : Depicts image c env store Γ)
    (hi : Computes image c Γ indices r fun Δ vs ns =>
      vs.length = count ∧ AreNumbers image c Δ vs ns)
    (hzero : count = 0 → r = .ok []) :
    Computes image c Γ (designator env name plain count indices)
      (match env.scope name with
        | some (.constant value) => .ok value
        | some (.variable ty) => do
          let indices ← r
          let (path, _) ← ty.follow indices
          .ok (store name path)
        | none => meaningless) fun Δ v d => Denotes image c Δ v d := by
  by_cases hconstant : ∃ value, env.lookup name = some (.constant value)
  · obtain ⟨value, hlookup⟩ := hconstant
    simp only [designator, hlookup, Environment.scope_constant hlookup]
    cases plain with
    | true => exact computes_constant henv.texts value
    | false => exact .fail _
  · rw [designator_eq fun value hlookup => hconstant ⟨value, hlookup⟩]
    cases hcell : findVariable env name with
    | error e =>
      have haddress : address env name count indices = fail e := by simp only [address, hcell]
      rw [haddress]
      exact .fail_bind _
    | ok cell =>
      rw [Environment.scope_variable hcell]
      show Computes image c Γ _ (r >>= fun indices => cell.ty.follow indices >>= fun q =>
        .ok (store name q.1)) _
      -- first the address, then what is read there
      rw [← bind_assoc]
      refine Computes.bind (computes_address henv hcell hi hzero) fun {Δ p q} hle hworld h => ?_
      obtain ⟨hty, hplace⟩ := h
      rw [hty]
      cases harray : q.2.isArray with
      | true => exact .fail _
      | false => exact computes_read (henv.mono hle hworld) harray hplace

/-- Where the environment `IsPlain`, without procedures, calls are refused. -/
theorem call_eq_fail (henv : env.IsPlain) (name : String) (count : Nat)
    (arguments : List Parameter → Emit (List Value)) :
    ∃ e, call env name count arguments = fail e := by
  unfold call
  split
  · exact ⟨_, rfl⟩
  · split
    · rename_i signature hlookup
      exact absurd hlookup (henv name signature)
    · exact ⟨_, rfl⟩

end Emit

/-! ## Expressions -/

/-- An expression in which nothing is called. -/
inductive Expr.CallFree : Expr → Prop
  | literal (value : Literal) : CallFree (.literal value)
  | designator {name : String} {selectors : List (List Expr)}
      (h : ∀ selector ∈ selectors, ∀ e ∈ selector, CallFree e) :
      CallFree (.designator name selectors)
  | not {operand : Expr} (h : CallFree operand) : CallFree (.not operand)
  | negate {operand : Expr} (h : CallFree operand) : CallFree (.negate operand)
  | binary {lhs rhs : Expr} (op : BinaryOp) (hl : CallFree lhs) (hr : CallFree rhs) :
      CallFree (.binary lhs op rhs)
  | relation {lhs rhs : Expr} (op : RelationOp) (hl : CallFree lhs) (hr : CallFree rhs) :
      CallFree (.relation lhs op rhs)

namespace Expr.CallFree

variable {lhs rhs operand : Expr}

/-- The indices of a `CallFree` designator are so too. -/
theorem index {name : String} {selectors : List (List Expr)} {selector : List Expr} {e : Expr}
    (h : CallFree (.designator name selectors)) (hs : selector ∈ selectors) (he : e ∈ selector) :
    CallFree e := by
  cases h with
  | designator h => exact h selector hs e he

theorem of_not (h : CallFree (.not operand)) : CallFree operand := by
  cases h with
  | not h => exact h

theorem of_negate (h : CallFree (.negate operand)) : CallFree operand := by
  cases h with
  | negate h => exact h

/-- The operands of a `CallFree` operation are so too. -/
theorem of_binary {op : BinaryOp} (h : CallFree (.binary lhs op rhs)) :
    CallFree lhs ∧ CallFree rhs := by
  cases h with
  | binary _ hl hr => exact ⟨hl, hr⟩

theorem of_relation {op : RelationOp} (h : CallFree (.relation lhs op rhs)) :
    CallFree lhs ∧ CallFree rhs := by
  cases h with
  | relation _ hl hr => exact ⟨hl, hr⟩

end Expr.CallFree

open Emit

section

variable {image : Image} {c : Call} {env : Environment} {store : Store} {Γ : Moment}

/-- `emitIndices` computes `evalIndices`, if each expression computes its value. -/
theorem computes_emitIndices {es : List Expr} (henv : Depicts image c env store Γ)
    (h : ∀ e ∈ es, ∀ Δ, Depicts image c env store Δ →
      Computes image c Δ (e.emit env) (e.eval env.scope store)
        fun Θ v d => Denotes image c Θ v d) :
    Computes image c Γ (emitIndices env es) (evalIndices env.scope store es) fun Δ vs ns =>
      vs.length = es.length ∧ AreNumbers image c Δ vs ns := by
  induction es generalizing Γ with
  | nil =>
    rw [emitIndices, evalIndices]
    exact .pure ⟨rfl, rfl, .nil⟩
  | cons e rest ih =>
    rw [emitIndices, evalIndices]
    refine Computes.bind (h e List.mem_cons_self Γ henv) fun hle hworld hv => ?_
    have henv := henv.mono hle hworld
    refine Computes.bind (computes_index hv) fun hle hworld hfirst => ?_
    have henv := henv.mono hle hworld
    have hrest := ih henv fun e he => h e (List.mem_cons_of_mem _ he)
    refine Computes.bind hrest fun hle _ hothers => ?_
    exact .pure ⟨rfl, congrArg (· + 1) hothers.1, .cons (hfirst.mono hle) hothers.2⟩

/-- `emitSelectors` computes `evalSelectors`, if each expression computes its value. -/
theorem computes_emitSelectors {selectors : List (List Expr)}
    (henv : Depicts image c env store Γ)
    (h : ∀ selector ∈ selectors, ∀ e ∈ selector, ∀ Δ,
      Depicts image c env store Δ →
      Computes image c Δ (e.emit env) (e.eval env.scope store)
        fun Θ v d => Denotes image c Θ v d) :
    Computes image c Γ (emitSelectors env selectors) (evalSelectors env.scope store selectors)
      fun Δ vs ns => vs.length = indexCount selectors ∧ AreNumbers image c Δ vs ns := by
  induction selectors generalizing Γ with
  | nil =>
    rw [emitSelectors, evalSelectors]
    exact .pure ⟨rfl, rfl, .nil⟩
  | cons selector rest ih =>
    rw [emitSelectors, evalSelectors]
    refine Computes.bind (computes_emitIndices henv (h selector List.mem_cons_self))
      fun hle hworld hfirst => ?_
    have henv := henv.mono hle hworld
    have hrest := ih henv fun s hs => h s (List.mem_cons_of_mem _ hs)
    refine Computes.bind hrest fun hle _ hothers => ?_
    refine .pure ⟨rfl, ?_, List.rel_append (hfirst.2.mono hle) hothers.2⟩
    rw [List.length_append, hfirst.1, hothers.1]
    simp [indexCount]

/-- Selectors with an `indexCount` of 0 have nothing to evaluate. -/
theorem evalSelectors_of_indexCount {scope : Scope} {selectors : List (List Expr)}
    (h : indexCount selectors = 0) : evalSelectors scope store selectors = .ok [] := by
  induction selectors with
  | nil => rw [evalSelectors]
  | cons selector rest ih =>
    have hsum : selector.length = 0 ∧ indexCount rest = 0 := by
      simpa [indexCount] using h
    obtain rfl := List.length_eq_zero_iff.mp hsum.1
    rw [evalSelectors, evalIndices, ih hsum.2]
    rfl

/-- `Expr.emit` computes `Expr.eval`, if the expression holds no calls or these are refused. -/
theorem Expr.computes_emit_of (e : Expr) (h : e.CallFree ∨ env.IsPlain) :
    ∀ Γ, Depicts image c env store Γ →
      Computes image c Γ (e.emit env) (e.eval env.scope store)
        fun Δ v d => Denotes image c Δ v d := by
  induction e using Expr.induction with
  | literal value =>
    intro Γ henv
    rw [Expr.emit, Expr.eval]
    exact computes_literal henv.texts value
  | designator name selectors ih =>
    intro Γ henv
    rw [Expr.emit, Expr.eval]
    refine computes_designator henv (computes_emitSelectors henv fun selector hs e he => ?_)
      evalSelectors_of_indexCount
    exact ih selector hs e he (h.imp_left fun h => h.index hs he)
  | call callee arguments =>
    intro Γ henv
    -- where nothing can be called, a call does not compile
    obtain ⟨⟨⟩⟩ | hplain := h
    obtain ⟨e, he⟩ := call_eq_fail hplain callee arguments.length
      fun parameters => emitArguments env callee 1 parameters arguments
    rw [Expr.emit, he]
    exact .fail_bind _
  | not operand ih =>
    intro Γ henv
    rw [Expr.emit, Expr.eval]
    exact Computes.bind (ih (h.imp_left .of_not) Γ henv) fun _ _ hv => computes_not hv
  | negate operand ih =>
    intro Γ henv
    rw [Expr.emit, Expr.eval]
    exact Computes.bind (ih (h.imp_left .of_negate) Γ henv) fun _ _ hv => computes_negate hv
  | binary lhs op rhs ihl ihr =>
    intro Γ henv
    rw [Expr.emit, Expr.eval]
    refine Computes.bind (ihl (h.imp_left fun h => h.of_binary.1) Γ henv) fun hle hworld ha => ?_
    refine Computes.bind (ihr (h.imp_left fun h => h.of_binary.2) _ (henv.mono hle hworld))
      fun hle' _ hb => ?_
    exact computes_arithmetic op (ha.mono hle') hb
  | relation lhs op rhs ihl ihr =>
    intro Γ henv
    rw [Expr.emit, Expr.eval]
    refine Computes.bind (ihl (h.imp_left fun h => h.of_relation.1) Γ henv)
      fun hle hworld ha => ?_
    refine Computes.bind (ihr (h.imp_left fun h => h.of_relation.2) _ (henv.mono hle hworld))
      fun {Θ w b} hle' _ hb => ?_
    refine Performs.of_eq ?_ (Performs.map (g := Datum.boolean)
      (computes_compare op (ha.mono hle') hb) fun _ h => h)
    exact bind_pure_comp ..

/-- Where the environment `IsPlain`, the code of every expression computes its value. -/
theorem Expr.computes_emit (hplain : env.IsPlain) (e : Expr) :
    ∀ Γ, Depicts image c env store Γ →
      Computes image c Γ (e.emit env) (e.eval env.scope store)
        fun Δ v d => Denotes image c Δ v d :=
  e.computes_emit_of (.inr hplain)

/-- `Expr.emitCondition` computes whether the condition `holds`. -/
theorem Expr.computes_emitCondition (hplain : env.IsPlain) (e : Expr)
    (henv : Depicts image c env store Γ) :
    Computes image c Γ (e.emitCondition env) (e.holds env.scope store)
      fun Δ v b => Denotes image c Δ v (.boolean b) :=
  Computes.bind (e.computes_emit hplain Γ henv) fun _ _ hv => computes_truth hv

/-- `Designator.emitAddress` computes where `Designator.locate` leads. -/
theorem Designator.computes_emitAddress (hplain : env.IsPlain) (d : Designator)
    (henv : Depicts image c env store Γ) :
    Computes image c Γ (d.emitAddress env) (d.locate env.scope store) fun Δ p q =>
      p.2 = q.2 ∧ IsPlaceOf image c env Δ p.1 d.name q.1 q.2 := by
  unfold Designator.emitAddress
  cases hcell : findVariable env d.name with
  | error e =>
    have haddress : address env d.name (indexCount d.selectors) (emitSelectors env d.selectors)
        = Emit.fail e := by simp only [address, hcell]
    rw [haddress]
    exact .fail _
  | ok cell =>
    have hindices := computes_emitSelectors henv fun _ (_ : _ ∈ d.selectors) e _ =>
      e.computes_emit hplain
    simp only [Designator.locate, Environment.scope_variable hcell]
    exact computes_address henv hcell hindices evalSelectors_of_indexCount

end

end Oberon
