import Oberon.Proofs.Computations
import Oberon.Proofs.Utf8

/-!
# Simple statements at work

A setting is a program in memory with the variables of a module in their places. At a moment that
agrees with a situation, the code of an assignment, of WRITE, WRITELN and READ leads to a moment
that agrees with the situation after the statement, or to its fault.
-/

namespace Oberon

open Code Machine

/-! ## Settings -/

/-- A program under way whose variables are all globals, each in one of the `objects` of its own. -/
structure Setting where
  image : Image
  call : Call
  floor : Nat
  objects : List Object
  env : Environment
  layout : Layout
  plain : env.IsPlain
  primitive : ∀ f ∈ Module.primitives, image.program.function? f.name = some f
  cell : ∀ {name : String} {cell : Variable}, Emit.findVariable env name = .ok cell →
    ∃ o symbol, layout.object name = some o ∧ o ∈ objects ∧ cell.ty = o.ty
      ∧ cell.storage = .global symbol ∧ image.symbols.lookup symbol = some o.address

namespace Setting

/-- A moment `Γ` that agrees with a situation `σ`: memory holds the store, and input and output are
the same. -/
structure Agrees (W : Setting) (σ : Situation) (Γ : Moment) : Prop where
  memory : Γ.world.memory.Typed W.image W.floor W.objects
  store : W.layout.Holds W.image Γ.world.memory σ.store
  input : Γ.world.input = σ.input
  output : Γ.world.output = σ.output.toUTF8

variable {W : Setting} {σ : Situation} {Γ Δ : Moment}

/-- `Agrees` depends on the world of the moment only. -/
theorem Agrees.congr (h : W.Agrees σ Γ) (hworld : Δ.world = Γ.world) : W.Agrees σ Δ :=
  ⟨hworld ▸ h.memory, hworld ▸ h.store, hworld ▸ h.input, hworld ▸ h.output⟩

/-- Where a moment `Agrees` with a situation, the environment `Depicts` its store. -/
theorem Agrees.depicts (h : W.Agrees σ Γ) :
    Depicts W.image W.call W.env σ.store Γ := by
  refine ⟨h.memory.texts.finds, fun {name cell} hcell => ?_⟩
  obtain ⟨o, symbol, ho, hobject, hty, hstorage, hlookup⟩ := W.cell hcell
  have hbounds := h.memory.bounds o hobject
  have hnull := h.memory.texts.null
  have hmax : maxMemory < 2 ^ 64 := by decide
  simp only [Object.finish] at hbounds
  have haddress : addressOf (Int64.ofNat o.address) = o.address := addressOf_ofNat (by omega)
  rw [hstorage, hty]
  refine ⟨Int64.ofNat o.address, ⟨fun block rest => ?_, by rintro _ _ ⟨⟩⟩, ?_, ?_⟩
  · rw [Image.value, hlookup]
    rfl
  · rw [haddress]
    exact ⟨h.memory.isProper o hobject, by omega, by omega, by omega⟩
  · rw [haddress]
    exact h.store ho

/-- A place `IsPlaceOf` the object that the layout has for its variable, at the offset of its
path. -/
theorem Agrees.place (h : W.Agrees σ Γ) {place : Value} {name : String} {path : List Nat}
    {ty : Ty} (hplace : IsPlaceOf W.image W.call W.env Γ place name path ty) :
    ∃ o b, W.layout.object name = some o ∧ o ∈ W.objects ∧ o.ty.HasPath path ty
      ∧ Γ.Has W.image W.call place (.int b) ∧ addressOf b = o.address + o.ty.offset path := by
  obtain ⟨cell, a, b, hcell, ha, hpath, hb, haddress⟩ := hplace
  obtain ⟨o, symbol, ho, hobject, hty, hstorage, hlookup⟩ := W.cell hcell
  have hbounds := (h.memory.bounds o hobject).2.2
  have hmax : maxMemory < 2 ^ 64 := by decide
  have hvalue := ha.value { name := "" } []
  rw [hstorage, Image.value, hlookup] at hvalue
  obtain rfl : Int64.ofNat o.address = a := Scalar.int.inj (Except.ok.inj hvalue)
  rw [addressOf_ofNat (by simp only [Object.finish] at hbounds; omega), hty] at haddress
  exact ⟨o, b, ho, hobject, hty ▸ hpath, hb, haddress⟩

/-- The store has a value of type `ty` at a place of scalars of this type. -/
theorem Agrees.ty_eq (h : W.Agrees σ Γ) {place : Value} {name : String} {path : List Nat}
    {ty : Ty} (hplace : IsPlaceOf W.image W.call W.env Γ place name path ty)
    (hty : ty.isArray = false) : (σ.store name path).ty = ty := by
  obtain ⟨o, b, ho, hobject, hpath, -⟩ := h.place hplace
  have hpart : Objects.Has W.objects ⟨o.address + o.ty.offset path, ty⟩ :=
    ⟨o, hobject, hpath.has _⟩
  exact (h.store ho hpath ((h.memory.part_isProper hpart).shaped.isScalar hty)).1

/-- The storage of a variable `IsPlaceOf` it, with an empty path. -/
theorem Agrees.isPlaceOf (h : W.Agrees σ Γ) {name : String} {cell : Variable}
    (hcell : Emit.findVariable W.env name = .ok cell) :
    IsPlaceOf W.image W.call W.env Γ cell.storage name [] cell.ty := by
  obtain ⟨a, ha, -, -⟩ := h.depicts.cell hcell
  refine ⟨cell, a, a, hcell, ha, Ty.hasPath_nil.mpr rfl, ha, ?_⟩
  rw [Ty.offset_nil, Nat.add_zero]

/-- Integers at places of a situation that `Agrees` have 64 bits or one. -/
theorem Agrees.bits_eq (h : W.Agrees σ Γ) {place : Value} {name : String} {path : List Nat}
    {bits : Nat} (hplace : IsPlaceOf W.image W.call W.env Γ place name path (.int bits)) :
    bits = 64 ∨ bits = 1 := by
  have hty := h.ty_eq hplace rfl
  generalize σ.store name path = d at hty
  cases d with
  | integer n => exact .inl (Ty.int.inj hty).symm
  | boolean b => exact .inr (Ty.int.inj hty).symm
  | real r => cases hty
  | string text => cases hty

/-- A scalar of a variable can be written by `Memory.write`, and memory then holds the store with
this value. -/
theorem Agrees.write (h : W.Agrees σ Γ) {name : String} {o : Object} {path : List Nat}
    {d : Datum} {x : Scalar} (ho : W.layout.object name = some o) (hobject : o ∈ W.objects)
    (hpath : o.ty.HasPath path d.ty) (hx : x.Shows W.image d) :
    ∃ n, Γ.world.memory.write d.ty (o.address + o.ty.offset path) x = .ok n
      ∧ n.Typed W.image W.floor W.objects
      ∧ W.layout.Holds W.image n (σ.store.write name path d) := by
  have hpart : Objects.Has W.objects ⟨o.address + o.ty.offset path, d.ty⟩ :=
    ⟨o, hobject, hpath.has _⟩
  obtain ⟨n, hwrite, hn, -⟩ := h.memory.write d.isScalar_ty hpart (hx.fits _)
  refine ⟨n, hwrite, hn, ?_⟩
  have hsame := Memory.write_eq (x := x) d.isScalar_ty (h.memory.check hpart)
  obtain rfl := Except.ok.inj (hwrite.symm.trans hsame)
  exact h.store.write ho hpath hx (h.memory.bounds o hobject).2.1

/-- `Agrees` after a change of memory that the store follows. -/
theorem Agrees.withMemory (h : W.Agrees σ Γ) {n : Memory} {store : Store}
    (hworld : Δ.world = { Γ.world with memory := n }) (hn : n.Typed W.image W.floor W.objects)
    (hstore : W.layout.Holds W.image n store) : W.Agrees { σ with store } Δ := by
  refine ⟨?_, ?_, ?_, ?_⟩
  · rw [hworld]
    exact hn
  · rw [hworld]
    exact hstore
  · rw [hworld]
    exact h.input
  · rw [hworld]
    exact h.output

end Setting

/-! ## Assignments -/

namespace Emit

instance (v place : Value) : Straight (push (.store v place)) := ⟨traces_push rfl⟩
instance (v w : Value) (bytes : Nat) : Straight (push (.copy v w bytes)) := ⟨traces_push rfl⟩

variable {W : Setting} {σ : Situation} {Γ : Moment}

/-- The instruction `store` performs `Situation.write`. -/
theorem performs_store (h : W.Agrees σ Γ) {v place : Value} {d : Datum} {name : String}
    {path : List Nat} (hv : Denotes W.image W.call Γ v d)
    (hplace : IsPlaceOf W.image W.call W.env Γ place name path d.ty) :
    Performs W.image W.call Γ (push (.store v place)) (.ok (σ.write name path d))
      fun Δ _ σ' => W.Agrees σ' Δ := by
  obtain ⟨o, b, ho, hobject, hpath, hb, haddress⟩ := h.place hplace
  obtain ⟨hty, x, hx, hshows⟩ := hv
  obtain ⟨n, hwrite, hn, hstore⟩ := h.write ho hobject hpath hshows
  refine Performs.map (g := fun _ => σ.write name path d) (r := .ok ())
    (Performs.push (f := fun _ => { Γ.world with memory := n }) rfl fun block rest => ?_)
    fun {Δ _ _} _ hworld => ?_
  · simp only [Image.execute, Call.state, hb.int, hx.value, hty]
    show (Γ.world.memory.write d.ty (addressOf b) x >>= _) = _
    rw [haddress, hwrite]
    rfl
  · exact h.withMemory hworld hn hstore

/-- The instruction `copy` performs `Store.copy`. -/
theorem performs_copy (h : W.Agrees σ Γ) {place source : Value} {name origin : String}
    {path path' : List Nat} {ty : Ty} {bytes : Nat} (hbytes : ty.size? = some bytes)
    (hplace : IsPlaceOf W.image W.call W.env Γ place name path ty)
    (hsource : IsPlaceOf W.image W.call W.env Γ source origin path' ty) :
    Performs W.image W.call Γ (push (.copy place source bytes))
      (.ok { σ with store := σ.store.copy name path origin path' })
      fun Δ _ σ' => W.Agrees σ' Δ := by
  obtain rfl := Ty.eq_width_of_size? hbytes
  obtain ⟨o, b, ho, hobject, hpath, hb, haddress⟩ := h.place hplace
  obtain ⟨q, b', hq, hobject', hpath', hb', haddress'⟩ := h.place hsource
  have hd : Objects.Has W.objects ⟨o.address + o.ty.offset path, ty⟩ :=
    ⟨o, hobject, hpath.has _⟩
  have hs : Objects.Has W.objects ⟨q.address + q.ty.offset path', ty⟩ :=
    ⟨q, hobject', hpath'.has _⟩
  -- both parts are inside of objects, so the copy succeeds
  obtain ⟨n, hcopy, hn, -⟩ := h.memory.copy hd hs
  have hstore : W.layout.Holds W.image n (σ.store.copy name path origin path') := by
    simp only [Memory.copy, h.memory.check hd, h.memory.check hs] at hcopy
    obtain rfl := Except.ok.inj hcopy
    exact h.store.copy ho hq hpath hpath' (h.memory.bounds o hobject).2.1
  refine Performs.map (g := fun _ => { σ with store := σ.store.copy name path origin path' })
    (r := .ok ()) (Performs.push (i := .copy place source ty.width)
      (f := fun _ => { Γ.world with memory := n }) rfl fun block rest => ?_)
    fun {Δ _ _} _ hworld => ?_
  · simp only [Image.execute, Call.state, hb.int, hb'.int]
    show (Γ.world.memory.copy (addressOf b) (addressOf b') ty.width >>= _) = _
    rw [haddress, haddress', hcopy]
    rfl
  · exact h.withMemory hworld hn hstore

end Emit

open Emit

section

variable {W : Setting} {σ : Situation} {Γ : Moment}

/-- The part of `emitAssign` behind the address: an assignment to a place. -/
def assignTo (env : Environment) (place : Value) (ty : Ty) (value : Expr) : Emit Unit :=
  match ty.isArray, value with
  | true, .designator name selectors => emitArrayCopy env place ty { name, selectors }
  | _, _ => emitStore env place ty value

theorem emitAssign_eq (env : Environment) (target : Designator) (value : Expr) :
    emitAssign env target value = (do
      let p ← target.emitAddress env
      assignTo env p.1 p.2 value) := rfl

/-- The part of `emitArrayCopy` behind the address: a copy of an array from a place. -/
def copyFrom (place : Value) (ty : Ty) (source : Value × Ty) : Emit Unit :=
  if source.2 = ty then
    match ty.size? with
    | some bytes => push (.copy place source.1 bytes)
    | none => Emit.fail (.oversized ty)
  else Emit.fail (.typeMismatch ty source.2)

theorem emitArrayCopy_eq (env : Environment) (place : Value) (ty : Ty) (source : Designator) :
    emitArrayCopy env place ty source = (do
      let p ← source.emitAddress env
      copyFrom place ty p) := rfl

instance (place : Value) (ty : Ty) (source : Value × Ty) : Straight (copyFrom place ty source) := by
  unfold copyFrom
  split
  · split <;> infer_instance
  · infer_instance

instance (env : Environment) (place : Value) (ty : Ty) (value : Expr) :
    Straight (assignTo env place ty value) := by
  unfold assignTo
  split
  · rw [emitArrayCopy_eq]
    infer_instance
  · unfold emitStore
    infer_instance

/-- `emitArrayCopy` locates its source and performs `Store.copy`. -/
theorem performs_emitArrayCopy (h : W.Agrees σ Γ) {place : Value} {name : String}
    {path : List Nat} {ty : Ty} (hplace : IsPlaceOf W.image W.call W.env Γ place name path ty)
    (source : Designator) :
    Performs W.image W.call Γ (emitArrayCopy W.env place ty source) (do
        let (origin, _) ← source.locate W.env.scope σ.store
        .ok { σ with store := σ.store.copy name path source.name origin })
      fun Δ _ σ' => W.Agrees σ' Δ := by
  rw [emitArrayCopy_eq]
  refine Performs.bind (source.computes_emitAddress W.plain h.depicts) fun {Δ p q} hle hp => ?_
  obtain ⟨hworld, hty, hsource⟩ := hp
  have h := h.congr hworld
  unfold copyFrom
  by_cases hsame : p.2 = ty
  · rw [if_pos hsame]
    split
    · rename_i bytes hbytes
      rw [← hty, hsame] at hsource
      exact performs_copy h hbytes (hplace.mono hle) hsource
    · exact .fail _
  · rw [if_neg hsame]
    exact .fail _

/-- `emitStore` evaluates and converts its expression, and performs `Situation.write`. -/
theorem performs_emitStore (h : W.Agrees σ Γ) {place : Value} {name : String}
    {path : List Nat} {ty : Ty} (hplace : IsPlaceOf W.image W.call W.env Γ place name path ty)
    (value : Expr) :
    Performs W.image W.call Γ (emitStore W.env place ty value) (do
        let d ← value.eval W.env.scope σ.store
        let d ← d.convert ty
        .ok (σ.write name path d))
      fun Δ _ σ' => W.Agrees σ' Δ := by
  have hbits : ∀ bits, ty = .int bits → bits = 64 ∨ bits = 1 := by
    rintro bits rfl
    exact h.bits_eq hplace
  refine Performs.bind (value.computes_emit W.plain Γ h.depicts) fun {Δ v d} hle hv => ?_
  obtain ⟨hworld, hv⟩ := hv
  have h := h.congr hworld
  refine Performs.bind (computes_coerce hbits hv) fun {Θ w e} hle' hw => ?_
  obtain ⟨hworld, hw, hty⟩ := hw
  have hplace := hplace.mono (hle.trans hle')
  rw [← hty, hw.ty] at hplace
  exact performs_store (h.congr hworld) hw hplace

/-- The code of an assignment performs `assign`. -/
theorem performs_emitAssign (h : W.Agrees σ Γ) (target : Designator) (value : Expr) :
    Performs W.image W.call Γ (emitAssign W.env target value) (assign W.env.scope target value σ)
      fun Δ _ σ' => W.Agrees σ' Δ := by
  rw [emitAssign_eq]
  refine Performs.bind (target.computes_emitAddress W.plain h.depicts) fun {Δ p q} _ hp => ?_
  obtain ⟨hworld, hty, hplace⟩ := hp
  have h := h.congr hworld
  obtain ⟨path, ty⟩ := q
  rw [hty]
  -- an array is assigned from a designator only, anything else as a scalar
  cases ty with
  | array length element =>
    cases value with
    | designator name selectors => exact performs_emitArrayCopy h hplace { name, selectors }
    | _ => exact performs_emitStore h hplace _
  | _ => exact performs_emitStore h hplace value

/-! ## WRITE, WRITELN and READ -/

instance (name : String) (arguments : List Value) : Straight (Emit.primitive name arguments) :=
  ⟨traces_push rfl⟩

/-- `Emit.primitive` performs the function that the machine provides. -/
theorem performs_primitive {name : String} {arguments : List Value} {xs : List Scalar}
    (hname : name ∈ Module.primitives.map (·.name))
    (hxs : ∀ block rest, W.image.values (W.call.frame Γ block rest) arguments = .ok xs) :
    Performs W.image W.call Γ (Emit.primitive name arguments) (Machine.primitive Γ.world name xs)
      fun Δ _ r => Δ.world = r.2 := by
  refine Performs.push rfl fun block rest => ?_
  show W.image.call (W.call.state Γ block rest) none name arguments = _
  rw [State.Ready.call_primitive W.primitive hname (hxs block rest)]
  rfl

/-- `Image.values` of a format and one more operand, and the text of the format. -/
theorem values_format (h : W.Agrees σ Γ) {k : StringConstant} {v : Value} {x : Scalar}
    (hk : k ∈ W.image.program.strings) (hv : Γ.Has W.image W.call v x) :
    ∃ n, (∀ block rest, W.image.values (W.call.frame Γ block rest) [.string k.name, v]
        = .ok [.int n, x])
      ∧ Γ.world.memory.string (addressOf n) = .ok (k.bytes.takeWhile (· != 0)) := by
  obtain ⟨address, hlookup, hlt, hstring⟩ := h.memory.texts.string hk
  refine ⟨Int64.ofNat address, fun block rest => ?_, ?_⟩
  · have hname := (Moment.Has.string (c := W.call) (Γ := Γ) hlookup).value block rest
    simp only [Image.values, hname, hv.value]
    rfl
  · rw [addressOf_ofNat hlt]
    exact hstring

/-- `convert` prints a value as `Datum.text` writes it. -/
theorem convert_eq_text {floor : Nat} {m : Memory} (hm : W.image.HasTexts floor m) {d : Datum}
    {x : Scalar} {conversion : String} (hx : x.Shows W.image d)
    (hf : printFormat? d.ty = some conversion) :
    convert m (letterOf d.ty) (some x) = d.text := by
  have hletter (n : Int64) : convert m letterS (some (.int n))
      = (m.string (addressOf n)).map Text.decode := by
    rw [convert, if_neg (by decide), if_pos rfl]
    cases m.string (addressOf n) <;> rfl
  cases d with
  | integer v =>
    obtain rfl := hx.integer
    rfl
  | real r =>
    obtain rfl := hx.real
    rfl
  -- a truth value is printed as the INTEGER that it counts as
  | boolean b => cases hf
  | string text =>
    obtain ⟨n, rfl⟩ := hx.string
    show convert m letterS _ = _
    rw [hletter]
    cases text with
    | none =>
      obtain rfl : n = 0 := hx
      rfl
    | some text =>
      obtain ⟨k, hk, hbytes, hlookup⟩ := hx
      obtain ⟨address, hlookup', -, hstring⟩ := hm.string hk
      obtain rfl := Option.some.inj (hlookup.symm.trans hlookup')
      rw [hstring, hbytes]
      -- in memory a text ends at its first zero byte, as it does in the tree
      exact congrArg Except.ok (Text.decode_takeWhile_utf8Bytes text)

/-- A value in the form in which `printable` leaves it: a truth value as a number. -/
def Datum.printed : Datum → Datum
  | .boolean b => .integer (ofTruth b)
  | d => d

theorem Datum.text_printed (d : Datum) : d.printed.text = d.text := by
  cases d <;> rfl

instance (value : Value) : Straight (printable value) := ⟨traces_printable value⟩
instance (value : Value) (ending : String) : Straight (print value ending) :=
  ⟨traces_print value ending⟩

/-- `printable` computes `Datum.printed`, and chooses the format for it. -/
theorem computes_printable {image : Image} {c : Call} {v : Value} {d : Datum}
    (h : Denotes image c Γ v d) :
    Computes image c Γ (printable v) (.ok d.printed) fun Δ p e =>
      printFormat? e.ty = some p.1 ∧ Denotes image c Δ p.2 e := by
  have hty := h.ty
  cases d with
  | integer n =>
    rw [show printable v = pure ("%lld", v) by simp only [printable, hty, Datum.ty]]
    exact .pure ⟨rfl, rfl, h⟩
  | real r =>
    rw [show printable v = pure ("%lf", v) by simp only [printable, hty, Datum.ty]]
    exact .pure ⟨rfl, rfl, h⟩
  | boolean b =>
    rw [show printable v = (do let v ← coerce v .integer; pure ("%lld", v)) by
      simp only [printable, hty, Datum.ty]]
    exact Computes.bind (g := fun n => .ok (Datum.integer n)) (computes_toInteger h)
      fun _ _ hn => .pure ⟨rfl, rfl, hn⟩
  | string text =>
    rw [show printable v = pure ("%s", v) by simp only [printable, hty, Datum.ty]]
    exact .pure ⟨rfl, rfl, h⟩

/-- `Agrees` after a change of the output alone, which is `Situation.print`. -/
theorem Setting.Agrees.withOutput {Δ : Moment} (h : W.Agrees σ Γ) {text : String}
    (hworld : Δ.world = { Γ.world with output := Γ.world.output ++ text.toUTF8 }) :
    W.Agrees (σ.print text) Δ := by
  refine ⟨?_, ?_, ?_, ?_⟩
  · rw [hworld]
    exact h.memory
  · rw [hworld]
    exact h.store
  · rw [hworld]
    exact h.input
  · rw [hworld]
    show Γ.world.output ++ text.toUTF8 = (σ.output ++ text).toUTF8
    rw [h.output]
    exact String.toByteArray_append.symm

theorem print_print (σ : Situation) (text more : String) :
    (σ.print text).print more = σ.print (text ++ more) := by
  simp only [Situation.print, String.append_assoc]

theorem print_empty (σ : Situation) : σ.print "" = σ := by
  simp only [Situation.print, String.append_empty]

/-- `print` performs the printing of a value, and then of the ending. -/
theorem performs_print (h : W.Agrees σ Γ) {v : Value} {d : Datum}
    (hv : Denotes W.image W.call Γ v d) {ending : String} (he : ending = "" ∨ ending = "\n") :
    Performs W.image W.call Γ (print v ending)
      (d.text.map fun text => (σ.print text).print ending) fun Δ _ σ' => W.Agrees σ' Δ := by
  rw [← d.text_printed]
  show Performs _ _ _ (printable v >>= fun p => string (p.1 ++ ending) >>= fun format =>
      Emit.primitive printfName [format, p.2])
    (Except.ok d.printed >>= fun e => Except.ok () >>= fun _ =>
      e.text.map fun text => (σ.print text).print ending) _
  refine Performs.bind (computes_printable hv) fun {Δ p e} _ hp => ?_
  obtain ⟨hworld, hf, hv⟩ := hp
  have h := h.congr hworld
  -- the format is a constant of the program, and stands before the value
  refine Performs.bind (computes_text _) fun {Θ w _} hle hw => ?_
  obtain ⟨hworld, k, hk, hbytes, rfl⟩ := hw
  have h := h.congr hworld
  obtain ⟨-, x, hx, hshows⟩ := hv.mono hle
  obtain ⟨n, hvalues, hstring⟩ := values_format h hk hx
  rw [hbytes] at hstring
  have hprimitive := primitive_print (x := x) hstring hf he
  rw [convert_eq_text h.memory.texts hshows hf] at hprimitive
  refine (Performs.of_eq hprimitive.symm
    (performs_primitive (by decide) hvalues)).of_map.map fun {Λ _ text} _ hΛ => ?_
  rw [print_print]
  refine h.withOutput ?_
  rw [hΛ]
  exact congrArg (fun bytes => { Θ.world with output := Θ.world.output ++ bytes })
    String.toByteArray_append.symm

instance (env : Environment) (ending : String) (es : List Expr) :
    Straight (emitPrints env ending es) :=
  ⟨traces_emitPrints env ending es⟩

/-- `emitPrints` performs `writeAll`, and then prints the ending if there was a value. -/
theorem performs_emitPrints {ending : String} (he : ending = "" ∨ ending = "\n")
    (es : List Expr) (σ : Situation) (Γ : Moment) (h : W.Agrees σ Γ) :
    Performs W.image W.call Γ (emitPrints W.env ending es)
      ((writeAll W.env.scope es σ).map fun σ => if es = [] then σ else σ.print ending)
      fun Δ _ σ' => W.Agrees σ' Δ := by
  induction es generalizing σ Γ with
  | nil => exact .pure h
  | cons e rest ih =>
    have hemit := e.computes_emit W.plain Γ h.depicts
    -- the ending comes behind the last value only
    cases rest with
    | nil =>
      have hresult : ((writeAll W.env.scope [e] σ).map fun σ => if [e] = [] then σ
            else σ.print ending)
          = e.eval W.env.scope σ.store >>= fun d =>
            d.text.map fun text => (σ.print text).print ending := by
        rw [writeAll]
        cases e.eval W.env.scope σ.store with
        | error e => rfl
        | ok d =>
          show Except.map _ (d.text >>= _) = d.text.map _
          cases d.text <;> rfl
      rw [hresult, emitPrints]
      refine Performs.bind hemit fun _ hv => ?_
      exact performs_print (h.congr hv.1) hv.2 he
    | cons e' rest =>
      have hresult : ((writeAll W.env.scope (e :: e' :: rest) σ).map fun σ =>
            if e :: e' :: rest = [] then σ else σ.print ending)
          = e.eval W.env.scope σ.store >>= fun d =>
            (d.text.map fun text => (σ.print text).print "") >>= fun σ =>
              (writeAll W.env.scope (e' :: rest) σ).map fun σ =>
                if e' :: rest = [] then σ else σ.print ending := by
        rw [writeAll]
        cases e.eval W.env.scope σ.store with
        | error e => rfl
        | ok d =>
          show Except.map _ (d.text >>= _) = d.text.map _ >>= _
          cases d.text with
          | error e => rfl
          | ok text =>
            show Except.map _ (writeAll W.env.scope (e' :: rest) (σ.print text))
              = Except.map _ (writeAll W.env.scope (e' :: rest) ((σ.print text).print ""))
            rw [print_empty]
            rfl
      rw [hresult]
      show Performs _ _ _ (e.emit W.env >>= fun value => print value "" >>= fun _ =>
        emitPrints W.env ending (e' :: rest)) _ _
      refine Performs.bind hemit fun _ hv => ?_
      refine Performs.bind (performs_print (h.congr hv.1) hv.2 (.inl rfl)) fun _ h => ?_
      exact ih _ _ h

/-- `emitWriteln` performs `writeAll`, and then ends the line. -/
theorem performs_emitWriteln (h : W.Agrees σ Γ) (es : List Expr) :
    Performs W.image W.call Γ (emitWriteln W.env es)
      ((writeAll W.env.scope es σ).map fun σ => σ.print "\n") fun Δ _ σ' => W.Agrees σ' Δ := by
  cases es with
  | nil =>
    -- without values, the line of an empty text is written
    show Performs _ _ _ (string "" >>= fun empty => Emit.primitive putsName [empty])
      (Except.ok () >>= fun _ => Except.ok (σ.print "\n")) _
    refine Performs.bind (computes_text "") fun {Δ v _} _ hv => ?_
    obtain ⟨hworld, k, hk, hbytes, rfl⟩ := hv
    have h := h.congr hworld
    obtain ⟨address, hlookup, hlt, hstring⟩ := h.memory.texts.string hk
    have hvalues (block : Block) (rest : List Instr) :
        W.image.values (W.call.frame Δ block rest) [.string k.name]
          = .ok [.int (Int64.ofNat address)] := by
      have hname := (Moment.Has.string (c := W.call) (Γ := Δ) hlookup).value block rest
      simp only [Image.values, hname]
      rfl
    have hprimitive : Machine.primitive Δ.world putsName [.int (Int64.ofNat address)]
        = .ok (.int 1, { Δ.world with output := Δ.world.output.push 0x0A }) := by
      simp only [Machine.primitive, addressOf_ofNat hlt, hstring, hbytes]
      rfl
    refine (Performs.of_eq (r := (Except.ok ()).map fun _ => _) hprimitive.symm
      (performs_primitive (by decide) hvalues)).of_map.map (g := fun _ => σ.print "\n")
      fun {Θ _ _} _ hΘ => ?_
    refine h.withOutput ?_
    rw [hΘ, push_newline]
  | cons e rest =>
    exact performs_emitPrints (.inr rfl) (e :: rest) σ Γ h

/-- `parse?` reads a word as the value that it means by `Datum.ofWord?`. -/
theorem parse?_eq_ofWord? (image : Image) {ty : Ty} (hty : ty = .integer ∨ ty = .real)
    (word : String) :
    (Datum.ofWord? word ty = none ∧ parse? (some (letterOf ty)) word = none)
      ∨ ∃ d x, Datum.ofWord? word ty = some d ∧ d.ty = ty ∧ x.Shows image d
        ∧ parse? (some (letterOf ty)) word = some (ty, x) := by
  rcases hty with rfl | rfl
  · show ((Word.ofText? word).map _ = none ∧ (Word.ofText? word).map _ = none)
      ∨ ∃ d x, (Word.ofText? word).map _ = some d ∧ _ ∧ _ ∧ (Word.ofText? word).map _ = some _
    cases Word.ofText? word with
    | none => exact .inl ⟨rfl, rfl⟩
    | some n => exact .inr ⟨.integer n, .int n, rfl, rfl, rfl, rfl⟩
  · show ((Decimal.ofText? word).map _ = none ∧ (Decimal.ofText? word).map _ = none)
      ∨ ∃ d x, (Decimal.ofText? word).map _ = some d ∧ _ ∧ _ ∧ (Decimal.ofText? word).map _ = some _
    cases Decimal.ofText? word with
    | none => exact .inl ⟨rfl, rfl⟩
    | some r => exact .inr ⟨.real r, .real r, rfl, rfl, rfl, rfl⟩

/-- `readOne` reads a word into a variable as the situation does. -/
theorem Setting.Agrees.readOne (h : W.Agrees σ Γ) {name : String} {o : Object} {b : Int64}
    (ho : W.layout.object name = some o) (hobject : o ∈ W.objects)
    (haddress : addressOf b = o.address) (hty : o.ty = .integer ∨ o.ty = .real) :
    ∃ reading, Machine.readOne Γ.world 0 (some (letterOf o.ty)) (some (.int b)) = .ok reading
      ∧ ∀ Δ : Moment, Δ.world = (match reading with | .stop _ w => w | .stored w => w) →
        W.Agrees (σ.read name o.ty) Δ := by
  have hinput := h.input
  rw [Machine.readOne, Situation.read]
  cases hwords : σ.input with
  | nil =>
    rw [hinput, hwords]
    exact ⟨_, rfl, fun Δ hworld => h.congr hworld⟩
  | cons word input =>
    rw [hinput, hwords]
    have hrest : W.Agrees { σ with input } (Γ.withWorld { Γ.world with input }) :=
      ⟨h.memory, h.store, rfl, h.output⟩
    dsimp only
    -- a word of the wrong form is taken as well, but nothing is stored
    rcases parse?_eq_ofWord? W.image hty word with ⟨hd, hparse⟩ | ⟨d, x, hd, hdty, hx, hparse⟩
    · rw [hd, hparse]
      exact ⟨_, rfl, fun Δ hworld => hrest.congr hworld⟩
    · rw [hd, hparse]
      have hpath : o.ty.HasPath [] d.ty := Ty.hasPath_nil.mpr hdty
      obtain ⟨n, hwrite, hn, hstore⟩ := hrest.write ho hobject hpath hx
      rw [Ty.offset_nil, Nat.add_zero, ← haddress, hdty] at hwrite
      have hwrite : Γ.world.memory.write o.ty (addressOf b) x = .ok n := hwrite
      refine ⟨.stored { Γ.world with memory := n, input }, ?_, fun Δ hworld => ?_⟩
      · simp only [hwrite]
        rfl
      · exact hrest.withMemory hworld hn hstore

/-- `emitRead` performs `readInto`. -/
theorem performs_emitRead (h : W.Agrees σ Γ) (es : List Expr) :
    Performs W.image W.call Γ (emitRead W.env es) (readInto W.env.scope es σ)
      fun Δ _ σ' => W.Agrees σ' Δ := by
  unfold emitRead
  split
  · rename_i name
    cases hcell : findVariable W.env name with
    | error e =>
      have haddress : address W.env name 0 (pure []) = Emit.fail e := by simp only [address, hcell]
      rw [haddress]
      exact .fail_bind _
    | ok cell =>
      have haddress : address W.env name 0 (pure []) = pure (cell.storage, cell.ty) := by
        simp only [address, hcell, if_true]
      have hresult : readInto W.env.scope [.designator name []] σ
          = .ok (σ.read name cell.ty) := by
        simp only [readInto, Environment.scope_variable hcell]
      rw [haddress, hresult, pure_bind]
      dsimp only
      cases hformat : readFormat? cell.ty with
      | none => exact .fail _
      | some format =>
        show Performs _ _ _ _ (Except.ok () >>= fun _ => Except.ok (σ.read name cell.ty)) _
        refine Performs.bind (computes_text format) fun {Δ v _} hle hv => ?_
        obtain ⟨hworld, k, hk, hbytes, rfl⟩ := hv
        have h := h.congr hworld
        -- a whole variable is read, so the path to it is empty
        obtain ⟨o, b, ho, hobject, hpath, hb, haddress⟩ := h.place (h.isPlaceOf hcell)
        rw [Ty.hasPath_nil.mp hpath] at hformat ⊢
        rw [Ty.offset_nil, Nat.add_zero] at haddress
        obtain ⟨n, hvalues, hstring⟩ := values_format h hk hb
        rw [hbytes] at hstring
        obtain ⟨hty, hread⟩ := readFormat_read (w := Δ.world) (v := .int b) hformat
        obtain ⟨reading, hone, hagrees⟩ := h.readOne ho hobject haddress hty
        have hprimitive := primitive_read (x := .int b) hstring
        rw [hread, hone] at hprimitive
        refine (Performs.of_eq (r := (Except.ok ()).map fun _ => _) hprimitive.symm
          (performs_primitive (by decide) hvalues)).of_map.map (g := fun _ => σ.read name o.ty)
          fun {Θ _ _} _ hΘ => ?_
        refine hagrees Θ ?_
        rw [hΘ]
        cases reading <;> rfl
  · exact .fail _

/-- The code of a call performs `callBuiltin`. -/
theorem performs_emitCallStatement (h : W.Agrees σ Γ) (name : String) (es : List Expr) :
    Performs W.image W.call Γ (emitCallStatement W.env name es)
      (callBuiltin W.env.scope name es σ) fun Δ _ σ' => W.Agrees σ' Δ := by
  unfold emitCallStatement callBuiltin
  split
  · refine Performs.of_eq ?_ (performs_emitPrints (.inl rfl) es σ Γ h)
    have hsame (σ : Situation) : (if es = [] then σ else σ.print "") = σ := by
      rw [print_empty, ite_self]
    simp only [hsame]
    cases writeAll W.env.scope es σ <;> rfl
  · split
    · refine Performs.of_eq ?_ (performs_emitWriteln h es)
      exact bind_pure_comp ..
    · split
      · exact performs_emitRead h es
      · obtain ⟨e, he⟩ := call_eq_fail W.plain name es.length
          fun parameters => emitArguments W.env name 1 parameters es
        show Performs _ _ _ (Emit.call W.env name es.length _ >>= fun _ => pure ()) _ _
        rw [he]
        exact .fail_bind _

end

end Oberon
