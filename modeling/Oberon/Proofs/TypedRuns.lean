import Oberon.Machine.Run
import Oberon.Proofs.TypedConsole
import Oberon.Proofs.TypedPrograms

/-!
# Typed states

A state of the machine is typed if its memory is, if the frame that runs holds what its code
expects, and if every frame that waits would do so once it gets its result. A step from a typed
state leads to a typed state, or ends the run; the faults it can end with are a division by zero,
an index out of range, too many calls or too much memory, and printing a STRING that is null.
-/

namespace Oberon.Machine

open Code Relation

/-! ## Frames -/

/-- The addresses of globals, at which `objects` have parts of their types. -/
def Image.HasGlobals (image : Image) (objects : List Object) (globals : List Global) : Prop :=
  ∀ g ∈ globals, ∃ address, image.symbols.lookup g.name = some address
    ∧ Objects.Has objects ⟨address, g.ty⟩

/-- A frame of a typed function that holds the temporaries of `H`. -/
structure Frame.Holds (image : Image) (objects : List Object) (Γ : Context) (H : Held)
    (f : Frame) : Prop where
  isProper : (Γ.withHeld H).IsProper
  blocks : BlocksTyped Γ f.blocks
  closed : ∀ b ∈ f.blocks, b.terminator.isSome
  globals : image.HasGlobals objects Γ.globals
  arguments : List.Forall₂ (fun v k => v.Fits image objects k) f.arguments Γ.parameters
  temps : ∀ x ∈ H, ∃ v, f.temps[x.1]? = some v ∧ v.Fits image objects x.2

/-- A frame at a point of its code where `H` is defined. -/
structure Frame.Typed (image : Image) (objects : List Object) (Γ : Context) (H : Held)
    (f : Frame) : Prop extends f.Holds image objects Γ H where
  code : CodeTyped Γ H f.rest
  terminator : ∃ t, f.block.terminator = some t ∧ t.Typed (Γ.withHeld (H ++ definitions f.rest))

namespace Frame

variable {image : Image} {objects more : List Object} {Γ : Context} {H : Held} {f : Frame}

/-- A frame that `Holds` its values does so among more objects. -/
theorem Holds.mono (h : f.Holds image objects Γ H) (hsub : objects ⊆ more) :
    f.Holds image more Γ H := by
  refine ⟨h.isProper, h.blocks, h.closed, fun g hg => ?_,
    h.arguments.imp fun _ _ hv => hv.mono hsub, fun x hx => ?_⟩
  · obtain ⟨address, hlookup, hobject⟩ := h.globals g hg
    exact ⟨address, hlookup, hobject.mono hsub⟩
  · obtain ⟨v, hget, hv⟩ := h.temps x hx
    exact ⟨v, hget, hv.mono hsub⟩

/-- A frame that `Holds` its values can set a new temporary. -/
theorem Holds.set (h : f.Holds image objects Γ H) {out : Nat} {k : Kind} {v : Scalar}
    (hk : k.IsProper) (hfresh : ∀ y ∈ H, y.1 ≠ out) (hv : v.Fits image objects k) :
    (f.set out v).Holds image objects Γ (H ++ [(out, k)]) := by
  have hp := h.isProper
  refine ⟨⟨hp.linkage, hp.parameters, hp.result, hp.blocks, ?_⟩, h.blocks, h.closed, h.globals,
    h.arguments, fun x hx => ?_⟩
  · exact List.forall_mem_append.mpr ⟨hp.held, List.forall_mem_singleton.mpr hk⟩
  · show ∃ w, (f.temps.insert out v)[x.1]? = some w ∧ _
    rw [Std.TreeMap.getElem?_insert]
    rcases List.mem_append.mp hx with hx | hx
    · rw [if_neg (by simpa using (hfresh x hx).symm)]
      exact h.temps x hx
    · obtain rfl := List.mem_singleton.mp hx
      exact ⟨v, if_pos (by simp), hv⟩

/-- `Holds` stays true if less is said to be held. -/
theorem Holds.forget (h : f.Holds image objects Γ H) {K : Held} (hsub : K ⊆ H) :
    f.Holds image objects Γ K := by
  have hp := h.isProper
  exact ⟨⟨hp.linkage, hp.parameters, hp.result, hp.blocks, fun x hx => hp.held x (hsub hx)⟩,
    h.blocks, h.closed, h.globals, h.arguments, fun x hx => h.temps x (hsub hx)⟩

/-- The start of a block is a point where all that it expects is defined, if the frame `Holds`
that. -/
theorem Holds.enter (h : f.Holds image objects Γ H) {label : Nat} {b : Block}
    (hl : Γ.blocks[label]? = some H) (hb : f.blocks[label]? = some b) :
    ({ f with block := b, rest := b.instrs } : Frame).Typed image objects Γ H := by
  have htyped := h.blocks.block hl hb
  obtain ⟨t, ht⟩ := Option.isSome_iff_exists.mp (h.closed b (Array.mem_of_getElem? hb))
  exact ⟨⟨h.isProper, h.blocks, h.closed, h.globals, h.arguments, h.temps⟩, htyped.code,
    t, ht, htyped.terminator t ht⟩

/-- `Frame.enter` of a typed function with arguments of the right kinds gives a typed frame. -/
theorem enter_typed {L : Linkage} {sig : Signature} {g : Function} {blocks : Array Block}
    {arguments : List Scalar} (himpl : g.Implements L sig) (hbody : g.body = .blocks blocks)
    (hglobals : image.HasGlobals objects L.globals)
    (harguments : List.Forall₂ (fun x k => x.Fits image objects k) arguments
      (sig.parameters.map Parameter.kind)) (base : Nat) (out : Option Nat) :
    ∃ f Γ, Frame.enter g.name blocks arguments base out = .ok f ∧ Γ.toLinkage = L
      ∧ Γ.result = sig.result ∧ f.Typed image objects Γ [] ∧ f.base = base ∧ f.out = out := by
  obtain ⟨blocks', expected, hbody', hproper, htyped, hclosed⟩ := himpl.body
  obtain rfl := Body.blocks.inj (hbody.symm.trans hbody')
  have hlt : 0 < blocks.size := by
    rw [htyped.size]
    exact (List.getElem?_eq_some_iff.mp htyped.entry).1
  have hb := Array.getElem?_eq_getElem hlt
  set f : Frame := { function := g.name, blocks, arguments, base, out, block := blocks[0],
                     rest := blocks[0].instrs }
  have hproper : ((sig.context L expected).withHeld []).IsProper := hproper
  have hholds : f.Holds image objects (sig.context L expected) [] :=
    ⟨hproper, htyped, hclosed, hglobals, harguments, List.forall_mem_nil _⟩
  exact ⟨f, sig.context L expected, by rw [Frame.enter, hb], rfl, rfl,
    hholds.enter htyped.entry hb, rfl, rfl⟩

/-- `Frame.jump` succeeds to a block that expects no more than the frame holds. -/
theorem Holds.jump (h : f.Holds image objects Γ H) {label : Nat}
    (ha : (Γ.withHeld H).Accepts label) :
    ∃ g K, f.jump label = .ok g ∧ g.Typed image objects Γ K ∧ g.base = f.base ∧ g.out = f.out := by
  obtain ⟨K, hl, hK⟩ := ha
  have hl : Γ.blocks[label]? = some K := hl
  have hlt : label < f.blocks.size := by
    rw [h.blocks.size]
    exact (List.getElem?_eq_some_iff.mp hl).1
  have hb := Array.getElem?_eq_getElem hlt
  exact ⟨_, K, by rw [Frame.jump, hb], (h.forget hK).enter hl hb, rfl, rfl⟩

end Frame

/-! ## States -/

/-- A program whose functions are found by the symbols of their signatures, by `function?`. -/
structure Image.Linked (image : Image) (L : Linkage) : Prop where
  strings : L.strings = image.program.strings
  procedure : ∀ sig ∈ L.signatures, ∃ f, image.program.function? sig.symbol = some f
    ∧ f.Implements L sig
  primitive : ∀ f ∈ Module.primitives, image.program.function? f.name = some f

/-- Calls that wait for a call that returns a `result` to `out`, and drops all memory from `base`
on. Each of them goes on with any value of that type, and with the objects it had. -/
inductive CallersTyped (image : Image) (L : Linkage) (floor : Nat) :
    List Object → Ty → Nat → Option Nat → List Frame → Prop
  | nil {objects : List Object} {result : Ty} {base : Nat} {out : Option Nat} :
    CallersTyped image L floor objects result base out []
  | cons {objects kept : List Object} {result : Ty} {base : Nat} {out : Option Nat}
    {caller : Frame} {callers : List Frame} {Γ : Context} {H : Held} (hΓ : Γ.toLinkage = L)
    (hkept : kept <:+ objects) (hbelow : ∀ o ∈ kept, o.finish ≤ base) (hfloor : floor ≤ base)
    (hbase : caller.base ≤ base) (hout : out.isSome → result ≠ .void)
    (hresume : ∀ v, (out.isSome → v.Fits image kept (.value result)) →
      (caller.set? out v).Typed image kept Γ H)
    (hrest : CallersTyped image L floor kept Γ.result caller.base caller.out callers) :
    CallersTyped image L floor objects result base out (caller :: callers)

/-- Waiting calls stay typed when new objects are made in front. -/
theorem CallersTyped.mono {image : Image} {L : Linkage} {floor base : Nat}
    {objects more : List Object} {result : Ty} {out : Option Nat} {callers : List Frame}
    (h : CallersTyped image L floor objects result base out callers) (hsub : objects <:+ more) :
    CallersTyped image L floor more result base out callers := by
  cases h with
  | nil => exact .nil
  | cons hΓ hkept hbelow hfloor hbase hout hresume hrest =>
    exact .cons hΓ (hkept.trans hsub) hbelow hfloor hbase hout hresume hrest

/-- A state whose frame holds the temporaries of `H`. -/
structure State.Holds (image : Image) (L : Linkage) (floor : Nat) (objects : List Object)
    (Γ : Context) (H : Held) (s : State) : Prop where
  linked : image.Linked L
  linkage : Γ.toLinkage = L
  memory : s.world.memory.Typed image floor objects
  frame : s.frame.Holds image objects Γ H
  base_le : s.frame.base ≤ s.world.memory.size
  callers : CallersTyped image L floor objects Γ.result s.frame.base s.frame.out s.callers

/-- A state at a point of the code where `H` is defined. -/
structure State.Typed (image : Image) (L : Linkage) (floor : Nat) (objects : List Object)
    (Γ : Context) (H : Held) (s : State) : Prop where
  linked : image.Linked L
  linkage : Γ.toLinkage = L
  memory : s.world.memory.Typed image floor objects
  frame : s.frame.Typed image objects Γ H
  base_le : s.frame.base ≤ s.world.memory.size
  callers : CallersTyped image L floor objects Γ.result s.frame.base s.frame.out s.callers

/-- A state that is about to execute an instruction before its remaining code. -/
structure State.Ready (image : Image) (L : Linkage) (floor : Nat) (objects : List Object)
    (Γ : Context) (H : Held) (i : Instr) (s : State) : Prop
    extends s.Holds image L floor objects Γ H where
  typed : i.Typed (Γ.withHeld H)
  fresh : ∀ x ∈ i.defines, ∀ y ∈ H, y.1 ≠ x.1
  code : CodeTyped Γ (H ++ i.defines) s.frame.rest
  terminator : ∃ t, s.frame.block.terminator = some t
    ∧ t.Typed (Γ.withHeld (H ++ i.defines ++ definitions s.frame.rest))

section

variable {image : Image} {L : Linkage} {floor : Nat} {objects : List Object} {Γ : Context}
  {H : Held} {s : State} {v : Value} {k : Kind} {i : Instr}

theorem State.Typed.holds (h : s.Typed image L floor objects Γ H) :
    s.Holds image L floor objects Γ H :=
  ⟨h.linked, h.linkage, h.memory, h.frame.toHolds, h.base_le, h.callers⟩

/-- A typed state with code left is `Ready` for the next instruction. -/
theorem State.Typed.ready (h : s.Typed image L floor objects Γ H) {rest : List Instr}
    (hrest : s.frame.rest = i :: rest) :
    State.Ready image L floor objects Γ H i { s with frame := { s.frame with rest } } := by
  have hf := h.frame
  have hcode := hf.code
  obtain ⟨t, ht, hterm⟩ := hf.terminator
  rw [hrest] at hcode hterm
  obtain ⟨hi, hfresh, hcode⟩ := hcode
  refine ⟨⟨h.linked, h.linkage, h.memory, ⟨hf.isProper, hf.blocks, hf.closed, hf.globals,
    hf.arguments, hf.temps⟩, h.base_le, h.callers⟩, hi, hfresh, hcode, t, ht, ?_⟩
  rw [List.append_assoc]
  exact hterm

/-- The frame after an instruction for which it was `Ready`, and which may have set a temporary. -/
theorem State.Ready.frame_next (h : s.Ready image L floor objects Γ H i) {more : List Object}
    (out : Option Nat) {v : Scalar} (hmore : objects ⊆ more)
    (hdefines : i.defines = (out.map (·, k)).toList) (hv : out.isSome → v.Fits image more k) :
    (s.frame.set? out v).Typed image more Γ (H ++ i.defines) := by
  cases out with
  | none =>
    refine ⟨?_, h.code, h.terminator⟩
    rw [hdefines, Option.map_none, Option.toList_none, List.append_nil]
    exact h.frame.mono hmore
  | some out =>
    have hdefines : i.defines = [(out, k)] := hdefines
    have hp := h.typed.isProper h.frame.isProper
    have hfresh := h.fresh
    rw [hdefines] at hp hfresh
    refine ⟨?_, h.code, h.terminator⟩
    rw [hdefines]
    exact (h.frame.mono hmore).set (hp _ List.mem_cons_self) (hfresh _ List.mem_cons_self) (hv rfl)

/-- The state after an instruction for which it was `Ready`, and which may have set a temporary,
changed the world, and made new objects. -/
theorem State.Ready.next (h : s.Ready image L floor objects Γ H i) {more : List Object}
    {w : World} (out : Option Nat) {v : Scalar} (hmore : objects <:+ more)
    (hm : w.memory.Typed image floor more) (hsize : s.world.memory.size ≤ w.memory.size)
    (hdefines : i.defines = (out.map (·, k)).toList) (hv : out.isSome → v.Fits image more k) :
    State.Typed image L floor more Γ (H ++ i.defines)
      { s with world := w, frame := s.frame.set? out v } := by
  have hframe := h.frame_next out hmore.subset hdefines hv
  have hbase := h.base_le.trans hsize
  have hcallers := h.callers.mono hmore
  cases out with
  | none => exact ⟨h.linked, h.linkage, hm, hframe, hbase, hcallers⟩
  | some out => exact ⟨h.linked, h.linkage, hm, hframe, hbase, hcallers⟩

/-! ## Operands -/

namespace State.Holds

/-- A string constant as an operand, and what `Memory.string` reads it as. -/
theorem text (h : s.Holds image L floor objects Γ H) {c : StringConstant}
    (hc : c ∈ (Γ.withHeld H).strings) :
    c ∈ image.program.strings ∧ ∃ n, image.value s.frame (.string c.name) = .ok (.int n)
      ∧ image.IsText (addressOf n)
      ∧ s.world.memory.string (addressOf n) = .ok (c.bytes.takeWhile (· != 0)) := by
  have hc : c ∈ image.program.strings := by
    rw [← h.linked.strings, ← h.linkage]
    exact hc
  obtain ⟨address, hlookup, hlt, hstring⟩ := h.memory.texts.string hc
  refine ⟨hc, Int64.ofNat address, by simp only [Image.value, hlookup]; rfl, ?_⟩
  rw [addressOf_ofNat hlt]
  exact ⟨.inr ⟨c, hc, hlookup⟩, hstring⟩

/-- `Image.value` of a typed operand is a scalar of its kind. -/
theorem value (h : s.Holds image L floor objects Γ H) (hv : HasKind (Γ.withHeld H) v k) :
    ∃ x, image.value s.frame v = .ok x ∧ x.Fits image objects k := by
  have hf := h.frame
  cases hv with
  | int value hty => exact ⟨_, rfl, Word.isNormal_wrap hty.1 hty.2 value⟩
  | real value => exact ⟨_, rfl, trivial⟩
  | null => exact ⟨_, rfl, .inl rfl⟩
  | temp hmem =>
    obtain ⟨x, hget, hx⟩ := hf.temps _ hmem
    exact ⟨x, by simp only [Image.value, hget], hx⟩
  | @param index k hk =>
    have hk : Γ.parameters[index]? = some k := hk
    obtain ⟨hlt, hk⟩ := List.getElem?_eq_some_iff.mp hk
    have hlength := hf.arguments.length_eq
    have hlt' : index < s.frame.arguments.length := hlength.symm ▸ hlt
    have hfits : s.frame.arguments[index].Fits image objects Γ.parameters[index] :=
      hf.arguments.get hlt' hlt
    refine ⟨s.frame.arguments[index], ?_, hk ▸ hfits⟩
    simp only [Image.value, List.getElem?_eq_getElem hlt']
  | @global g hg =>
    obtain ⟨address, hlookup, hobject⟩ := hf.globals g hg
    have hbounds := h.memory.part_bounds hobject
    have hlt : address < 2 ^ 64 := by
      -- addresses survive the passage through a machine word
      have : maxMemory < 2 ^ 64 := by decide
      omega
    refine ⟨.ofAddress address, by simp only [Image.value, hlookup], ?_⟩
    show Objects.Has objects ⟨addressOf (Int64.ofNat address), g.ty⟩
    rwa [addressOf_ofNat hlt]
  | string hc =>
    obtain ⟨-, n, hn, htext, -⟩ := h.text hc
    exact ⟨.int n, hn, htext⟩

/-- An integer operand has a number that is normal for its width, by `Word.IsNormal`. -/
theorem integer (h : s.Holds image L floor objects Γ H) {bits : Nat}
    (hv : HasKind (Γ.withHeld H) v (.value (.int bits))) :
    ∃ n, image.value s.frame v = .ok (.int n) ∧ image.int s.frame v = .ok n
      ∧ Word.IsNormal bits n := by
  obtain ⟨x, hx, hfits⟩ := h.value hv
  obtain ⟨n, rfl, hn⟩ := hfits.exists_int
  exact ⟨n, hx, by rw [Image.int, hx], hn⟩

theorem real (h : s.Holds image L floor objects Γ H)
    (hv : HasKind (Γ.withHeld H) v (.value .real)) :
    ∃ r, image.value s.frame v = .ok (.real r) ∧ image.real s.frame v = .ok r := by
  obtain ⟨x, hx, hfits⟩ := h.value hv
  obtain ⟨r, rfl⟩ := hfits.exists_real
  exact ⟨r, hx, by rw [Image.real, hx]⟩

/-- An operand that is a place has an address at which an object `Has` a part of that type. -/
theorem place (h : s.Holds image L floor objects Γ H) {ty : Ty}
    (hv : HasKind (Γ.withHeld H) v (.place ty)) :
    ∃ n, image.value s.frame v = .ok (.int n) ∧ image.int s.frame v = .ok n
      ∧ Objects.Has objects ⟨addressOf n, ty⟩ := by
  obtain ⟨x, hx, hfits⟩ := h.value hv
  obtain ⟨n, rfl, hn⟩ := hfits.exists_place
  exact ⟨n, hx, by rw [Image.int, hx], hn⟩

theorem integers (h : s.Holds image L floor objects Γ H) {operands : List Value}
    (hv : ∀ v ∈ operands, HasKind (Γ.withHeld H) v (.value .integer)) :
    ∃ ns, image.ints s.frame operands = .ok ns ∧ ns.length = operands.length := by
  induction operands with
  | nil => exact ⟨[], rfl, rfl⟩
  | cons v rest ih =>
    obtain ⟨hfirst, hrest⟩ := List.forall_mem_cons.mp hv
    obtain ⟨n, -, hn, -⟩ := h.integer hfirst
    obtain ⟨ns, hns, hlength⟩ := ih hrest
    refine ⟨n :: ns, ?_, congrArg (· + 1) hlength⟩
    simp only [Image.ints, hn, hns]
    rfl

/-- `Image.values` of typed arguments fit the parameters. -/
theorem values (h : s.Holds image L floor objects Γ H) {operands : List Value}
    {parameters : List Parameter}
    (hv : List.Forall₂ (fun v p => HasKind (Γ.withHeld H) v p.kind) operands parameters) :
    ∃ xs, image.values s.frame operands = .ok xs
      ∧ List.Forall₂ (fun x k => x.Fits image objects k) xs (parameters.map Parameter.kind) := by
  induction hv with
  | nil => exact ⟨[], rfl, .nil⟩
  | cons hfirst _ ih =>
    obtain ⟨x, hx, hfits⟩ := h.value hfirst
    obtain ⟨xs, hxs, hrest⟩ := ih
    refine ⟨x :: xs, ?_, .cons hfits hrest⟩
    simp only [Image.values, hx, hxs]
    rfl

end State.Holds

/-! ## Faults -/

/-- An instruction that prints a STRING which is null. -/
def WritesNull (image : Image) (f : Frame) (i : Instr) : Prop :=
  ∃ c ∈ image.program.strings, ∃ value : Value,
    i = .call none printfName .status [.string c.name, value]
      ∧ (c.bytes = Text.utf8Bytes "%s" ∨ c.bytes = Text.utf8Bytes "%s\n")
      ∧ image.value f value = .ok (.int 0)

/-- A fault that an instruction of a typed program can end with. -/
inductive Fault.Permitted (image : Image) (f : Frame) (i : Instr) : Fault → Prop
  | divisionByZero : Permitted image f i .divisionByZero
  | indexOutOfRange (index : Int64) : Permitted image f i (.indexOutOfRange index)
  | stackOverflow : Permitted image f i (.stackOverflow maxDepth)
  | outOfMemory : Permitted image f i (.outOfMemory maxMemory)
  | writesNull (h : WritesNull image f i) : Permitted image f i (.badAddress 0)

/-- What `Image.execute` of an instruction of a typed program gives: a typed state, or a fault that
is `Permitted`. -/
def Executed (image : Image) (L : Linkage) (floor : Nat) (f : Frame) (i : Instr) :
    Except Fault State → Prop
  | .error e => e.Permitted image f i
  | .ok t => ∃ objects Γ H, t.Typed image L floor objects Γ H

/-! ## Instructions -/

/-- `binary` on integers of a width gives one of that width, or divides by zero. -/
theorem binary_integer {op : BinOp} {bits : Nat} (a b : Int64) (hop : op.isReal = false)
    (hbits : (Ty.int bits).IsScalar) :
    binary op bits (.int a) (.int b) = .error .divisionByZero
      ∨ ∃ n, binary op bits (.int a) (.int b) = .ok (.int n) ∧ Word.IsNormal bits n := by
  have hok : ∀ n, integerOp op a b = .ok n → ∃ n, binary op bits (.int a) (.int b) = .ok (.int n)
      ∧ Word.IsNormal bits n := by
    intro n hn
    refine ⟨Word.wrap bits n, ?_, Word.isNormal_wrap hbits.1 hbits.2 n⟩
    simp only [binary, hn]
    rfl
  have hzero : integerOp op a b = .error .divisionByZero →
      binary op bits (.int a) (.int b) = .error .divisionByZero := by
    intro hn
    simp only [binary, hn]
    rfl
  cases op with
  | sdiv =>
    by_cases hb : b = 0
    · exact .inl (hzero (if_pos hb))
    · exact .inr (hok _ (if_neg hb))
  | srem =>
    by_cases hb : b = 0
    · exact .inl (hzero (if_pos hb))
    · exact .inr (hok _ (if_neg hb))
  | fadd => exact nomatch hop
  | fsub => exact nomatch hop
  | fmul => exact nomatch hop
  | fdiv => exact nomatch hop
  | add => exact .inr (hok _ rfl)
  | sub => exact .inr (hok _ rfl)
  | mul => exact .inr (hok _ rfl)
  | and => exact .inr (hok _ rfl)
  | or => exact .inr (hok _ rfl)
  | xor => exact .inr (hok _ rfl)

/-- `binary` on doubles always has a result. -/
theorem binary_real {op : BinOp} (bits : Nat) (a b : Double) (hop : op.isReal = true) :
    ∃ r, binary op bits (.real a) (.real b) = .ok (.real r) := by
  cases op <;> first | exact ⟨_, rfl⟩ | exact nomatch hop

namespace State.Ready

/-- The instruction is `Executed` if it sets a temporary and all else stays. -/
theorem sets (h : s.Ready image L floor objects Γ H i) {out : Nat} {x : Scalar}
    (hdefines : i.defines = [(out, k)]) (hx : x.Fits image objects k) :
    Executed image L floor s.frame i (.ok { s with frame := s.frame.set out x }) :=
  ⟨_, _, _, h.next (some out) List.suffix_rfl h.memory le_rfl hdefines fun _ => hx⟩

/-- The instruction is `Executed` if objects change their bytes and all else stays. -/
theorem stores (h : s.Ready image L floor objects Γ H i) {w : World}
    (hdefines : i.defines = []) (hm : w.memory.Typed image floor objects)
    (hsize : w.memory.size = s.world.memory.size) :
    Executed image L floor s.frame i (.ok { s with world := w }) :=
  ⟨_, _, _, h.next (k := .value .void) none (v := .int 0) List.suffix_rfl hm hsize.ge
    hdefines nofun⟩

/-- An `alloca` makes one more object, or memory is too small. -/
theorem allocas {out : Nat} {ty : Ty} (h : s.Ready image L floor objects Γ H (.alloca out ty))
    (hty : ty.IsProper) :
    Executed image L floor s.frame (.alloca out ty) (image.execute s (.alloca out ty)) := by
  rcases h.memory.allocate hty with herror | ⟨address, n, hok, hlt, hsize, hn⟩
  · simp only [Image.execute, herror]
    exact .outOfMemory
  · simp only [Image.execute, hok]
    refine ⟨_, _, _, h.next (w := { s.world with memory := n }) (some out)
      (v := .ofAddress address) (List.suffix_cons _ _) hn hsize rfl fun _ => ?_⟩
    show Objects.Has _ ⟨addressOf (Int64.ofNat address), ty⟩
    rw [addressOf_ofNat hlt]
    exact ⟨_, List.mem_cons_self, .refl _⟩

/-- An `element` instruction gives a part of the array, or an index is out of range. -/
theorem elements {out : Nat} {base element : Ty} {address : Value} {indices : List Value}
    (h : s.Ready image L floor objects Γ H (.element out base address (.integer 0 :: indices)))
    (ha : HasKind (Γ.withHeld H) address (.place base))
    (hs : base.strip indices.length = some element)
    (hi : ∀ v ∈ indices, HasKind (Γ.withHeld H) v (.value .integer)) :
    Executed image L floor s.frame (.element out base address (.integer 0 :: indices))
      (image.execute s (.element out base address (.integer 0 :: indices))) := by
  obtain ⟨n, -, hn, hplace⟩ := h.place ha
  obtain ⟨ns, hns, hlength⟩ := h.integers hi
  have hall : image.ints s.frame (.integer 0 :: indices) = .ok (0 :: ns) := by
    simp only [Image.ints, hns]
    rfl
  have hbase : addressOf n + base.width < 2 ^ 64 := by
    have hbounds := h.memory.part_bounds hplace
    have hmax : maxMemory < 2 ^ 64 := by decide
    omega
  rcases elementAddress_part (h.memory.part_isProper hplace) (hlength.symm ▸ hs) hbase
    with ⟨index, herror⟩ | ⟨place, hok, hpart⟩
  · simp only [Image.execute, hn, hall]
    show Executed _ _ _ _ _ (do let place ← elementAddress base n (0 :: ns); _)
    rw [herror]
    exact .indexOutOfRange index
  · simp only [Image.execute, hn, hall]
    show Executed _ _ _ _ _ (do let place ← elementAddress base n (0 :: ns); _)
    rw [hok]
    refine h.sets (k := .place element) ?_ (hplace.trans hpart)
    rw [Instr.defines, List.length_cons, Nat.add_sub_cancel, hs]
    rfl

/-- `Image.call` of a function that the machine provides is done at once. -/
theorem call_primitive
    (h : ∀ f ∈ Module.primitives, image.program.function? f.name = some f) {name : String}
    (hname : name ∈ Module.primitives.map (·.name)) {arguments : List Value} {xs : List Scalar}
    (hxs : image.values s.frame arguments = .ok xs) :
    image.call s none name arguments
      = (primitive s.world name xs).map fun r => { s with world := r.2 } := by
  obtain ⟨f, hf, rfl⟩ := List.mem_map.mp hname
  have hbody : f.body = .external :=
    (by decide : ∀ f ∈ Module.primitives, f.body = .external) f hf
  simp only [Image.call, h f hf, hxs, hbody]
  show (do let r ← primitive s.world f.name xs; _) = _
  cases primitive s.world f.name xs <;> rfl

/-- A call of `printfName` prints a value by its conversion. -/
theorem prints {c : StringConstant} {conversion ending : String} {value : Value} {ty : Ty}
    (h : s.Ready image L floor objects Γ H
      (.call none printfName .status [.string c.name, value]))
    (hc : c ∈ (Γ.withHeld H).strings) (hb : c.bytes = Text.utf8Bytes (conversion ++ ending))
    (hf : printFormat? ty = some conversion) (he : ending = "" ∨ ending = "\n")
    (hv : HasKind (Γ.withHeld H) value (.value ty)) :
    Executed image L floor s.frame (.call none printfName .status [.string c.name, value])
      (image.execute s (.call none printfName .status [.string c.name, value])) := by
  obtain ⟨hc, n, hn, -, htext⟩ := h.text hc
  obtain ⟨x, hx, hfits⟩ := h.value hv
  have hvalues : image.values s.frame [.string c.name, value] = .ok [.int n, x] := by
    simp only [Image.values, hn, hx]
    rfl
  show Executed _ _ _ _ _ (image.call s none printfName [.string c.name, value])
  rw [call_primitive h.linked.primitive (by decide) hvalues, primitive_print (hb ▸ htext) hf he]
  rcases convert_typed h.memory.texts hf hfits with ⟨text, hok⟩ | ⟨rfl, rfl, herror⟩
  · rw [hok]
    exact h.stores rfl h.memory rfl
  · rw [herror]
    obtain rfl := Option.some.inj hf
    refine .writesNull ⟨c, hc, value, rfl, ?_, hx⟩
    rcases he with rfl | rfl
    · exact .inl hb
    · exact .inr hb

theorem newlines {c : StringConstant}
    (h : s.Ready image L floor objects Γ H (.call none putsName .status [.string c.name]))
    (hc : c ∈ (Γ.withHeld H).strings) :
    Executed image L floor s.frame (.call none putsName .status [.string c.name])
      (image.execute s (.call none putsName .status [.string c.name])) := by
  obtain ⟨hc, n, hn, -, htext⟩ := h.text hc
  have hvalues : image.values s.frame [.string c.name] = .ok [.int n] := by
    simp only [Image.values, hn]
    rfl
  show Executed _ _ _ _ _ (image.call s none putsName [.string c.name])
  rw [call_primitive h.linked.primitive (by decide) hvalues]
  simp only [primitive, htext]
  exact h.stores rfl h.memory rfl

/-- A call of `scanfName` stores a value of the type of its conversion, or finds none. -/
theorem reads {c : StringConstant} {conversion : String} {address : Value} {ty : Ty}
    (h : s.Ready image L floor objects Γ H
      (.call none scanfName .status [.string c.name, address]))
    (hc : c ∈ (Γ.withHeld H).strings) (hb : c.bytes = Text.utf8Bytes conversion)
    (hf : Emit.readFormat? ty = some conversion)
    (ha : HasKind (Γ.withHeld H) address (.place ty)) :
    Executed image L floor s.frame (.call none scanfName .status [.string c.name, address])
      (image.execute s (.call none scanfName .status [.string c.name, address])) := by
  obtain ⟨hc, n, hn, -, htext⟩ := h.text hc
  obtain ⟨a, ha, -, hplace⟩ := h.place ha
  have hvalues : image.values s.frame [.string c.name, address] = .ok [.int n, .int a] := by
    simp only [Image.values, hn, ha]
    rfl
  obtain ⟨result, w, hread, hm, hsize⟩ := readFormat_typed h.memory hf hplace
  show Executed _ _ _ _ _ (image.call s none scanfName [.string c.name, address])
  rw [call_primitive h.linked.primitive (by decide) hvalues, primitive_read (hb ▸ htext), hread]
  exact h.stores rfl hm hsize

/-- `Image.call` of a procedure makes a frame that holds its arguments; the caller waits for the
result. -/
theorem calls {out : Option Nat} {sig : Signature} {arguments : List Value}
    (h : s.Ready image L floor objects Γ H (.call out sig.symbol sig.result arguments))
    (hs : sig ∈ Γ.signatures) (hout : out.isSome → sig.result ≠ .void)
    (ha : List.Forall₂ (fun v p => HasKind (Γ.withHeld H) v p.kind) arguments sig.parameters) :
    Executed image L floor s.frame (.call out sig.symbol sig.result arguments)
      (image.execute s (.call out sig.symbol sig.result arguments)) := by
  obtain ⟨f, hfind, himpl⟩ := h.linked.procedure sig (h.linkage ▸ hs)
  obtain ⟨xs, hxs, hfits⟩ := h.values ha
  obtain ⟨blocks, -, hbody, -⟩ := himpl.body
  simp only [Image.execute, Image.call, hfind, hxs, hbody]
  show Executed _ _ _ _ _ (if maxDepth ≤ s.callers.length + 1 then _ else _)
  by_cases hdepth : maxDepth ≤ s.callers.length + 1
  · rw [if_pos hdepth]
    exact .stackOverflow
  · rw [if_neg hdepth]
    obtain ⟨g, Δ, henter, hΔ, hresult, hg, hbase, hout'⟩ := Frame.enter_typed himpl hbody
      (h.linkage ▸ h.frame.globals) hfits s.world.memory.size out
    show Executed _ _ _ _ _ (do let frame ← Frame.enter _ _ _ _ _; _)
    rw [henter]
    -- the caller waits with what it holds; the result is added when the call returns
    have hdefines : (Instr.call out sig.symbol sig.result arguments).defines
        = (out.map (·, Kind.value sig.result)).toList := by
      cases out <;> rfl
    refine ⟨objects, Δ, [], h.linked, hΔ, h.memory, hg, hbase.le, ?_⟩
    show CallersTyped image L floor objects Δ.result g.base g.out (s.frame :: s.callers)
    rw [hresult, hbase, hout']
    exact .cons h.linkage List.suffix_rfl (fun o ho => (h.memory.bounds o ho).2.1)
      h.memory.texts.floor_le h.base_le hout
      (fun v hv => h.frame_next out (List.Subset.refl _) hdefines hv) h.callers

/-- `Image.execute` of a typed instruction leads to a typed state, or to a permitted fault. -/
theorem executed (h : s.Ready image L floor objects Γ H i) :
    Executed image L floor s.frame i (image.execute s i) := by
  cases h.typed with
  | alloca hty => exact h.allocas hty
  | load hty ha =>
    obtain ⟨n, -, hn, hplace⟩ := h.place ha
    obtain ⟨x, hx, hfits⟩ := h.memory.read hty hplace
    simp only [Image.execute, hn]
    show Executed _ _ _ _ _ (do let value ← Memory.read _ _ _; _)
    rw [hx]
    exact h.sets rfl hfits
  | @store value address ty hv ha =>
    have hty : value.ty = ty := hv.ty_eq
    obtain ⟨n, -, hn, hplace⟩ := h.place ha
    obtain ⟨x, hx, hfits⟩ := h.value hv
    obtain ⟨m, hm, htyped, hsize⟩ := h.memory.write (hv.isProper h.frame.isProper) hplace hfits
    simp only [Image.execute, hn, hx, hty]
    show Executed _ _ _ _ _ (do let memory ← Memory.write _ _ _ _; _)
    rw [hm]
    exact h.stores rfl htyped hsize
  | @integerBinary out bits op lhs rhs hop hl hr =>
    have hwidth : widthOf lhs.ty = bits := by rw [hl.ty_eq]; rfl
    obtain ⟨a, ha, -, -⟩ := h.integer hl
    obtain ⟨b, hb, -, -⟩ := h.integer hr
    simp only [Image.execute, ha, hb, hwidth]
    show Executed _ _ _ _ _ (do let value ← binary op bits (.int a) (.int b); _)
    rcases binary_integer a b hop (hl.isProper h.frame.isProper) with hzero | ⟨n, hn, hnormal⟩
    · rw [hzero]
      exact .divisionByZero
    · rw [hn]
      exact h.sets (k := .value (.int bits)) (by rw [Instr.defines, hl.ty_eq]; rfl) hnormal
  | @realBinary out op lhs rhs hop hl hr =>
    obtain ⟨a, ha, -⟩ := h.real hl
    obtain ⟨b, hb, -⟩ := h.real hr
    obtain ⟨r, hr⟩ := binary_real (widthOf lhs.ty) a b hop
    simp only [Image.execute, ha, hb]
    show Executed _ _ _ _ _ (do let value ← binary op (widthOf lhs.ty) (.real a) (.real b); _)
    rw [hr]
    exact h.sets (k := .value .real) (by rw [Instr.defines, hl.ty_eq]; rfl) trivial
  | fneg hv =>
    obtain ⟨r, -, hr⟩ := h.real hv
    simp only [Image.execute, hr]
    exact h.sets (k := .value .real) rfl trivial
  | icmp hl hr =>
    obtain ⟨a, -, ha, -⟩ := h.integer hl
    obtain ⟨b, -, hb, -⟩ := h.integer hr
    simp only [Image.execute, ha, hb]
    exact h.sets (k := .value .boolean) rfl (Word.isNormal_ofBool _)
  | fcmp hl hr =>
    obtain ⟨a, -, ha⟩ := h.real hl
    obtain ⟨b, -, hb⟩ := h.real hr
    simp only [Image.execute, ha, hb]
    exact h.sets (k := .value .boolean) rfl (Word.isNormal_ofBool _)
  | sext hv hlt hb =>
    obtain ⟨n, -, hn, hnormal⟩ := h.integer hv
    simp only [Image.execute, Image.cast, hn]
    exact h.sets rfl (hnormal.mono hlt.le)
  | trunc hv hlt hb =>
    obtain ⟨n, -, hn, -⟩ := h.integer hv
    simp only [Image.execute, Image.cast, hn]
    exact h.sets rfl (Word.isNormal_wrap hb.1 hb.2 n)
  | sitofp hv =>
    obtain ⟨n, -, hn, -⟩ := h.integer hv
    simp only [Image.execute, Image.cast, hn]
    exact h.sets (k := .value .real) rfl trivial
  | fptosi hv hb =>
    obtain ⟨r, -, hr⟩ := h.real hv
    simp only [Image.execute, Image.cast, hr]
    exact h.sets rfl (Word.isNormal_wrap hb.1 hb.2 _)
  | element ha hs hi => exact h.elements ha hs hi
  | call hs hr ha => exact h.calls hs (by rintro ⟨⟩) ha
  | callValue hs hr ha => exact h.calls hs (fun _ => hr) ha
  | print hc hb hf he hv => exact h.prints hc hb hf he hv
  | newline hc => exact h.newlines hc
  | read hc hb hf ha => exact h.reads hc hb hf ha
  | copy hd hs hb =>
    obtain ⟨d, -, hd, hplace⟩ := h.place hd
    obtain ⟨o, -, ho, horigin⟩ := h.place hs
    obtain rfl := Ty.eq_width_of_size? hb
    obtain ⟨m, hm, htyped, hsize⟩ := h.memory.copy hplace horigin
    simp only [Image.execute, hd, ho]
    show Executed _ _ _ _ _ (do let memory ← Memory.copy _ _ _ _; _)
    rw [hm]
    exact h.stores rfl htyped hsize

end State.Ready

/-! ## Terminators -/

/-- What `Image.step` of a typed program leads to. -/
def Progress.Typed (image : Image) (L : Linkage) (floor : Nat) : Progress → Prop
  | .running t => ∃ objects Γ H, t.Typed image L floor objects Γ H
  | .halted _ _ => True

/-- `Image.leave` with a value of the result type gives way to the call that waits for it. -/
theorem leave_typed (h : s.Holds image L floor objects Γ H) {value : Option Scalar}
    (hvalue : (Γ.result = .void ∧ value = none)
      ∨ ∃ x, value = some x ∧ x.Fits image objects (.value Γ.result)) :
    ∃ p, Image.leave s value = .ok p ∧ p.Typed image L floor := by
  have hcallers := h.callers
  unfold Image.leave
  cases hs : s.callers with
  | nil => exact ⟨_, rfl, trivial⟩
  | cons caller callers =>
    rw [hs] at hcallers
    cases hcallers with
    | cons hΓ hkept hbelow hfloor hbase hout hresume hrest =>
      have hm := h.memory.truncate hkept hfloor h.base_le hbelow
      have hsize : (s.world.memory.truncate s.frame.base).size = s.frame.base :=
        min_eq_right h.base_le
      cases ho : s.frame.out with
      | none =>
        rw [ho] at hresume
        exact ⟨_, rfl, _, _, _, h.linked, hΓ, hm, hresume (.int 0) nofun, hsize.symm ▸ hbase, hrest⟩
      | some out =>
        rw [ho] at hout hresume
        obtain ⟨x, rfl, hx⟩ := hvalue.resolve_left fun hvoid => hout rfl hvoid.1
        exact ⟨_, rfl, _, _, _, h.linked, hΓ, hm, hresume x fun _ => hx.value, hsize.symm ▸ hbase,
          hrest⟩

/-- `Image.terminate` leads to a typed state, or ends the run. -/
theorem terminate_typed (h : s.Typed image L floor objects Γ H) (hrest : s.frame.rest = []) :
    ∃ p, image.terminate s = .ok p ∧ p.Typed image L floor := by
  have hholds := h.holds
  obtain ⟨t, ht, htyped⟩ := h.frame.terminator
  rw [hrest, definitions, List.flatMap_nil, List.append_nil] at htyped
  unfold Image.terminate
  rw [ht]
  -- either way of a branch is a jump to a block that accepts what is held
  have hjump : ∀ {label}, (Γ.withHeld H).Accepts label → ∃ f, s.frame.jump label = .ok f
      ∧ (Progress.running { s with frame := f }).Typed image L floor := by
    intro label hlabel
    obtain ⟨f, K, hf, hframe, hbase, hout⟩ := h.frame.toHolds.jump hlabel
    exact ⟨f, hf, objects, Γ, K, h.linked, h.linkage, h.memory, hframe, hbase ▸ h.base_le,
      hbase ▸ hout ▸ h.callers⟩
  cases htyped with
  | jump htarget =>
    obtain ⟨f, hf, hnext⟩ := hjump htarget
    dsimp only
    rw [hf]
    exact ⟨_, rfl, hnext⟩
  | @branch condition onTrue onFalse hc htrue hfalse =>
    obtain ⟨n, -, hn, -⟩ := hholds.integer hc
    have htarget : (Γ.withHeld H).Accepts (if n = 0 then onFalse else onTrue) := by
      split
      · exact hfalse
      · exact htrue
    obtain ⟨f, hf, hnext⟩ := hjump htarget
    refine ⟨_, ?_, hnext⟩
    simp only [hn]
    show (s.frame.jump (if n = 0 then onFalse else onTrue) >>= _) = _
    rw [hf]
    rfl
  | ret hvoid => exact leave_typed hholds (.inl ⟨hvoid, rfl⟩)
  | retValue hv =>
    obtain ⟨x, hx, hfits⟩ := hholds.value hv
    dsimp only
    rw [hx]
    exact leave_typed hholds (.inr ⟨x, rfl, hfits⟩)

/-! ## Steps and runs -/

/-- `Image.value` does not depend on the code that is left. -/
theorem value_rest (image : Image) (f : Frame) (rest : List Instr) (v : Value) :
    image.value { f with rest } v = image.value f v := by
  cases v <;> rfl

theorem values_rest (image : Image) (f : Frame) (rest : List Instr) (operands : List Value) :
    image.values { f with rest } operands = image.values f operands := by
  induction operands with
  | nil => rfl
  | cons v others ih => simp only [Image.values, value_rest, ih]

theorem Fault.Permitted.of_rest {f : Frame} {rest : List Instr} {e : Fault}
    (h : e.Permitted image { f with rest } i) : e.Permitted image f i := by
  cases h with
  | divisionByZero => exact .divisionByZero
  | indexOutOfRange index => exact .indexOutOfRange index
  | stackOverflow => exact .stackOverflow
  | outOfMemory => exact .outOfMemory
  | writesNull hnull =>
    obtain ⟨c, hc, value, hi, hbytes, hvalue⟩ := hnull
    exact .writesNull ⟨c, hc, value, hi, hbytes, value_rest image f rest value ▸ hvalue⟩

/-- `Image.step` leads to a typed state, ends the run, or ends with a permitted fault of the
instruction that comes next. -/
theorem step_typed (h : s.Typed image L floor objects Γ H) :
    (∃ p, image.step s = .ok p ∧ p.Typed image L floor)
      ∨ ∃ i rest e, s.frame.rest = i :: rest ∧ image.step s = .error e
        ∧ e.Permitted image s.frame i := by
  unfold Image.step
  cases hrest : s.frame.rest with
  | nil => exact .inl (terminate_typed h hrest)
  | cons i rest =>
    have hexecuted := (h.ready hrest).executed
    dsimp only
    cases hexec : image.execute { s with frame := { s.frame with rest } } i with
    | error e =>
      rw [hexec] at hexecuted
      exact .inr ⟨i, rest, e, rfl, rfl, hexecuted.of_rest⟩
    | ok t =>
      rw [hexec] at hexecuted
      exact .inl ⟨_, rfl, hexecuted⟩

/-- One step of `Image.step` leads from a state to another. -/
def Image.Moves (image : Image) (s t : State) : Prop :=
  image.step s = .ok (.running t)

/-- All states to which `Image.Moves` leads from a typed state are typed. -/
theorem typed_of_moves {t : State} (h : s.Typed image L floor objects Γ H)
    (hmoves : ReflTransGen image.Moves s t) :
    ∃ objects Γ H, t.Typed image L floor objects Γ H := by
  induction hmoves with
  | refl => exact ⟨objects, Γ, H, h⟩
  | tail _ hstep ih =>
    obtain ⟨objects, Γ, H, ht⟩ := ih
    have hstep : image.step _ = .ok (.running _) := hstep
    rcases step_typed ht with ⟨p, hp, htyped⟩ | ⟨i, rest, e, -, herror, -⟩
    · obtain rfl := Except.ok.inj (hstep.symm.trans hp)
      exact htyped
    · exact nomatch hstep.symm.trans herror

/-- An `Image.run` that ends with a fault runs out of steps, or comes to a state whose step does
so. -/
theorem exists_step_of_run {budget fuel : Nat} {e : Fault}
    (h : image.run budget fuel s = .error e) :
    e = .outOfFuel budget ∨ ∃ t, ReflTransGen image.Moves s t ∧ image.step t = .error e := by
  induction fuel generalizing s with
  | zero => exact .inl (Except.error.inj h).symm
  | succ fuel ih =>
    rw [Image.run] at h
    cases hstep : image.step s with
    | error e' =>
      rw [hstep] at h
      obtain rfl := Except.error.inj h
      exact .inr ⟨s, .refl, hstep⟩
    | ok p =>
      rw [hstep] at h
      cases p with
      | halted result world => exact nomatch h
      | running t =>
        refine (ih h).imp_right ?_
        rintro ⟨u, hu, herror⟩
        exact ⟨u, .head hstep hu, herror⟩

end

end Oberon.Machine
