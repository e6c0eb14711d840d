import Oberon.Proofs.Calls
import Oberon.Proofs.Discipline
import Oberon.Proofs.Steps
import Oberon.Proofs.CheckedRuns

/-!
# Integers stay in the ranges of their types

A temporary or a parameter of `N` bits holds a number that `N` bits can hold, at any time of any run
and in every call that is under way. What is computed, loaded or narrowed is wrapped. What is
widened, passed or returned is not, so that its range is that of where it comes from: a temporary is
defined by one instruction only, with the type that all operands name, arguments have the types of
their parameters, and results those of their functions.

No typing of memory is needed for this, as what is loaded is wrapped, whatever the bytes are.
-/

namespace Oberon

open Code Machine Relation

/-! ## Temporaries of a function -/

/-- A function has a temporary of a type: an instruction `Defines` it or an operand names it so. -/
def Code.Function.HasTemp (g : Function) (index : Nat) (ty : Ty) : Prop :=
  ∃ b ∈ g.blocks, .temp index ty ∈ b.operands ∨ ∃ i ∈ b.instrs, i.Defines index ty

section

variable {L : Linkage} {sig : Signature} {g : Function} {index : Nat} {ty : Ty}

/-- No two instructions of a function have the same `output`, if its `outputs` differ. -/
theorem Code.Function.eq_of_output (hunique : g.outputs.Nodup) {b c : Block} (hb : b ∈ g.blocks)
    (hc : c ∈ g.blocks) {i j : Instr} (hi : i ∈ b.instrs) (hj : j ∈ c.instrs)
    (hout : i.output = some index) (hout' : j.output = some index) : i = j := by
  have houtputs : g.outputs = (g.blocks.toList.flatMap (·.instrs)).filterMap Instr.output := by
    rw [List.filterMap_flatMap]
    rfl
  rw [houtputs, List.Nodup, List.pairwise_filterMap] at hunique
  have : Std.Symm fun i j : Instr =>
      ∀ a, i.output = some a → ∀ b, j.output = some b → a ≠ b :=
    ⟨fun i j h a ha b hb => (h b hb a ha).symm⟩
  have hmem {c : Block} (hc : c ∈ g.blocks) {j : Instr} (hj : j ∈ c.instrs) :
      j ∈ g.blocks.toList.flatMap (·.instrs) :=
    List.mem_flatMap.mpr ⟨c, Array.mem_toList_iff.mpr hc, hj⟩
  by_contra hne
  exact hunique.forall (hmem hb hi) (hmem hc hj) hne index hout index hout' rfl

/-- The instruction that defines a temporary has the type of all its uses, by `HasTemp`. -/
theorem Code.Function.HasTemp.resultType_eq {p : Program} (h : g.HasTemp index ty)
    (hg : g.Disciplined p) (hunique : g.outputs.Nodup) {b : Block} (hb : b ∈ g.blocks) {i : Instr}
    (hi : i ∈ b.instrs) (hout : i.output = some index) : i.resultType = ty := by
  obtain ⟨c, hc, j, hj, hdefines⟩ : ∃ c ∈ g.blocks, ∃ j ∈ c.instrs, j.Defines index ty := by
    obtain ⟨c, hc, hoperand | hinstr⟩ := h
    · exact hg.defined c hc index ty hoperand
    · exact ⟨c, hc, hinstr⟩
  rw [Code.Function.eq_of_output hunique hb hc hi hj hout hdefines.1]
  exact hdefines.2

/-- Every instruction of a function that `Implements` a signature is typed where only proper types
are known. -/
theorem Code.Function.Implements.exists_proper (h : g.Implements L sig) {b : Block}
    (hb : b ∈ g.blocks) {i : Instr} (hi : i ∈ b.instrs) :
    ∃ Γ : Context, Γ.toLinkage = L ∧ Γ.IsProper ∧ i.Typed Γ := by
  obtain ⟨blocks, expected, hbody, hproper, htyped, -⟩ := h.body
  have hblocks : g.blocks = blocks := by rw [Function.blocks, hbody]
  rw [← hblocks] at htyped
  obtain ⟨H, hH, hblock⟩ := htyped.exists_typed_of_mem hb
  obtain ⟨done, rest, hcode⟩ := List.append_of_mem hi
  have hcode := hcode ▸ hblock.code
  have hstart : ((sig.context L expected).withHeld H).IsProper :=
    ⟨hproper.linkage, hproper.parameters, hproper.result, hproper.blocks, hproper.blocks H hH⟩
  exact ⟨_, rfl, (CodeTyped.append_iff.mp hcode).1.isProper hstart, hcode.typed_at⟩

/-- A function that `Implements` a signature returns what it is declared to. -/
theorem Code.Function.Implements.ret_ty (h : g.Implements L sig) {b : Block} (hb : b ∈ g.blocks)
    {value : Option Value} (hterm : b.terminator = some (.ret value)) :
    (value.map Value.ty).getD .void = g.result := by
  obtain ⟨blocks, expected, hbody, -, htyped, -⟩ := h.body
  have hblocks : g.blocks = blocks := by rw [Function.blocks, hbody]
  rw [← hblocks] at htyped
  obtain ⟨H, -, hblock⟩ := htyped.exists_typed_of_mem hb
  rw [h.result]
  cases hblock.terminator _ hterm with
  | ret hvoid => exact hvoid.symm
  | retValue hv => exact hv.ty_eq

/-- The function that `function?` finds for a procedure `Implements` its signature. -/
theorem Code.Program.Linked.implements_of_found {p : Program} {signatures : List Signature}
    (hp : p.Linked signatures) (hsig : sig ∈ (p.linkage signatures).signatures)
    (hfound : p.function? sig.symbol = some g) : g.Implements (p.linkage signatures) sig := by
  obtain ⟨found, hfind, himpl⟩ :=
    hp.function?_symbol hp.procedures hp.dots (List.mem_cons_of_mem entrySignature hsig)
  obtain rfl := Option.some.inj (hfind.symm.trans hfound)
  exact himpl

end

namespace Machine

/-! ## Scalars -/

/-- A number that `Word.IsNormal` for a type, if that is one of integers. -/
def Scalar.InRange (x : Scalar) (ty : Ty) : Prop :=
  ∀ bits, ty = .int bits → ∃ n, x = .int n ∧ Word.IsNormal bits n

/-- A number that `Word.IsNormal` for a width is `InRange` of the integers of that width. -/
theorem Scalar.inRange_int {bits : Nat} {n : Int64} (h : Word.IsNormal bits n) :
    (Scalar.int n).InRange (.int bits) := by
  rintro _ ⟨⟩
  exact ⟨n, rfl, h⟩

/-- Types of anything but integers have no range, so every scalar is `InRange`. -/
theorem Scalar.inRange_of_ne (x : Scalar) {ty : Ty} (h : ∀ bits, ty ≠ .int bits) :
    x.InRange ty :=
  fun bits hty => absurd hty (h bits)

/-- What `Memory.read` loads is wrapped, and so `InRange` of its type. -/
theorem Memory.inRange_of_read {m : Memory} {ty : Ty} {address : Nat} {x : Scalar}
    (hty : ty.IsScalar) (h : m.read ty address = .ok x) : x.InRange ty := by
  cases ty with
  | int bits =>
    obtain ⟨_, -, h⟩ := Except.bind_eq_ok.mp h
    obtain rfl := Except.ok.inj h
    exact Scalar.inRange_int (Word.isNormal_wrap hty.1 hty.2 _)
  | void => exact hty.elim
  | array length element => exact hty.elim
  | real => exact x.inRange_of_ne (by rintro _ ⟨⟩)
  | ptr => exact x.inRange_of_ne (by rintro _ ⟨⟩)

/-! ## Frames -/

/-- A call of `g` under way whose arguments and temporaries are in the ranges of their types. -/
structure Frame.Ranged (p : Program) (g : Function) (f : Frame) : Prop where
  found : p.function? f.function = some g
  body : g.body = .blocks f.blocks
  arguments : List.Forall₂ Scalar.InRange f.arguments g.parameters
  temps : ∀ index x, f.temps[index]? = some x →
    ∃ b ∈ g.blocks, ∃ i ∈ b.instrs, i.output = some index ∧ x.InRange i.resultType

namespace Frame.Ranged

variable {p : Program} {g : Function} {f f' : Frame} {image : Image}

theorem blocks_eq (h : f.Ranged p g) : g.blocks = f.blocks := by
  rw [Function.blocks, h.body]

theorem mem (h : f.Ranged p g) : g ∈ p.functions :=
  List.mem_of_find?_eq_some h.found

/-- An instruction that has been executed sets its temporary to a value of its type, and the frame
stays `Ranged`. -/
theorem set? (h : f.Ranged p g) {b : Block} (hb : b ∈ g.blocks) {i : Instr} (hi : i ∈ b.instrs)
    {out : Option Nat} (hout : ∀ index, out = some index → i.output = some index) {x : Scalar}
    (hx : x.InRange i.resultType) : (f.set? out x).Ranged p g := by
  cases out with
  | none => exact h
  | some out =>
    refine ⟨h.found, h.body, h.arguments, ?_⟩
    intro index y (hy : (f.temps.insert out x)[index]? = some y)
    rw [Std.TreeMap.getElem?_insert] at hy
    by_cases hindex : compare out index = .eq
    · rw [if_pos hindex] at hy
      obtain rfl := Option.some.inj hy
      obtain rfl := compare_eq_iff_eq.mp hindex
      exact ⟨b, hb, i, hi, hout out rfl, hx⟩
    · rw [if_neg hindex] at hy
      exact h.temps index y hy

theorem next (h : f.Ranged p g) (rest : List Instr) : ({ f with rest } : Frame).Ranged p g :=
  ⟨h.found, h.body, h.arguments, h.temps⟩

/-- `Frame.jump` stays in the same call, which stays `Ranged`. -/
theorem jump (h : f.Ranged p g) {label : Nat} (hjump : f.jump label = .ok f') :
    f'.Ranged p g ∧ f'.function = f.function ∧ f'.out = f.out := by
  unfold Frame.jump at hjump
  split at hjump
  · obtain rfl := Except.ok.inj hjump
    exact ⟨⟨h.found, h.body, h.arguments, h.temps⟩, rfl, rfl⟩
  · cases hjump

/-- `Frame.enter` starts a call with its arguments alone, and these are in range. -/
theorem enter {blocks : Array Block} {xs : List Scalar} {base : Nat} {out : Option Nat}
    (hfound : p.function? g.name = some g) (hbody : g.body = .blocks blocks)
    (hxs : List.Forall₂ Scalar.InRange xs g.parameters)
    (henter : Frame.enter g.name blocks xs base out = .ok f) :
    f.Ranged p g ∧ f.function = g.name ∧ f.out = out := by
  unfold Frame.enter at henter
  split at henter
  · obtain rfl := Except.ok.inj henter
    refine ⟨⟨hfound, hbody, hxs, ?_⟩, rfl, rfl⟩
    intro index x hx
    simp at hx
  · cases henter

/-- A temporary of a `Ranged` frame has a value in the range of any type that it is used with. -/
theorem temp (h : f.Ranged p g) (hg : g.Disciplined p) (hunique : g.outputs.Nodup) {index : Nat}
    {ty : Ty} (htemp : g.HasTemp index ty) {x : Scalar} (hx : f.temps[index]? = some x) :
    x.InRange ty := by
  obtain ⟨b, hb, i, hi, hout, hrange⟩ := h.temps index x hx
  rwa [htemp.resultType_eq hg hunique hb hi hout] at hrange

theorem argument (h : f.Ranged p g) {index : Nat} {ty : Ty} (hty : g.parameters[index]? = some ty)
    {x : Scalar} (hx : f.arguments[index]? = some x) : x.InRange ty := by
  obtain ⟨hlt, rfl⟩ := List.getElem?_eq_some_iff.mp hty
  obtain ⟨hlt', rfl⟩ := List.getElem?_eq_some_iff.mp hx
  exact h.arguments.get hlt' hlt

end Frame.Ranged

/-! ## Instructions -/

section

variable {p : Program} {signatures : List Signature} {sig : Signature} {g : Function}
  {image : Image} {f : Frame} {s t : State}

theorem Image.value_of_int {v : Value} {n : Int64} (h : image.int f v = .ok n) :
    image.value f v = .ok (.int n) := by
  unfold Image.int at h
  split at h
  · obtain rfl := Except.ok.inj h
    assumption
  · cases h
  · cases h

/-- What `binary` computes from integers is in the range of their width. -/
theorem inRange_of_binary {op : BinOp} {bits : Nat} {a b x : Scalar}
    (hbits : (Ty.int bits).IsScalar) (ha : ∃ n, a = .int n) (h : binary op bits a b = .ok x) :
    x.InRange (.int bits) := by
  obtain ⟨n, rfl⟩ := ha
  cases b with
  | real r => cases h
  | int m =>
    obtain ⟨value, -, h⟩ := Except.bind_eq_ok.mp h
    obtain rfl := Except.ok.inj h
    exact Scalar.inRange_int (Word.isNormal_wrap hbits.1 hbits.2 value)

/-- What `Image.execute` computes from operands in their ranges is in the range of its type. -/
theorem Image.execute_inRange {Γ : Context} (hΓ : Γ.IsProper) {i : Instr} (htyped : i.Typed Γ)
    (hoperands : ∀ v ∈ i.operands, ∀ x, image.value s.frame v = .ok x → x.InRange v.ty)
    (hcall : ∀ out target result arguments, i ≠ .call out target result arguments)
    (hexec : image.execute s i = .ok t) :
    ∃ w x, t = { s with world := w, frame := s.frame.set? i.output x }
      ∧ x.InRange i.resultType := by
  -- only integers have a range
  have hother (hty : ∀ bits, i.resultType ≠ .int bits) : ∃ w x,
      t = { s with world := w, frame := s.frame.set? i.output x } ∧ x.InRange i.resultType := by
    obtain ⟨w, x, ht, -⟩ := Image.execute_eq hexec hcall
    exact ⟨w, x, ht, x.inRange_of_ne hty⟩
  cases htyped with
  | load hty ha =>
    obtain ⟨a, -, hexec⟩ := Except.bind_eq_ok.mp hexec
    obtain ⟨x, hx, hexec⟩ := Except.bind_eq_ok.mp hexec
    exact ⟨_, x, (Except.ok.inj hexec).symm, Memory.inRange_of_read hty hx⟩
  | @integerBinary out bits op lhs rhs hop hl hr =>
    obtain ⟨a, ha, hexec⟩ := Except.bind_eq_ok.mp hexec
    obtain ⟨b, -, hexec⟩ := Except.bind_eq_ok.mp hexec
    obtain ⟨x, hx, hexec⟩ := Except.bind_eq_ok.mp hexec
    have hty : lhs.ty = .int bits := hl.ty_eq
    obtain ⟨n, hn, -⟩ := hoperands lhs List.mem_cons_self a ha bits hty
    refine ⟨_, x, (Except.ok.inj hexec).symm, ?_⟩
    show x.InRange lhs.ty
    rw [hty] at hx ⊢
    exact inRange_of_binary (hl.isProper hΓ) ⟨n, hn⟩ hx
  | icmp hl hr =>
    obtain ⟨a, -, hexec⟩ := Except.bind_eq_ok.mp hexec
    obtain ⟨b, -, hexec⟩ := Except.bind_eq_ok.mp hexec
    exact ⟨_, _, (Except.ok.inj hexec).symm, Scalar.inRange_int (Word.isNormal_ofBool _)⟩
  | fcmp hl hr =>
    obtain ⟨a, -, hexec⟩ := Except.bind_eq_ok.mp hexec
    obtain ⟨b, -, hexec⟩ := Except.bind_eq_ok.mp hexec
    exact ⟨_, _, (Except.ok.inj hexec).symm, Scalar.inRange_int (Word.isNormal_ofBool _)⟩
  | @sext out a b value hv hlt hb =>
    obtain ⟨x, hx, hexec⟩ := Except.bind_eq_ok.mp hexec
    obtain ⟨n, hn, hx⟩ := Except.bind_eq_ok.mp hx
    obtain rfl := Except.ok.inj hx
    -- the number stays as it is, in the range of the smaller type
    obtain ⟨n', hn', hrange⟩ :=
      hoperands value List.mem_cons_self _ (Image.value_of_int hn) a hv.ty_eq
    obtain rfl := Scalar.int.inj hn'
    exact ⟨_, _, (Except.ok.inj hexec).symm, Scalar.inRange_int (hrange.mono hlt.le)⟩
  | trunc hv hlt hb =>
    obtain ⟨x, hx, hexec⟩ := Except.bind_eq_ok.mp hexec
    obtain ⟨n, -, hx⟩ := Except.bind_eq_ok.mp hx
    obtain rfl := Except.ok.inj hx
    exact ⟨_, _, (Except.ok.inj hexec).symm,
      Scalar.inRange_int (Word.isNormal_wrap hb.1 hb.2 n)⟩
  | fptosi hv hb =>
    obtain ⟨x, hx, hexec⟩ := Except.bind_eq_ok.mp hexec
    obtain ⟨r, -, hx⟩ := Except.bind_eq_ok.mp hx
    obtain rfl := Except.ok.inj hx
    exact ⟨_, _, (Except.ok.inj hexec).symm,
      Scalar.inRange_int (Word.isNormal_wrap hb.1 hb.2 r.toInt64)⟩
  | @realBinary out op lhs rhs hop hl hr =>
    have hty : lhs.ty = .real := hl.ty_eq
    refine hother fun bits (h : lhs.ty = .int bits) => ?_
    rw [hty] at h
    cases h
  | alloca h => exact hother (by rintro _ ⟨⟩)
  | store hv ha => exact hother (by rintro _ ⟨⟩)
  | fneg hv => exact hother (by rintro _ ⟨⟩)
  | sitofp hv => exact hother (by rintro _ ⟨⟩)
  | element ha hs hi => exact hother (by rintro _ ⟨⟩)
  | copy hd hs hb => exact hother (by rintro _ ⟨⟩)
  | call hs hr ha => exact absurd rfl (hcall _ _ _ _)
  | callValue hs hr ha => exact absurd rfl (hcall _ _ _ _)
  | print hc hb hf he hv => exact absurd rfl (hcall _ _ _ _)
  | newline hc => exact absurd rfl (hcall _ _ _ _)
  | read hc hb hf ha => exact absurd rfl (hcall _ _ _ _)

/-- An operand of a `Ranged` frame has a value in the range of its type. -/
theorem Frame.Ranged.value (h : f.Ranged p g) (himpl : g.Implements (p.linkage signatures) sig)
    (hunique : g.outputs.Nodup) {b : Block} (hb : b ∈ g.blocks) {v : Value}
    (hv : v ∈ b.operands) {x : Scalar} (hx : image.value f v = .ok x) : x.InRange v.ty := by
  have hg : g.Disciplined p := himpl.disciplined
  cases v with
  | int n bits =>
    obtain rfl := Except.ok.inj hx
    -- constants are wrapped to their width, which typing bounds
    obtain ⟨blocks, expected, hbody, -, htyped, -⟩ := himpl.body
    have hblocks : g.blocks = blocks := by rw [Function.blocks, hbody]
    rw [← hblocks] at htyped
    obtain ⟨H, k, -, hk⟩ := htyped.operand hb hv
    cases hk with
    | int _ hbits => exact Scalar.inRange_int (Word.isNormal_wrap hbits.1 hbits.2 n)
  | temp index ty =>
    simp only [Image.value] at hx
    split at hx
    · obtain rfl := Except.ok.inj hx
      exact h.temp hg hunique ⟨b, hb, .inl hv⟩ ‹_›
    · cases hx
  | param index ty =>
    simp only [Image.value] at hx
    split at hx
    · obtain rfl := Except.ok.inj hx
      exact h.argument (hg.parameters b hb index ty hv) ‹_›
    · cases hx
  | real r => exact x.inRange_of_ne (by rintro _ ⟨⟩)
  | null => exact x.inRange_of_ne (by rintro _ ⟨⟩)
  | global name => exact x.inRange_of_ne (by rintro _ ⟨⟩)
  | string name => exact x.inRange_of_ne (by rintro _ ⟨⟩)

/-- `Image.values` of arguments are in the ranges of the types that their operands have. -/
theorem Image.values_inRange {operands : List Value} {xs : List Scalar} {types : List Ty}
    (hoperands : ∀ v ∈ operands, ∀ x, image.value f v = .ok x → x.InRange v.ty)
    (htypes : operands.map Value.ty = types) (hxs : image.values f operands = .ok xs) :
    List.Forall₂ Scalar.InRange xs types := by
  subst htypes
  induction operands generalizing xs with
  | nil =>
    obtain rfl := Except.ok.inj hxs
    exact .nil
  | cons v rest ih =>
    obtain ⟨x, hx, hxs⟩ := Except.bind_eq_ok.mp hxs
    obtain ⟨others, hothers, hxs⟩ := Except.bind_eq_ok.mp hxs
    obtain rfl := Except.ok.inj hxs
    obtain ⟨hfirst, hrest⟩ := List.forall_mem_cons.mp hoperands
    exact .cons (hfirst x hx) (ih hrest hothers)

end

/-! ## Calls under way -/

/-- Calls under way, the innermost first, that are each `Ranged`. Where a call waits for a result,
this has the type of the temporary that takes it. The outermost call is that of the entry
function. -/
inductive FramesRanged (p : Program) : List Frame → Prop
  | entry {f : Frame} {g : Function} (hf : f.Ranged p g) (hname : f.function = entryName) :
    FramesRanged p [f]
  | call {f caller : Frame} {callers : List Frame} {g : Function} (hf : f.Ranged p g)
    (hout : ∀ out, f.out = some out →
      ∃ b ∈ caller.blocks, ∃ i ∈ b.instrs, i.Defines out g.result)
    (hcallers : FramesRanged p (caller :: callers)) : FramesRanged p (f :: caller :: callers)

section

variable {p : Program} {signatures : List Signature} {image : Image} {g : Function}
  {f f' : Frame} {callers : List Frame} {s t : State}

theorem Frame.Ranged.implements (h : f.Ranged p g) (hp : p.Linked signatures) :
    ∃ sig, g.Implements (p.linkage signatures) sig := by
  rcases hp.functions g h.mem with hprimitive | ⟨sig, -, himpl⟩
  · have hexternal := Module.primitives_external g hprimitive
    rw [Function.isExternal, h.body] at hexternal
    cases hexternal
  · exact ⟨sig, himpl⟩

/-- No function of a `Ranged` frame defines a temporary twice if the program does not. -/
theorem Frame.Ranged.unique (h : f.Ranged p g)
    (hunique : (p.functions.flatMap Function.outputs).Nodup) : g.outputs.Nodup :=
  (List.nodup_flatMap.mp hunique).1 g h.mem

theorem FramesRanged.exists_ranged {frames : List Frame} (h : FramesRanged p frames)
    (hf : f ∈ frames) : ∃ g, f.Ranged p g := by
  induction h with
  | entry h hname =>
    obtain rfl := List.mem_singleton.mp hf
    exact ⟨_, h⟩
  | call h hout hcallers ih =>
    rcases List.mem_cons.mp hf with rfl | hf
    · exact ⟨_, h⟩
    · exact ih hf

/-- `FramesRanged` stays true while the innermost call goes on. -/
theorem FramesRanged.next (h : FramesRanged p (f :: callers)) (hf : f.Ranged p g)
    (hf' : f'.Ranged p g) (hname : f'.function = f.function) (hout : f'.out = f.out) :
    FramesRanged p (f' :: callers) := by
  cases h with
  | entry h hentry => exact .entry hf' (hname.trans hentry)
  | call h hwaits hcallers =>
    obtain rfl := Option.some.inj (h.found.symm.trans hf.found)
    exact .call hf' (hout ▸ hwaits) hcallers

/-- What a `Ranged` frame returns is in the range of the result type of its function. -/
theorem Frame.Ranged.result (h : f.Ranged p g) (hp : p.Linked signatures)
    (hunique : (p.functions.flatMap Function.outputs).Nodup) (hblock : f.block ∈ f.blocks)
    {value : Option Value} (hterm : f.block.terminator = some (.ret value)) {x : Scalar}
    (hresult : image.result f value = .ok (some x)) : x.InRange g.result := by
  obtain ⟨sig, himpl⟩ := h.implements hp
  rw [← h.blocks_eq] at hblock
  have hty := himpl.ret_ty hblock hterm
  cases value with
  | none => cases hresult
  | some v =>
    obtain ⟨y, hy, hresult⟩ := Except.bind_eq_ok.mp hresult
    obtain rfl := Option.some.inj (Except.ok.inj hresult)
    have hv : v ∈ f.block.operands := by
      rw [Block.operands, hterm]
      exact List.mem_append_right _ List.mem_cons_self
    have hrange := h.value himpl (h.unique hunique) hblock hv hy
    rwa [show v.ty = g.result from hty] at hrange

/-- A step keeps all values in the ranges of their types: `FramesRanged` is an invariant. -/
theorem FramesRanged.moves (h : FramesRanged image.program (s.frame :: s.callers))
    (hp : image.program.Linked signatures)
    (hunique : (image.program.functions.flatMap Function.outputs).Nodup)
    (hin : s.RunsIn image.program) (hmoves : image.Moves s t) :
    FramesRanged image.program (t.frame :: t.callers) := by
  obtain ⟨g, hf⟩ := h.exists_ranged List.mem_cons_self
  obtain ⟨sig, himpl⟩ := hf.implements hp
  have hblock : s.frame.block ∈ g.blocks := hf.blocks_eq ▸ hin.frame.block
  -- the next instruction is one of the block, with its operands
  have hinstr {i : Instr} {rest : List Instr} (hrest : s.frame.rest = i :: rest) :
      i ∈ s.frame.block.instrs := hin.frame.rest i (hrest ▸ List.mem_cons_self)
  have hoperands {i : Instr} {rest : List Instr} (hrest : s.frame.rest = i :: rest) :
      ∀ v ∈ i.operands, ∀ x, image.value s.frame v = .ok x → x.InRange v.ty := by
    intro v hv x hx
    refine hf.value himpl (hf.unique hunique) hblock ?_ hx
    exact List.mem_append_left _ (List.mem_flatMap.mpr ⟨i, hinstr hrest, hv⟩)
  cases hmoves.advance with
  | @executes t i rest hrest hcall hexec =>
    obtain ⟨Γ, -, hΓ, htyped⟩ := himpl.exists_proper hblock (hinstr hrest)
    obtain ⟨w, x, rfl, hx⟩ := Image.execute_inRange hΓ htyped
      (fun v hv x hx => hoperands hrest v hv x (by rwa [value_rest] at hx)) hcall hexec
    exact h.next hf ((hf.next rest).set? hblock (hinstr hrest) (fun _ => id) hx) (by simp) (by simp)
  | @answers out target result arguments rest callee xs x w hrest hfound hbody hxs hx =>
    obtain ⟨Γ, hlinkage, -, htyped⟩ := himpl.exists_proper hblock (hinstr hrest)
    -- what the machine provides gives no result
    have hprocedure {sig : Signature} (hsig : sig ∈ Γ.signatures) (hsymbol : sig.symbol = target) :
        False := by
      have hsig : sig ∈ (image.program.linkage signatures).signatures := hlinkage ▸ hsig
      obtain ⟨blocks, -, hblocks, -⟩ := (hp.implements_of_found hsig (hsymbol ▸ hfound)).body
      rw [hblocks] at hbody
      cases hbody
    cases htyped with
    | call hs hr ha => exact (hprocedure hs rfl).elim
    | callValue hs hr ha => exact (hprocedure hs rfl).elim
    | print hc hb hf' he hv => exact h.next hf (hf.next rest) rfl rfl
    | newline hc => exact h.next hf (hf.next rest) rfl rfl
    | read hc hb hf' ha => exact h.next hf (hf.next rest) rfl rfl
  | @enters out target result arguments rest callee blocks xs f hrest hfound hbody hxs henter =>
    obtain ⟨Γ, hlinkage, -, htyped⟩ := himpl.exists_proper hblock (hinstr hrest)
    rcases htyped.call_fits with hprimitive | ⟨sig', hsig', rfl, htypes, hresult⟩
    · -- what the machine provides has no code
      obtain ⟨q, hq, rfl⟩ := List.mem_map.mp hprimitive
      obtain rfl := Option.some.inj ((hp.function?_primitive hp.dots hq).symm.trans hfound)
      have hexternal := Module.primitives_external q hq
      rw [Function.isExternal, hbody] at hexternal
      cases hexternal
    · have hsig' : sig' ∈ (image.program.linkage signatures).signatures := hlinkage ▸ hsig'
      have hcallee := hp.implements_of_found hsig' hfound
      have hname : callee.name = sig'.symbol := hcallee.name
      have hparameters : arguments.map Value.ty = callee.parameters :=
        htypes.trans hcallee.parameters.symm
      obtain ⟨hentered, -, hout⟩ := Frame.Ranged.enter (hname ▸ hfound) hbody
        (Image.values_inRange (hoperands hrest) hparameters hxs) henter
      refine .call hentered ?_ (h.next hf (hf.next rest) rfl rfl)
      intro index hindex
      refine ⟨s.frame.block, hin.frame.block, _, hinstr hrest, hout ▸ hindex, ?_⟩
      exact hresult.trans hcallee.result.symm
  | jumps hjump =>
    obtain ⟨hf', hname, hout⟩ := hf.jump hjump
    exact h.next hf hf' hname hout
  | @returns value result x caller callers hrest hterm hresult hcallers hx =>
    rw [hcallers] at h
    cases h with
    | call hf hout hwaiting =>
      obtain ⟨waiting, hcaller⟩ := hwaiting.exists_ranged List.mem_cons_self
      cases hindex : s.frame.out with
      | none => exact hwaiting
      | some index =>
        -- the result goes to a temporary of its own type
        obtain ⟨b, hb, i, hi, hdefines⟩ := hout index hindex
        rw [hindex] at hx
        rw [hx rfl] at hresult
        have hrange := hf.result hp hunique hin.frame.block hterm hresult
        rw [← hdefines.2] at hrange
        rw [← hcaller.blocks_eq] at hb
        have hset : (caller.set? (some index) x).Ranged image.program waiting := by
          refine hcaller.set? hb hi ?_ hrange
          rintro _ ⟨⟩
          exact hdefines.1
        exact hwaiting.next hcaller hset (by simp) (by simp)

theorem FramesRanged.of_moves (h : FramesRanged image.program (s.frame :: s.callers))
    (hp : image.program.Linked signatures)
    (hunique : (image.program.functions.flatMap Function.outputs).Nodup)
    (hin : s.RunsIn image.program) (hmoves : ReflTransGen image.Moves s t) :
    FramesRanged image.program (t.frame :: t.callers) := by
  induction hmoves with
  | refl => exact h
  | tail hmoves hstep ih => exact ih.moves hp hunique (hin.of_moves hmoves) hstep

/-- `start` makes a frame of the entry function, which has no parameters, so it is
`FramesRanged`. -/
theorem start_framesRanged (hp : p.Linked signatures) {w : World}
    (hstart : start p w = .ok (.running s)) : FramesRanged p (s.frame :: s.callers) := by
  obtain ⟨g, hfound, himpl⟩ := hp.function?_symbol hp.procedures hp.dots List.mem_cons_self
  have hname : g.name = entryName := himpl.name
  have hparameters : g.parameters = [] := himpl.parameters
  obtain ⟨blocks, -, hbody, -⟩ := himpl.body
  have hfound : p.function? entryName = some g := hfound
  simp only [start, hfound, hbody] at hstart
  obtain ⟨f, henter, hstart⟩ := Except.bind_eq_ok.mp hstart
  obtain rfl := Progress.running.inj (Except.ok.inj hstart)
  have hnone : List.Forall₂ Scalar.InRange [] g.parameters := hparameters ▸ .nil
  obtain ⟨hf, hfunction, -⟩ := Frame.Ranged.enter (hname ▸ hfound) hbody hnone henter
  exact .entry hf (hfunction.trans hname)

/-- `FramesRanged` holds in all states of all runs. -/
theorem framesRanged_of_reaches (hp : p.Linked signatures)
    (hunique : (p.functions.flatMap Function.outputs).Nodup) {input : String}
    (hs : Reaches p input image s) : FramesRanged p (s.frame :: s.callers) := by
  obtain ⟨m, first, hload, hstart, hmoves⟩ := hs
  obtain rfl := load_program hload
  exact (start_framesRanged hp hstart).of_moves hp hunique (start_runsIn hstart) hmoves

/-- A `run` that succeeds ends with a number of 32 bits, which the entry function returns. -/
theorem exists_status_of_run (hp : p.Linked signatures)
    (hunique : (p.functions.flatMap Function.outputs).Nodup) {input : String} {fuel : Nat}
    {e : Execution} (h : run p input fuel = .ok e) :
    ∃ image s n w, Reaches p input image s ∧ s.frame.function = entryName ∧ s.callers = []
      ∧ image.step s = .ok (.halted (some (.int n)) w) ∧ Word.IsNormal 32 n
      ∧ e = .ofResult (some (.int n)) w := by
  obtain ⟨g, hfound, himpl⟩ := hp.function?_symbol hp.procedures hp.dots List.mem_cons_self
  obtain ⟨blocks, -, hbody, -⟩ := himpl.body
  have hfound : p.function? entryName = some g := hfound
  have hstatus : g.result = .int 32 := himpl.result
  obtain ⟨image, m, result, w, hload, he, hhalted | ⟨s, hs, hhalted⟩⟩ := run_ok h
  · simp only [start, hfound, hbody] at hhalted
    obtain ⟨f, -, hhalted⟩ := Except.bind_eq_ok.mp hhalted
    cases Except.ok.inj hhalted
  · obtain ⟨-, hcallers, -, value, hterm, hresult⟩ := Image.step_halted hhalted
    have hranged := framesRanged_of_reaches hp hunique hs
    rw [hcallers] at hranged
    cases hranged with
    | entry hf hname =>
      obtain rfl := Option.some.inj (hfound.symm.trans (hname ▸ hf.found))
      have hblock : s.frame.block ∈ s.frame.blocks := by
        obtain ⟨m, first, hload, hstart, hmoves⟩ := hs
        obtain rfl := load_program hload
        exact ((start_runsIn hstart).of_moves hmoves).frame.block
      cases result with
      | none =>
        -- only a function without a result returns nothing
        have hty := himpl.ret_ty (hf.blocks_eq ▸ hblock) hterm
        cases value with
        | none =>
          rw [hstatus] at hty
          cases hty
        | some v =>
          obtain ⟨x, -, hresult⟩ := Except.bind_eq_ok.mp hresult
          cases Except.ok.inj hresult
      | some x =>
        obtain ⟨n, rfl, hn⟩ := hf.result hp hunique hblock hterm hresult 32 hstatus
        exact ⟨image, s, n, w, hs, hname, hcallers, hhalted, hn, he⟩

end

/-- `x` is what a call of `g` has in a temporary, or as an argument, of a type. -/
def Frame.HasValue (f : Frame) (g : Function) (ty : Ty) (x : Scalar) : Prop :=
  (∃ index : Nat, g.HasTemp index ty ∧ f.temps[index]? = some x)
    ∨ ∃ index : Nat, g.parameters[index]? = some ty ∧ f.arguments[index]? = some x

end Machine

/-- Whatever a module of plain names does, the integers of each call that is under way are in the
ranges of their types: each temporary and each argument of `N` bits holds a number from
`-2 ^ (N - 1)` to below `2 ^ (N - 1)`, and so each BOOLEAN is 0 or -1. The exit status of a run is
the number of 32 bits that the entry function returns. -/
theorem Module.integers_in_range {m : Module} {platform : Platform} {p : Program}
    (h : m.compile platform = .ok p) (hm : m.HasPlainNames) (input : String) :
    (∀ image s, Reaches p input image s → ∀ f ∈ s.frame :: s.callers,
      ∃ g, p.function? f.function = some g ∧ g.body = .blocks f.blocks
        ∧ f.arguments.length = g.parameters.length
        ∧ (∀ bits x, f.HasValue g (.int bits) x →
          ∃ n, x = .int n ∧ -2 ^ (bits - 1) ≤ n.toInt ∧ n.toInt < 2 ^ (bits - 1))
        ∧ ∀ x, f.HasValue g .boolean x → x = .int 0 ∨ x = .int (-1))
      ∧ ∀ fuel e, run p input fuel = .ok e → ∃ image s n w, Reaches p input image s
        ∧ s.frame.function = entryName ∧ s.callers = []
        ∧ image.step s = .ok (.halted (some (.int n)) w)
        ∧ -2 ^ 31 ≤ n.toInt ∧ n.toInt < 2 ^ 31 ∧ e.status.toInt = n.toInt := by
  have hp := Module.linked_of_compile h hm
  have hunique := Module.nodup_outputs_of_compile h
  constructor
  · intro image s hs f hf
    obtain ⟨g, hranged⟩ := (framesRanged_of_reaches hp hunique hs).exists_ranged hf
    have hinRange {ty : Ty} {x : Scalar} (hx : f.HasValue g ty x) : x.InRange ty := by
      rcases hx with ⟨index, htemp, hx⟩ | ⟨index, hparameter, hx⟩
      · have hdisciplined := Module.disciplined_of_mem h hranged.mem
        exact hranged.temp hdisciplined (hranged.unique hunique) htemp hx
      · exact hranged.argument hparameter hx
    refine ⟨g, hranged.found, hranged.body, hranged.arguments.length_eq, ?_, ?_⟩
    · intro bits x hx
      exact hinRange hx bits rfl
    · intro x hx
      obtain ⟨n, rfl, hn⟩ := hinRange hx 1 rfl
      rcases hn.eq_zero_or_neg_one with rfl | rfl
      · exact .inl rfl
      · exact .inr rfl
  · intro fuel e hrun
    obtain ⟨image, s, n, w, hs, hentry, hcallers, hhalted, hn, rfl⟩ :=
      exists_status_of_run hp hunique hrun
    exact ⟨image, s, n, w, hs, hentry, hcallers, hhalted, hn.1, hn.2, hn.toInt_toInt32⟩

/-- A module that passes on the outcome of a comparison, and ends with a negative status. -/
def Module.verdict : Module :=
  let use (name : String) : Expr := .designator name []
  let number (n : Int64) : Expr := .literal (.integer n)
  let less : Procedure := .mk "Less" [⟨false, ["a", "b"], .integer⟩] (some .boolean) {}
    [.returnWith (some (.relation (use "a") .less (use "b")))]
  let check : Procedure := .mk "Check" [⟨false, ["ok"], .boolean⟩] none {}
    [.call "WRITELN" [.not (use "ok")]]
  { name := "M"
    declarations := { procedures := [less, check] }
    body := some
      [.call "Check" [.call "Less" [number 1, number 2]], .returnWith (some (.negate (number 3)))] }

theorem Module.integers_in_range_verdict :
    ∃ p image s g e, Module.verdict.compile .native = .ok p ∧ Module.verdict.HasPlainNames
      ∧ Reaches p "" image s ∧ p.function? s.frame.function = some g
      ∧ s.frame.HasValue g .boolean (.int (-1))
      ∧ (∀ x, s.frame.HasValue g .boolean x → x = .int 0 ∨ x = .int (-1))
      ∧ run p "" 100 = .ok e ∧ e.status = -3
      ∧ ∃ image s n w, Reaches p "" image s ∧ s.frame.function = entryName
        ∧ image.step s = .ok (.halted (some (.int n)) w) ∧ e.status.toInt = n.toInt := by
  have hnames : Module.verdict.HasPlainNames :=
    ⟨by decide, by decide, ⟨by decide, trivial⟩, by decide, ⟨by decide, trivial⟩, by decide,
      trivial⟩
  have hok : (Module.verdict.compile .native).isOk = true := by decide +kernel
  have hfacts : ∀ p ∈ (Module.verdict.compile .native).toOption,
      ((reach? p "" 10).bind fun r => (p.function? r.2.frame.function).map fun g =>
        (g.parameters, r.2.frame.arguments)) = some ([.boolean], [.int (-1)])
      ∧ (run p "" 100).toOption.map (·.status) = some (-3) := by
    decide +kernel
  obtain ⟨p, hp⟩ := Except.exists_of_isOk hok
  obtain ⟨hreach, hrun⟩ := hfacts p (by rw [hp]; rfl)
  obtain ⟨⟨image, s⟩, hreach, hfound⟩ := Option.bind_eq_some_iff.mp hreach
  obtain ⟨g, hfound, hvalues⟩ := Option.map_eq_some_iff.mp hfound
  obtain ⟨hparameters, harguments⟩ := Prod.mk.inj hvalues
  obtain ⟨e, he, hstatus⟩ := Option.map_eq_some_iff.mp hrun
  have hs := reaches_of_reach? hreach
  have he := eq_ok_of_toOption he
  have hvalue : s.frame.HasValue g .boolean (.int (-1)) :=
    .inr ⟨0, by rw [hparameters]; rfl, by rw [harguments]; rfl⟩
  obtain ⟨hranges, hstatuses⟩ := Module.integers_in_range hp hnames ""
  obtain ⟨g', hfound', -, -, -, hboolean⟩ := hranges image s hs s.frame List.mem_cons_self
  obtain rfl := Option.some.inj (hfound.symm.trans hfound')
  obtain ⟨image', t, n, w, ht, hentry, -, hhalted, -, -, hn⟩ := hstatuses 100 e he
  exact ⟨p, image, s, g, e, hp, hnames, hs, hfound, hvalue, hboolean, he, hstatus, image', t, n,
    w, ht, hentry, hhalted, hn⟩

end Oberon
