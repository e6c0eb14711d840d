import Oberon.Proofs.Faults
import Oberon.Proofs.Steps

/-!
# What calls write

A procedure can name three kinds of places: globals, places that its caller passes by reference,
and cells of its own, which are behind all memory that its caller had. Parts of places are places
of the same kind, and so are the places that it passes on. A call therefore writes to no memory of
its caller but to globals and to the arguments that are passed by reference, however deep the calls
inside of it go.

The bytes that a call may write are a predicate `B`. A frame is confined to `B` if all places that
it can name lie in these bytes; every step of a confined frame keeps all other bytes, and leads to
confined frames until the call returns.
-/

namespace Oberon

open Code Machine Relation

/-! ## Places in a set of bytes -/

/-- An object all of whose bytes are in `B`. -/
structure Object.Within (B : Nat → Prop) (o : Object) : Prop where
  isProper : o.ty.IsProper
  finish_le : o.finish ≤ maxMemory
  bytes : ∀ i, o.address ≤ i → i < o.finish → B i

/-- A part of an object that lies `Within` some bytes does so too. -/
theorem Object.Within.part {B : Nat → Prop} {o q : Object} (h : o.Within B) (hq : o.Has q) :
    q.Within B := by
  have hbounds := hq.bounds
  have hfinish := h.finish_le
  refine ⟨hq.isProper h.isProper, by omega, ?_⟩
  intro i hge hlt
  exact h.bytes i (by omega) (by omega)

theorem Object.Within.narrow {B C : Nat → Prop} {o : Object} (h : o.Within B)
    (hC : ∀ i, o.address ≤ i → i < o.finish → C i) : o.Within C :=
  ⟨h.isProper, h.finish_le, hC⟩

namespace Machine

/-- A scalar that leads to bytes in `B` only, if it is the address of a place. -/
def Scalar.Within (B : Nat → Prop) : Kind → Scalar → Prop
  | .place ty, .int a => Object.Within B ⟨addressOf a, ty⟩
  | _, _ => True

/-- Memory in which all bytes outside of `B` are the same. -/
def Memory.SameOutside (B : Nat → Prop) (m n : Memory) : Prop :=
  ∀ i, ¬ B i → n.get i = m.get i

namespace Memory.SameOutside

variable {B : Nat → Prop} {m n k : Memory}

theorem refl (B : Nat → Prop) (m : Memory) : m.SameOutside B m :=
  fun _ _ => rfl

/-- `SameOutside` composes, for one set of bytes. -/
theorem trans (h : m.SameOutside B n) (h' : n.SameOutside B k) : m.SameOutside B k :=
  fun i hi => (h' i hi).trans (h i hi)

/-- Memory that changes inside of one object only is `SameOutside` of any bytes that hold the
object. -/
theorem of_object {o : Object} (ho : o.Within B)
    (h : ∀ i, i < o.address ∨ o.finish ≤ i → n.get i = m.get i) : m.SameOutside B n := by
  intro i hi
  apply h
  by_contra hin
  exact hi (ho.bytes i (by omega) (by omega))

end Memory.SameOutside

/-- `Memory.write` changes the bytes of its place only. -/
theorem Memory.get_of_write {m n : Memory} {ty : Ty} {address : Nat} {x : Scalar}
    (h : m.write ty address x = .ok n) :
    n.size = m.size ∧ ∀ i, i < address ∨ address + ty.width ≤ i → n.get i = m.get i := by
  unfold Memory.write at h
  cases hty : ty.size? with
  | none =>
    rw [hty] at h
    exact nomatch h
  | some count =>
    rw [hty] at h
    obtain rfl := Ty.eq_width_of_size? hty
    obtain ⟨_, -, h⟩ := Except.bind_eq_ok.mp h
    obtain rfl := Except.ok.inj h
    exact ⟨size_writeWord .., fun i hi => get_writeWord_of_outside _ hi⟩

/-- `Memory.copy` changes the bytes of its destination only. -/
theorem Memory.get_of_copy {m n : Memory} {destination source count : Nat}
    (h : m.copy destination source count = .ok n) :
    n.size = m.size ∧ ∀ i, i < destination ∨ destination + count ≤ i → n.get i = m.get i := by
  obtain ⟨_, -, h⟩ := Except.bind_eq_ok.mp h
  obtain ⟨_, hcheck, h⟩ := Except.bind_eq_ok.mp h
  obtain rfl := Except.ok.inj h
  refine ⟨size_copyFrom .., fun i hi => ?_⟩
  rw [get_copyFrom _ _ (hasBytes_of_check hcheck).2, if_neg (by omega)]

/-! ## Confined frames -/

/-- A frame of a typed function whose places lie in `B`, with temporaries `H`. -/
structure Frame.Within (B : Nat → Prop) (Γ : Context) (H : Held) (f : Frame) : Prop where
  blocks : BlocksTyped Γ f.blocks
  arguments : ∀ {index : Nat} {k : Kind} {x : Scalar}, Γ.parameters[index]? = some k →
    f.arguments[index]? = some x → x.Within B k
  temps : ∀ y ∈ H, ∀ x, f.temps[y.1]? = some x → x.Within B y.2

/-- A frame `Within` some bytes, at a point of its code where `H` is defined. -/
structure Frame.Confined (B : Nat → Prop) (Γ : Context) (H : Held) (f : Frame) : Prop
    extends f.Within B Γ H where
  code : CodeTyped Γ H f.rest
  terminator : ∀ t, f.block.terminator = some t → t.Typed (Γ.withHeld (H ++ definitions f.rest))

/-- The globals lie in `B`. -/
def Image.GlobalsWithin (image : Image) (B : Nat → Prop) (globals : List Global) : Prop :=
  ∀ g ∈ globals, ∀ a, image.symbols.lookup g.name = some a → Object.Within B ⟨a, g.ty⟩

namespace Frame

variable {image : Image} {B : Nat → Prop} {Γ : Context} {H : Held} {f g : Frame} {k : Kind}

/-- A frame `Within` some bytes can set a new temporary that leads to them. -/
theorem Within.set (h : f.Within B Γ H) {out : Nat} {x : Scalar}
    (hfresh : ∀ y ∈ H, y.1 ≠ out) (hx : x.Within B k) :
    (f.set out x).Within B Γ (H ++ [(out, k)]) := by
  refine ⟨h.blocks, h.arguments, ?_⟩
  intro y hy z (hz : (f.temps.insert out x)[y.1]? = some z)
  -- the others are not overwritten, as the temporary is new
  rw [Std.TreeMap.getElem?_insert] at hz
  rcases List.mem_append.mp hy with hy | hy
  · rw [if_neg (by simpa using (hfresh y hy).symm)] at hz
    exact h.temps y hy z hz
  · obtain rfl := List.mem_singleton.mp hy
    rw [if_pos (by simp)] at hz
    obtain rfl := Option.some.inj hz
    exact hx

/-- The start of a block is a point where all that it expects is defined, so the frame is
`Confined`. -/
theorem Within.enter (h : f.Within B Γ H) {label : Nat} {b : Block} {K : Held} (hK : K ⊆ H)
    (hl : Γ.blocks[label]? = some K) (hb : f.blocks[label]? = some b) :
    ({ f with block := b, rest := b.instrs } : Frame).Confined B Γ K := by
  have htyped := h.blocks.block hl hb
  exact ⟨⟨h.blocks, h.arguments, fun y hy => h.temps y (hK hy)⟩, htyped.code, htyped.terminator⟩

/-- `Frame.jump` of a frame within some bytes leads to a confined one. -/
theorem Within.jump (h : f.Within B Γ H) {label : Nat} (ha : (Γ.withHeld H).Accepts label)
    (hg : f.jump label = .ok g) : ∃ K, g.Confined B Γ K ∧ g.base = f.base ∧ g.out = f.out := by
  obtain ⟨K, hl, hK⟩ := ha
  unfold Frame.jump at hg
  cases hb : f.blocks[label]? with
  | none =>
    rw [hb] at hg
    exact nomatch hg
  | some b =>
    rw [hb] at hg
    obtain rfl := Except.ok.inj hg
    exact ⟨K, h.enter hK hl hb, rfl, rfl⟩

/-- The `Confined` frame after an instruction, which may have set a temporary. -/
theorem Confined.next (h : f.Confined B Γ H) {i : Instr} {rest : List Instr}
    (hrest : f.rest = i :: rest) (out : Option Nat) {x : Scalar}
    (hdefines : i.defines = (out.map (·, k)).toList) (hx : x.Within B k) :
    (({ f with rest } : Frame).set? out x).Confined B Γ (H ++ i.defines) := by
  have hcode := h.code
  have hterm := h.terminator
  rw [hrest] at hcode hterm
  obtain ⟨-, hfresh, hcode⟩ := hcode
  have hheld : H ++ definitions (i :: rest) = H ++ i.defines ++ definitions rest :=
    (List.append_assoc _ _ _).symm
  rw [hheld] at hterm
  have hwithin : ({ f with rest } : Frame).Within B Γ H := ⟨h.blocks, h.arguments, h.temps⟩
  cases out with
  | none =>
    have hdefines : i.defines = [] := hdefines
    rw [hdefines, List.append_nil] at hcode hterm ⊢
    exact ⟨hwithin, hcode, hterm⟩
  | some out =>
    have hdefines : i.defines = [(out, k)] := hdefines
    rw [hdefines] at hcode hterm hfresh ⊢
    exact ⟨hwithin.set (hfresh _ List.mem_cons_self) hx, hcode, hterm⟩

theorem enter_ok {name : String} {blocks : Array Block} {xs : List Scalar} {base : Nat}
    {out : Option Nat} (h : Frame.enter name blocks xs base out = .ok g) :
    g.base = base ∧ g.out = out := by
  unfold Frame.enter at h
  split at h
  · obtain rfl := Except.ok.inj h
    exact ⟨rfl, rfl⟩
  · exact nomatch h

/-- `Frame.enter` starts a function with its arguments, and no other places. -/
theorem enter_confined {L : Linkage} {sig : Signature} {fn : Function} {blocks : Array Block}
    {xs : List Scalar} {base : Nat} {out : Option Nat} (himpl : fn.Implements L sig)
    (hbody : fn.body = .blocks blocks) (henter : Frame.enter fn.name blocks xs base out = .ok g)
    (hxs : List.Forall₂ (fun x p => x.Within B p.kind) xs sig.parameters) :
    ∃ Γ, Γ.toLinkage = L ∧ g.Confined B Γ [] := by
  obtain ⟨blocks', expected, hbody', -, htyped, -⟩ := himpl.body
  obtain rfl := Body.blocks.inj (hbody.symm.trans hbody')
  unfold Frame.enter at henter
  cases hb : blocks[0]? with
  | none =>
    rw [hb] at henter
    exact nomatch henter
  | some b =>
    rw [hb] at henter
    obtain rfl := Except.ok.inj henter
    refine ⟨sig.context L expected, rfl, ⟨htyped, ?_, List.forall_mem_nil _⟩,
      (htyped.block htyped.entry hb).code, (htyped.block htyped.entry hb).terminator⟩
    -- the parameters are bound to arguments that were within the bytes before
    intro index k x (hk : (sig.parameters.map Parameter.kind)[index]? = some k)
      (hx : xs[index]? = some x)
    rw [List.getElem?_map] at hk
    obtain ⟨p, hp, rfl⟩ := Option.map_eq_some_iff.mp hk
    obtain ⟨hlt, rfl⟩ := List.getElem?_eq_some_iff.mp hp
    obtain ⟨hlt', rfl⟩ := List.getElem?_eq_some_iff.mp hx
    exact hxs.get hlt' hlt

/-! ## Operands -/

/-- What an operand stands for leads to bytes in `B` only. -/
theorem Within.value (h : f.Within B Γ H) (hglobals : image.GlobalsWithin B Γ.globals)
    {v : Value} {x : Scalar} (hv : HasKind (Γ.withHeld H) v k) (hx : image.value f v = .ok x) :
    x.Within B k := by
  cases hv with
  -- values are no places, wherever they point
  | int => exact trivial
  | real => exact trivial
  | null => exact trivial
  | string => exact trivial
  | temp hmem =>
    simp only [Image.value] at hx
    split at hx
    · obtain rfl := Except.ok.inj hx
      exact h.temps _ hmem _ ‹_›
    · cases hx
  | param hk =>
    simp only [Image.value] at hx
    split at hx
    · obtain rfl := Except.ok.inj hx
      exact h.arguments hk ‹_›
    · cases hx
  | @global g hg =>
    simp only [Image.value] at hx
    split at hx
    · obtain rfl := Except.ok.inj hx
      rename_i address hlookup
      have hobject := hglobals g hg address hlookup
      have hle : address + g.ty.width ≤ maxMemory := hobject.finish_le
      have hmax : maxMemory < 2 ^ 64 := by decide
      show Object.Within B ⟨addressOf (Int64.ofNat address), g.ty⟩
      rwa [addressOf_ofNat (by omega)]
    · cases hx

/-- A place that an operand stands for lies in `B`. -/
theorem Within.place (h : f.Within B Γ H) (hglobals : image.GlobalsWithin B Γ.globals)
    {v : Value} {ty : Ty} {a : Int64} (hv : HasKind (Γ.withHeld H) v (.place ty))
    (ha : image.int f v = .ok a) : Object.Within B ⟨addressOf a, ty⟩ := by
  unfold Image.int at ha
  split at ha
  · obtain rfl := Except.ok.inj ha
    exact h.value hglobals hv ‹_›
  · exact nomatch ha
  · exact nomatch ha

theorem Within.values (h : f.Within B Γ H) (hglobals : image.GlobalsWithin B Γ.globals)
    {operands : List Value} {parameters : List Parameter} {xs : List Scalar}
    (hv : List.Forall₂ (fun v p => HasKind (Γ.withHeld H) v p.kind) operands parameters)
    (hxs : image.values f operands = .ok xs) :
    List.Forall₂ (fun x p => x.Within B p.kind) xs parameters := by
  induction hv generalizing xs with
  | nil =>
    obtain rfl := Except.ok.inj hxs
    exact .nil
  | cons hfirst _ ih =>
    obtain ⟨x, hx, hxs⟩ := Except.bind_eq_ok.mp hxs
    obtain ⟨rest, hrest, hxs⟩ := Except.bind_eq_ok.mp hxs
    obtain rfl := Except.ok.inj hxs
    exact .cons (h.value hglobals hfirst hx) (ih hrest)

end Frame

/-! ## Confined states -/

/-- A call under way: the bytes that may be written till it returns, the size of memory at the
call, where the result goes, and the calls that wait for it. No call waits for the one that a run
starts with. -/
structure Site where
  bytes : Nat → Prop
  base : Nat
  out : Option Nat
  outer : List Frame

/-- Calls inside of a call, up to its `Site`. Each of them is confined to its bytes when it goes
on. -/
inductive CallersConfined (L : Linkage) (site : Site) : Nat → Option Nat → List Frame → Prop
  | site : CallersConfined L site site.base site.out site.outer
  | cons {base : Nat} {out : Option Nat} {caller : Frame} {callers : List Frame} {Γ : Context}
    {H : Held} (hΓ : Γ.toLinkage = L) (hsite : site.base ≤ caller.base)
    (hbase : caller.base ≤ base) (hresume : ∀ v, (caller.set? out v).Confined site.bytes Γ H)
    (hrest : CallersConfined L site caller.base caller.out callers) :
    CallersConfined L site base out (caller :: callers)

theorem CallersConfined.length_le {L : Linkage} {site : Site} {base : Nat} {out : Option Nat}
    {callers : List Frame} (h : CallersConfined L site base out callers) :
    site.outer.length ≤ callers.length := by
  induction h with
  | site => exact Nat.le_refl _
  | cons _ _ _ _ _ ih => exact Nat.le_succ_of_le ih

/-- A state inside of the call of a `Site`. -/
structure State.Confined (L : Linkage) (site : Site) (Γ : Context) (H : Held) (s : State) :
    Prop where
  linkage : Γ.toLinkage = L
  frame : s.frame.Confined site.bytes Γ H
  site_le : site.base ≤ s.frame.base
  base_le : s.frame.base ≤ s.world.memory.size
  callers : CallersConfined L site s.frame.base s.frame.out s.callers

/-- The state in which the call of a `Site` has returned. -/
structure State.Resumes (site : Site) (t : State) : Prop where
  frame : ∃ caller v, site.outer = caller :: t.callers ∧ t.frame = caller.set? site.out v
  size : t.world.memory.size = site.base

/-- What calls need to be `Confined`: functions that are found, globals in the bytes, and all memory
that is new since the call. -/
structure Image.Confines (image : Image) (L : Linkage) (site : Site) : Prop where
  linked : image.Linked L
  globals : image.GlobalsWithin site.bytes L.globals
  new : ∀ i, site.base ≤ i → site.bytes i

/-- A step inside of a call: the call goes on, `Confined`, or it returns, and the caller
`Resumes`. -/
def State.Advances (L : Linkage) (site : Site) (s t : State) : Prop :=
  (t.Resumes site ∨ ∃ Γ H, t.Confined L site Γ H)
    ∧ s.world.memory.SameOutside site.bytes t.world.memory

/-! ## Instructions -/

section

variable {image : Image} {L : Linkage} {site : Site} {Γ : Context} {H : Held}
  {s t : State} {i : Instr} {rest : List Instr} {k : Kind}

/-- The state after an instruction, which may have set a temporary and written to memory, stays
`Confined`. -/
theorem State.Confined.next (h : s.Confined L site Γ H) (hrest : s.frame.rest = i :: rest)
    {w : World} (out : Option Nat) {x : Scalar} (hdefines : i.defines = (out.map (·, k)).toList)
    (hx : x.Within site.bytes k) (hsize : s.world.memory.size ≤ w.memory.size)
    (hsame : s.world.memory.SameOutside site.bytes w.memory) :
    s.Advances L site
      { s with world := w, frame := ({ s.frame with rest } : Frame).set? out x } := by
  have hframe := h.frame.next hrest out hdefines hx
  have hbase := h.base_le.trans hsize
  refine ⟨.inr ⟨Γ, H ++ i.defines, ?_⟩, hsame⟩
  cases out with
  | none => exact ⟨h.linkage, hframe, h.site_le, hbase, h.callers⟩
  | some out => exact ⟨h.linkage, hframe, h.site_le, hbase, h.callers⟩

/-- `Image.execute` of an instruction that is no call sets its output and changes the world at most,
and does not change the world if it defines a value. -/
theorem Image.execute_eq (h : image.execute s i = .ok t)
    (hcall : ∀ out target result arguments, i ≠ .call out target result arguments) :
    ∃ w x, t = { s with world := w, frame := s.frame.set? i.output x }
      ∧ ∀ out ty, i.defines = [(out, .value ty)] → w = s.world := by
  cases i with
  | alloca out ty =>
    obtain ⟨⟨address, m⟩, -, h⟩ := Except.bind_eq_ok.mp h
    refine ⟨_, _, (Except.ok.inj h).symm, ?_⟩
    simp [Instr.defines]
  | element out base address indices =>
    obtain ⟨_, -, h⟩ := Except.bind_eq_ok.mp h
    obtain ⟨_, -, h⟩ := Except.bind_eq_ok.mp h
    obtain ⟨_, -, h⟩ := Except.bind_eq_ok.mp h
    exact ⟨_, _, (Except.ok.inj h).symm, fun _ _ _ => rfl⟩
  | store value address =>
    obtain ⟨_, -, h⟩ := Except.bind_eq_ok.mp h
    obtain ⟨_, -, h⟩ := Except.bind_eq_ok.mp h
    obtain ⟨_, -, h⟩ := Except.bind_eq_ok.mp h
    exact ⟨_, .int 0, (Except.ok.inj h).symm, by rintro _ _ ⟨⟩⟩
  | copy destination source bytes =>
    obtain ⟨_, -, h⟩ := Except.bind_eq_ok.mp h
    obtain ⟨_, -, h⟩ := Except.bind_eq_ok.mp h
    obtain ⟨_, -, h⟩ := Except.bind_eq_ok.mp h
    exact ⟨_, .int 0, (Except.ok.inj h).symm, by rintro _ _ ⟨⟩⟩
  | call out target result arguments => exact absurd rfl (hcall out target result arguments)
  | load out ty address =>
    obtain ⟨_, -, h⟩ := Except.bind_eq_ok.mp h
    obtain ⟨_, -, h⟩ := Except.bind_eq_ok.mp h
    exact ⟨_, _, (Except.ok.inj h).symm, fun _ _ _ => rfl⟩
  | binary out op lhs rhs =>
    obtain ⟨_, -, h⟩ := Except.bind_eq_ok.mp h
    obtain ⟨_, -, h⟩ := Except.bind_eq_ok.mp h
    obtain ⟨_, -, h⟩ := Except.bind_eq_ok.mp h
    exact ⟨_, _, (Except.ok.inj h).symm, fun _ _ _ => rfl⟩
  | fneg out value =>
    obtain ⟨_, -, h⟩ := Except.bind_eq_ok.mp h
    exact ⟨_, _, (Except.ok.inj h).symm, fun _ _ _ => rfl⟩
  | icmp out predicate lhs rhs =>
    obtain ⟨_, -, h⟩ := Except.bind_eq_ok.mp h
    obtain ⟨_, -, h⟩ := Except.bind_eq_ok.mp h
    exact ⟨_, _, (Except.ok.inj h).symm, fun _ _ _ => rfl⟩
  | fcmp out predicate lhs rhs =>
    obtain ⟨_, -, h⟩ := Except.bind_eq_ok.mp h
    obtain ⟨_, -, h⟩ := Except.bind_eq_ok.mp h
    exact ⟨_, _, (Except.ok.inj h).symm, fun _ _ _ => rfl⟩
  | cast out op value into =>
    obtain ⟨_, -, h⟩ := Except.bind_eq_ok.mp h
    exact ⟨_, _, (Except.ok.inj h).symm, fun _ _ _ => rfl⟩

/-- `Image.call` of a procedure makes a frame for its arguments; the caller waits. -/
theorem Image.Linked.call_procedure (h : image.Linked L) {sig : Signature}
    (hsig : sig ∈ L.signatures) {out : Option Nat} {arguments : List Value}
    (hcall : image.call s out sig.symbol arguments = .ok t) :
    ∃ xs f, image.values s.frame arguments = .ok xs
      ∧ t = { s with frame := f, callers := s.frame :: s.callers }
      ∧ f.base = s.world.memory.size ∧ f.out = out
      ∧ ∀ B, List.Forall₂ (fun x p => x.Within B p.kind) xs sig.parameters →
        ∃ Γ, Γ.toLinkage = L ∧ f.Confined B Γ [] := by
  obtain ⟨fn, hfind, himpl⟩ := h.procedure sig hsig
  obtain ⟨blocks, -, hbody, -⟩ := himpl.body
  simp only [Image.call, hfind, hbody] at hcall
  obtain ⟨xs, hxs, hcall⟩ := Except.bind_eq_ok.mp hcall
  split at hcall
  · cases hcall
  · obtain ⟨f, henter, hcall⟩ := Except.bind_eq_ok.mp hcall
    obtain ⟨hbase, hout⟩ := Frame.enter_ok henter
    exact ⟨xs, f, hxs, (Except.ok.inj hcall).symm, hbase, hout,
      fun B hB => Frame.enter_confined himpl hbody henter hB⟩

/-- `Image.call` of a function that the machine provides changes the world at most. -/
theorem Image.Linked.call_provided (h : image.Linked L) {name : String}
    (hname : name ∈ Module.primitives.map (·.name)) {arguments : List Value}
    (hcall : image.call s none name arguments = .ok t) :
    ∃ xs r, image.values s.frame arguments = .ok xs ∧ Machine.primitive s.world name xs = .ok r
      ∧ t = { s with world := r.2 } := by
  cases hxs : image.values s.frame arguments with
  | error e =>
    obtain ⟨f, hf, rfl⟩ := List.mem_map.mp hname
    simp only [Image.call, h.primitive f hf, hxs] at hcall
    cases hcall
  | ok xs =>
    rw [State.Ready.call_primitive h.primitive hname hxs] at hcall
    cases hr : Machine.primitive s.world name xs with
    | error e =>
      rw [hr] at hcall
      cases hcall
    | ok r =>
      rw [hr] at hcall
      exact ⟨xs, r, rfl, hr, (Except.ok.inj hcall).symm⟩

/-- A `primitive` that prints leaves memory as it is. -/
theorem memory_of_primitive {w : World} {name : String} {xs : List Scalar} {r : Scalar × World}
    (h : primitive w name xs = .ok r) (hname : name ≠ scanfName) : r.2.memory = w.memory := by
  unfold primitive at h
  split at h
  · obtain ⟨text, -, h⟩ := Except.bind_eq_ok.mp h
    split at h
    · obtain ⟨printed, -, h⟩ := Except.bind_eq_ok.mp h
      obtain rfl := Except.ok.inj h
      rfl
    · split at h
      · obtain rfl := Except.ok.inj h
        rfl
      · exact nomatch h
  · exact nomatch h

/-- Memory in which only eight bytes at each of the addresses in `arguments` may have changed. -/
def Memory.SameBut (arguments : List Scalar) (m n : Memory) : Prop :=
  n.size = m.size ∧ ∀ i, (∀ a, .int a ∈ arguments → i < addressOf a ∨ addressOf a + 8 ≤ i) →
    n.get i = m.get i

/-- The world behind a conversion of `readOne`. -/
def Reading.world : Reading → World
  | .stop _ w => w
  | .stored w => w

/-- What reading can do to the world: conversions in a row by `readOne`, each with an argument of
its own. -/
inductive Reads : List Scalar → World → World → Prop
  | done {arguments : List Scalar} {w : World} : Reads arguments w w
  | next {arguments : List Scalar} {w w' : World} {assigned : Nat} {conversion : Option UInt8}
    {reading : Reading} (h : readOne w assigned conversion arguments.head? = .ok reading)
    (hrest : Reads arguments.tail reading.world w') : Reads arguments w w'

/-- `readFormat` reads by conversions in a row, of which only the last one can end the reading. -/
theorem reads_of_readFormat {w w' : World} {assigned : Nat} {pending : Bool} {bytes : List UInt8}
    {arguments : List Scalar} {result : Int64}
    (h : readFormat w assigned pending bytes arguments = .ok (result, w')) :
    Reads arguments w w' := by
  induction bytes generalizing w assigned pending arguments with
  | nil =>
    rw [readFormat] at h
    split at h
    · obtain ⟨reading, hreading, h⟩ := Except.bind_eq_ok.mp h
      refine .next hreading ?_
      -- either way the format ends here
      cases reading with
      | stop result' w₁ =>
        obtain ⟨-, rfl⟩ := Prod.mk.inj (Except.ok.inj h)
        exact .done
      | stored w₁ =>
        obtain ⟨-, rfl⟩ := Prod.mk.inj (Except.ok.inj h)
        exact .done
    · obtain ⟨-, rfl⟩ := Prod.mk.inj (Except.ok.inj h)
      exact .done
  | cons b rest ih =>
    rw [readFormat] at h
    split at h
    · exact ih h
    · split at h
      · exact ih h
      · obtain ⟨reading, hreading, h⟩ := Except.bind_eq_ok.mp h
        refine .next hreading ?_
        cases reading with
        | stop result' w₁ =>
          obtain ⟨-, rfl⟩ := Prod.mk.inj (Except.ok.inj h)
          exact .done
        | stored w₁ => exact ih h

/-- `readOne` changes its destination at most. -/
theorem readOne_same {w : World} {assigned : Nat} {conversion : Option UInt8}
    {arguments : List Scalar} {reading : Reading}
    (h : readOne w assigned conversion arguments.head? = .ok reading) :
    w.memory.SameBut arguments reading.world.memory := by
  have hsame : w.memory.SameBut arguments w.memory := ⟨rfl, fun _ _ => rfl⟩
  unfold readOne at h
  split at h
  · rename_i a hhead
    split at h
    · obtain rfl := Except.ok.inj h
      exact hsame
    · split at h
      · obtain rfl := Except.ok.inj h
        exact hsame
      · rename_i ty x hparse
        obtain ⟨m, hwrite, h⟩ := Except.bind_eq_ok.mp h
        obtain rfl := Except.ok.inj h
        obtain ⟨hsize, hget⟩ := Memory.get_of_write hwrite
        rw [← Ty.eq_width_of_size? (size?_of_parse? hparse)] at hget
        exact ⟨hsize, fun i hi => hget i (hi a (List.mem_of_mem_head? hhead))⟩
  · cases h

/-- What `Reads` changes are its destinations at most. -/
theorem Reads.same {arguments : List Scalar} {w w' : World} (h : Reads arguments w w') :
    w.memory.SameBut arguments w'.memory := by
  induction h with
  | done => exact ⟨rfl, fun _ _ => rfl⟩
  | next h hrest ih =>
    obtain ⟨hsize, hget⟩ := readOne_same h
    obtain ⟨hsize', hget'⟩ := ih
    refine ⟨hsize'.trans hsize, fun i hi => ?_⟩
    rw [hget' i fun a ha => hi a (List.mem_of_mem_tail ha), hget i hi]

/-- A call of `scanfName` changes the destinations that it was given at most. -/
theorem primitive_scanf_same {w : World} {xs : List Scalar} {r : Scalar × World}
    (h : primitive w scanfName xs = .ok r) : w.memory.SameBut xs.tail r.2.memory := by
  unfold primitive at h
  split at h
  · obtain ⟨text, -, h⟩ := Except.bind_eq_ok.mp h
    rw [if_neg (by decide), if_pos rfl] at h
    obtain ⟨⟨result, w'⟩, hread, h⟩ := Except.bind_eq_ok.mp h
    obtain rfl := Except.ok.inj h
    exact (reads_of_readFormat hread).same
  · exact nomatch h

theorem Image.length_ints {f : Frame} {operands : List Value} {ns : List Int64}
    (h : image.ints f operands = .ok ns) : ns.length = operands.length := by
  induction operands generalizing ns with
  | nil =>
    obtain rfl := Except.ok.inj h
    rfl
  | cons v rest ih =>
    obtain ⟨n, -, h⟩ := Except.bind_eq_ok.mp h
    obtain ⟨others, hothers, h⟩ := Except.bind_eq_ok.mp h
    obtain rfl := Except.ok.inj h
    exact congrArg (· + 1) (ih hothers)

/-- `elementAddress` is that of a part, so it lies within the same bytes. -/
theorem within_elementAddress {B : Nat → Prop} {f : Frame} {base element : Ty}
    {a place : Int64} {indices : List Value} {ns : List Int64}
    (h : Object.Within B ⟨addressOf a, base⟩) (hs : base.strip indices.length = some element)
    (hns : image.ints f (.integer 0 :: indices) = .ok ns)
    (hplace : elementAddress base a ns = .ok place) :
    Object.Within B ⟨addressOf place, element⟩ := by
  obtain ⟨_, hzero, hns⟩ := Except.bind_eq_ok.mp hns
  obtain ⟨more, hmore, hns⟩ := Except.bind_eq_ok.mp hns
  obtain rfl := Except.ok.inj hns
  obtain rfl := Except.ok.inj hzero
  have hbase : addressOf a + base.width < 2 ^ 64 := by
    have hfinish : addressOf a + base.width ≤ maxMemory := h.finish_le
    have hmax : maxMemory < 2 ^ 64 := by decide
    omega
  rcases elementAddress_part h.isProper ((Image.length_ints hmore).symm ▸ hs) hbase
    with ⟨index, herror⟩ | ⟨place', hok, hpart⟩
  · exact nomatch hplace.symm.trans herror
  · obtain rfl := Except.ok.inj (hplace.symm.trans hok)
    exact h.part hpart

namespace State.Confined

/-- A `Confined` state advances when memory changes inside of one object in its bytes. -/
theorem stores (h : s.Confined L site Γ H) (hrest : s.frame.rest = i :: rest) {w : World}
    {o : Object} (hdefines : i.defines = []) (ho : o.Within site.bytes)
    (hw : w.memory.size = s.world.memory.size
      ∧ ∀ j, j < o.address ∨ o.finish ≤ j → w.memory.get j = s.world.memory.get j) :
    s.Advances L site { s with world := w, frame := { s.frame with rest } } :=
  h.next hrest (k := .value .void) none (x := .int 0) hdefines trivial hw.1.ge (.of_object ho hw.2)

/-- A `Confined` state advances by printing. -/
theorem prints (h : s.Confined L site Γ H) (hrest : s.frame.rest = i :: rest)
    (hlinked : image.Linked L) {name : String} (hname : name = printfName ∨ name = putsName)
    {arguments : List Value} (hdefines : i.defines = [])
    (hcall : image.call { s with frame := { s.frame with rest } } none name arguments = .ok t) :
    s.Advances L site t := by
  have hprovided : name ∈ Module.primitives.map (·.name) ∧ name ≠ scanfName := by
    rcases hname with rfl | rfl
    · exact ⟨by decide, by decide⟩
    · exact ⟨by decide, by decide⟩
  obtain ⟨xs, r, -, hr, rfl⟩ := hlinked.call_provided hprovided.1 hcall
  have hmemory : r.2.memory = s.world.memory := memory_of_primitive hr hprovided.2
  refine h.next hrest (k := .value .void) none (x := .int 0) hdefines trivial ?_ ?_
  · rw [hmemory]
  · rw [hmemory]
    exact .refl _ _

/-- A `Confined` state advances by reading: its destination is a place of the frame. -/
theorem reads (h : s.Confined L site Γ H) (hconfines : image.Confines L site)
    {format : String} {conversion : String} {address : Value} {ty : Ty}
    (hrest : s.frame.rest = .call none scanfName .status [.string format, address] :: rest)
    (hf : Emit.readFormat? ty = some conversion)
    (ha : HasKind (Γ.withHeld H) address (.place ty))
    (hcall : image.call { s with frame := { s.frame with rest } } none scanfName
      [.string format, address] = .ok t) : s.Advances L site t := by
  obtain ⟨xs, r, hxs, hr, rfl⟩ := hconfines.linked.call_provided (by decide) hcall
  obtain ⟨x, -, hxs⟩ := Except.bind_eq_ok.mp hxs
  obtain ⟨ys, hys, hxs⟩ := Except.bind_eq_ok.mp hxs
  obtain ⟨y, hy, hys⟩ := Except.bind_eq_ok.mp hys
  obtain rfl := Except.ok.inj hys
  obtain rfl := Except.ok.inj hxs
  have hplace := h.frame.toWithin.value (h.linkage ▸ hconfines.globals) ha
    ((value_rest image s.frame rest address).symm.trans hy)
  have hwidth : ty.width = 8 := by
    rcases (readFormat_read (w := s.world) (v := x) hf).1 with rfl | rfl
    · rfl
    · rfl
  obtain ⟨hsize, hget⟩ := primitive_scanf_same hr
  refine h.next hrest (k := .value .void) none (x := .int 0) rfl trivial hsize.ge ?_
  intro i hi
  apply hget
  intro a hmem
  obtain rfl := List.mem_singleton.mp hmem
  have hplace : Object.Within site.bytes ⟨addressOf a, ty⟩ := hplace
  -- all eight bytes of the destination are in the place, which may be written
  by_contra hin
  have hfinish : Object.finish ⟨addressOf a, ty⟩ = addressOf a + 8 := by rw [← hwidth]; rfl
  exact hi (hplace.bytes i (show addressOf a ≤ i by omega) (by omega))

/-- A `Confined` state advances by a call: what it is passed are values, and places of its
caller. -/
theorem calls (h : s.Confined L site Γ H) (hconfines : image.Confines L site)
    {out : Option Nat} {sig : Signature} {arguments : List Value}
    (hrest : s.frame.rest = .call out sig.symbol sig.result arguments :: rest)
    (hsig : sig ∈ Γ.signatures)
    (ha : List.Forall₂ (fun v p => HasKind (Γ.withHeld H) v p.kind) arguments sig.parameters)
    (hcall : image.call { s with frame := { s.frame with rest } } out sig.symbol arguments
      = .ok t) : s.Advances L site t := by
  obtain ⟨xs, f, hxs, rfl, hbase, hout, hconfined⟩ :=
    hconfines.linked.call_procedure (h.linkage ▸ hsig) hcall
  have hframe : ({ s.frame with rest } : Frame).Within site.bytes Γ H :=
    ⟨h.frame.blocks, h.frame.arguments, h.frame.temps⟩
  have hglobals : image.GlobalsWithin site.bytes Γ.globals := h.linkage ▸ hconfines.globals
  -- the callee has the places that it is passed, and none of its own yet
  obtain ⟨Δ, hΔ, hf⟩ := hconfined site.bytes (hframe.values hglobals ha hxs)
  have hdefines : (Instr.call out sig.symbol sig.result arguments).defines
      = (out.map (·, Kind.value sig.result)).toList := by
    cases out <;> rfl
  refine ⟨.inr ⟨Δ, [], hΔ, hf, ?_, hbase.le, ?_⟩, .refl _ _⟩
  · show site.base ≤ f.base
    rw [hbase]
    exact h.site_le.trans h.base_le
  · show CallersConfined L site f.base f.out ({ s.frame with rest } :: s.callers)
    rw [hbase, hout]
    exact .cons h.linkage h.site_le h.base_le
      (fun v => h.frame.next hrest out hdefines trivial) h.callers

/-- A cell made by `alloca` lies behind all memory, so it is new since the call. -/
theorem allocas (h : s.Confined L site Γ H) (hconfines : image.Confines L site) {out : Nat}
    {ty : Ty} (hrest : s.frame.rest = .alloca out ty :: rest) (hty : ty.IsProper)
    (hexec : image.execute { s with frame := { s.frame with rest } } (.alloca out ty) = .ok t) :
    s.Advances L site t := by
  obtain ⟨⟨address, m⟩, hallocate, hexec⟩ := Except.bind_eq_ok.mp hexec
  obtain rfl := Except.ok.inj hexec
  have hallocate : s.world.memory.allocate ty = .ok (address, m) := hallocate
  obtain ⟨hle, hfinish, hsize, hget⟩ := Memory.allocate_ok hallocate
  refine h.next hrest (some out) rfl ?_ hsize fun j _ => hget j
  have hmax : maxMemory < 2 ^ 64 := by decide
  show Object.Within site.bytes ⟨addressOf (Int64.ofNat address), ty⟩
  rw [addressOf_ofNat (by omega)]
  refine ⟨hty, hfinish, ?_⟩
  intro j (hj : address ≤ j) _
  apply hconfines.new
  have hsite := h.site_le
  have hbase := h.base_le
  omega

/-- A `Confined` state advances by one instruction. -/
theorem executes (h : s.Confined L site Γ H) (hconfines : image.Confines L site)
    (hrest : s.frame.rest = i :: rest)
    (hexec : image.execute { s with frame := { s.frame with rest } } i = .ok t) :
    s.Advances L site t := by
  have hcode := h.frame.code
  rw [hrest] at hcode
  have hframe : ({ s.frame with rest } : Frame).Within site.bytes Γ H :=
    ⟨h.frame.blocks, h.frame.arguments, h.frame.temps⟩
  have hglobals : image.GlobalsWithin site.bytes Γ.globals := h.linkage ▸ hconfines.globals
  -- instructions that compute a value leave memory and places alone
  have hcomputes {out : Nat} {ty : Ty} (hout : i.output = some out)
      (hdefines : i.defines = [(out, .value ty)])
      (hcall : ∀ out target result arguments, i ≠ .call out target result arguments) :
      s.Advances L site t := by
    obtain ⟨w, x, rfl, hw⟩ := Image.execute_eq hexec hcall
    obtain rfl := hw out ty hdefines
    rw [hout]
    exact h.next hrest (some out) hdefines trivial le_rfl (.refl _ _)
  cases hcode.1 with
  | alloca hty => exact h.allocas hconfines hrest hty hexec
  | load => exact hcomputes rfl rfl nofun
  | @store value address ty hv ha =>
    obtain ⟨a, haddress, hexec⟩ := Except.bind_eq_ok.mp hexec
    obtain ⟨x, -, hexec⟩ := Except.bind_eq_ok.mp hexec
    obtain ⟨m, hwrite, hexec⟩ := Except.bind_eq_ok.mp hexec
    obtain rfl := Except.ok.inj hexec
    rw [hv.ty_eq] at hwrite
    exact h.stores hrest rfl (hframe.place hglobals ha haddress) (Memory.get_of_write hwrite)
  | integerBinary => exact hcomputes rfl rfl nofun
  | realBinary => exact hcomputes rfl rfl nofun
  | fneg => exact hcomputes rfl rfl nofun
  | icmp => exact hcomputes rfl rfl nofun
  | fcmp => exact hcomputes rfl rfl nofun
  | sext => exact hcomputes rfl rfl nofun
  | trunc => exact hcomputes rfl rfl nofun
  | sitofp => exact hcomputes rfl rfl nofun
  | fptosi => exact hcomputes rfl rfl nofun
  | @element out base element address indices ha hs hi =>
    obtain ⟨a, haddress, hexec⟩ := Except.bind_eq_ok.mp hexec
    obtain ⟨ns, hns, hexec⟩ := Except.bind_eq_ok.mp hexec
    obtain ⟨place, hplace, hexec⟩ := Except.bind_eq_ok.mp hexec
    obtain rfl := Except.ok.inj hexec
    have hdefines : (Instr.element out base address (.integer 0 :: indices)).defines
        = [(out, .place element)] := by
      rw [Instr.defines, List.length_cons, Nat.add_sub_cancel, hs]
      rfl
    have hwhole := hframe.place hglobals ha haddress
    exact h.next hrest (some out) hdefines (within_elementAddress hwhole hs hns hplace) le_rfl
      (.refl _ _)
  | call hs hr ha => exact h.calls hconfines hrest hs ha hexec
  | callValue hs hr ha => exact h.calls hconfines hrest hs ha hexec
  | print => exact h.prints hrest hconfines.linked (.inl rfl) rfl hexec
  | newline => exact h.prints hrest hconfines.linked (.inr rfl) rfl hexec
  | read hc hb hf ha => exact h.reads hconfines hrest hf ha hexec
  | copy hd hs hb =>
    obtain ⟨d, hdestination, hexec⟩ := Except.bind_eq_ok.mp hexec
    obtain ⟨o, -, hexec⟩ := Except.bind_eq_ok.mp hexec
    obtain ⟨m, hcopy, hexec⟩ := Except.bind_eq_ok.mp hexec
    obtain rfl := Except.ok.inj hexec
    obtain rfl := Ty.eq_width_of_size? hb
    exact h.stores hrest rfl (hframe.place hglobals hd hdestination) (Memory.get_of_copy hcopy)

/-! ## Terminators -/

/-- A `Confined` state advances by a return, which drops the memory that is new since the call, and
resumes a caller. -/
theorem leaves (h : s.Confined L site Γ H) (hconfines : image.Confines L site)
    {value : Option Scalar} (hleave : Image.leave s value = .ok (.running t)) :
    s.Advances L site t := by
  obtain ⟨-, hprogress⟩ | ⟨caller, callers, v, hcallers, -, hprogress⟩ := Image.leave_ok hleave
  · cases hprogress
  obtain rfl := Progress.running.inj hprogress
  have hsize : s.left.memory.size = s.frame.base := min_eq_right h.base_le
  constructor
  · have hrest := h.callers
    generalize s.frame.base = base at hrest hsize
    generalize s.frame.out = out at hrest
    generalize s.callers = waiting at hrest hcallers
    cases hrest with
    -- the call itself returns, or one inside of it
    | site => exact .inl ⟨⟨caller, v, hcallers, rfl⟩, hsize⟩
    | @cons _ _ _ _ Δ K hΔ hsite hle hresume hrest =>
      obtain ⟨rfl, rfl⟩ := List.cons.inj hcallers.symm
      refine .inr ⟨Δ, K, hΔ, hresume v, ?_, ?_, ?_⟩
      · cases out <;> exact hsite
      · show (caller.set? out v).base ≤ s.left.memory.size
        rw [hsize]
        cases out <;> exact hle
      · cases out <;> exact hrest
  · -- what is dropped is new since the call
    intro i hi
    apply Memory.get_truncate
    by_contra hge
    have hsite := h.site_le
    exact hi (hconfines.new i (by omega))

/-- A `Confined` state advances by a terminator. -/
theorem terminates (h : s.Confined L site Γ H) (hconfines : image.Confines L site)
    (hrest : s.frame.rest = []) (hterm : image.terminate s = .ok (.running t)) :
    s.Advances L site t := by
  have hjump {label : Nat} {f : Frame} (hlabel : (Γ.withHeld H).Accepts label)
      (hf : s.frame.jump label = .ok f) : s.Advances L site { s with frame := f } := by
    obtain ⟨K, hK, hbase, hout⟩ := h.frame.toWithin.jump hlabel hf
    exact ⟨.inr ⟨Γ, K, h.linkage, hK, hbase ▸ h.site_le, hbase ▸ h.base_le,
      hbase ▸ hout ▸ h.callers⟩, .refl _ _⟩
  unfold Image.terminate at hterm
  cases hblock : s.frame.block.terminator with
  | none =>
    rw [hblock] at hterm
    exact nomatch hterm
  | some last =>
    have htyped := h.frame.terminator last hblock
    rw [hrest, definitions, List.flatMap_nil, List.append_nil] at htyped
    rw [hblock] at hterm
    -- a jump stays in the frame; a return is one of this call or of a call inside
    cases htyped with
    | jump htarget =>
      obtain ⟨f, hf, hterm⟩ := Except.bind_eq_ok.mp hterm
      obtain rfl := Progress.running.inj (Except.ok.inj hterm)
      exact hjump htarget hf
    | branch hc htrue hfalse =>
      obtain ⟨n, -, hterm⟩ := Except.bind_eq_ok.mp hterm
      obtain ⟨f, hf, hterm⟩ := Except.bind_eq_ok.mp hterm
      obtain rfl := Progress.running.inj (Except.ok.inj hterm)
      refine hjump ?_ hf
      split
      · exact hfalse
      · exact htrue
    | ret => exact h.leaves hconfines hterm
    | retValue =>
      obtain ⟨x, -, hterm⟩ := Except.bind_eq_ok.mp hterm
      exact h.leaves hconfines hterm

/-! ## Runs -/

/-- A `Confined` state advances by one step of `Image.Moves`. -/
theorem moves (h : s.Confined L site Γ H) (hconfines : image.Confines L site)
    (hmoves : image.Moves s t) :
    s.Advances L site t := by
  unfold Image.Moves Image.step at hmoves
  cases hrest : s.frame.rest with
  | nil =>
    rw [hrest] at hmoves
    exact h.terminates hconfines hrest hmoves
  | cons i rest =>
    rw [hrest] at hmoves
    obtain ⟨u, hexec, hmoves⟩ := Except.bind_eq_ok.mp hmoves
    obtain rfl := Progress.running.inj (Except.ok.inj hmoves)
    exact h.executes hconfines hrest hexec

/-- A run stays `Confined`, as there is nothing that it could return to. -/
theorem of_moves (h : s.Confined L site Γ H) (hconfines : image.Confines L site)
    (houter : site.outer = []) (hmoves : ReflTransGen image.Moves s t) :
    ∃ Γ H, t.Confined L site Γ H := by
  induction hmoves with
  | refl => exact ⟨Γ, H, h⟩
  | tail _ hstep ih =>
    obtain ⟨Γ', H', hs⟩ := ih
    rcases (hs.moves hconfines hstep).1 with hresumes | hnext
    · obtain ⟨caller, v, hcaller, -⟩ := hresumes.frame
      exact nomatch houter.symm.trans hcaller
    · exact hnext

end State.Confined

/-- The first state after `s` in which no more than `depth` calls wait, if it comes within `fuel`
steps. -/
def Image.return? (image : Image) (depth : Nat) : Nat → State → Option State
  | 0, _ => none
  | fuel + 1, s =>
    match running? (image.step s) with
    | some t => if t.callers.length ≤ depth then some t else image.return? depth fuel t
    | none => none

/-- `s` calls a function that gets a frame, and `t` is the state in which that call has
returned. -/
def Image.Returns (image : Image) (s t : State) : Prop :=
  ∃ u fuel, image.Moves s u ∧ s.callers.length < u.callers.length
    ∧ image.return? s.callers.length fuel u = some t

/-- A call that returns has changed no byte but those to which it was `Confined`. -/
theorem State.Confined.returns {depth fuel : Nat} (h : s.Confined L site Γ H)
    (hconfines : image.Confines L site) (hdepth : site.outer.length = depth + 1)
    (hreturns : image.return? depth fuel s = some t) :
    t.Resumes site ∧ s.world.memory.SameOutside site.bytes t.world.memory := by
  induction fuel generalizing s Γ H with
  | zero => exact nomatch hreturns
  | succ fuel ih =>
    rw [Image.return?] at hreturns
    split at hreturns
    · rename_i u hstep
      obtain ⟨hnext, hsame⟩ := h.moves hconfines (running?_eq_some.mp hstep)
      rcases hnext with hresumes | ⟨Γ', H', hu⟩
      · obtain ⟨caller, v, hcaller, -⟩ := hresumes.frame
        have hlength := congrArg List.length hcaller
        rw [List.length_cons] at hlength
        rw [if_pos (by omega)] at hreturns
        obtain rfl := Option.some.inj hreturns
        exact ⟨hresumes, hsame⟩
      · -- a call inside, or this one further on: more calls wait than when it returns
        have hdeeper := hu.callers.length_le
        rw [if_neg (by omega)] at hreturns
        obtain ⟨hresumes, hsame'⟩ := ih hu hreturns
        exact ⟨hresumes, hsame.trans hsame'⟩
    · exact nomatch hreturns

end

end Machine

end Oberon
