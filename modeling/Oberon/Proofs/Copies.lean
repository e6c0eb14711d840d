import Oberon.Proofs.Effects

/-!
# Copies of arrays

An array is assigned as a block of bytes. Both ends of such a copy are places of one type: whole
variables, rows of them, or what parameters lead to. Variables lie apart, and two parts of a
variable are apart or nested; parts of one type that are nested are the same. So a copy either goes
from a place to itself, or between places that share no byte, whatever names the two have.
-/

namespace Oberon

open Code Machine

/-! ## Places of one type -/

/-- An object `Has` no other part of its own type. -/
theorem Object.Has.eq_of_ty {o q : Object} (h : o.Has q) (hty : q.ty = o.ty) : q = o := by
  have hbounds := h.bounds
  simp only [Object.finish, hty] at hbounds
  have haddress : q.address = o.address := by omega
  calc q = ⟨q.address, q.ty⟩ := rfl
    _ = ⟨o.address, o.ty⟩ := by rw [haddress, hty]

/-- Places of one type that objects have are the same or apart, as the objects are `Apart`. -/
theorem Objects.Has.eq_or_apart {objects : List Object} (hapart : objects.Pairwise Object.Apart)
    {a b : Nat} {ty : Ty} (ha : Objects.Has objects ⟨a, ty⟩) (hb : Objects.Has objects ⟨b, ty⟩) :
    a = b ∨ a + ty.width ≤ b ∨ b + ty.width ≤ a := by
  rcases ha.nested_or_apart hapart hb with hin | hin | hout
  · have hsame := hin.eq_of_ty rfl
    exact .inl (congrArg Object.address hsame).symm
  · have hsame := hin.eq_of_ty rfl
    exact .inl (congrArg Object.address hsame)
  · exact .inr hout

/-! ## Copies in a run -/

section

variable {p : Program} {signatures : List Signature} {input : String} {image : Image} {s : State}
  {destination source : Value} {bytes : Nat} {rest : List Instr} {a b : Int64}

/-- A program that `Reaches` a copy from a place `IsAddressable`: its strings are in memory of the
size that places may have, far below the end of addresses. -/
theorem Code.Program.Linked.isAddressable_of_copy (h : p.Linked signatures)
    (hs : Reaches p input image s) (hrest : s.frame.rest = .copy destination source bytes :: rest)
    (ha : image.int s.frame destination = .ok a) : p.IsAddressable := by
  obtain ⟨base, Γ, H, -, hconfines, hconfined⟩ := h.confined_behind_texts hs
  have hglobals : image.GlobalsWithin (fun i => nullPage + textSize p.strings ≤ i) Γ.globals := by
    rw [show Γ.globals = (p.linkage signatures).globals by rw [← hconfined.linkage]]
    exact hconfines.globals
  have hcode := hconfined.frame.code
  rw [hrest] at hcode
  obtain ⟨hcopy, -⟩ := hcode
  cases hcopy with
  | @copy _ _ ty _ hd _ _ =>
    have hplace := hconfined.frame.place hglobals hd ha
    -- a place has a first byte, which lies behind the texts and below the end of memory
    have hwidth : 0 < ty.width := hplace.isProper.1.width_pos
    have hfinish : addressOf a + ty.width ≤ maxMemory := hplace.finish_le
    have hfirst : nullPage + textSize p.strings ≤ addressOf a :=
      hplace.bytes _ le_rfl (Nat.lt_add_of_pos_right hwidth)
    have hmax : maxMemory ≤ 2 ^ 64 := by decide
    show nullPage + textSize p.strings ≤ 2 ^ 64
    omega

end

/-- Whenever an array is copied, in any run of a module of plain names, the bytes that are read and
those that are written are the same or apart, however the two are named: rows of one variable, or
parameters that lead to it. -/
theorem Module.copies_same_or_apart {m : Module} {platform : Platform} {p : Program}
    (h : m.compile platform = .ok p) (hm : m.HasPlainNames) {input : String} {image : Image}
    {s : State} (hs : Reaches p input image s) {destination source : Value} {bytes : Nat}
    {rest : List Instr} (hrest : s.frame.rest = .copy destination source bytes :: rest)
    {a b : Int64} (ha : image.int s.frame destination = .ok a)
    (hb : image.int s.frame source = .ok b) :
    a = b ∨ addressOf a + bytes ≤ addressOf b ∨ addressOf b + bytes ≤ addressOf a := by
  have hlinked := Module.linked_of_compile h hm
  have hp := hlinked.isAddressable_of_copy hs hrest ha
  obtain ⟨floor, objects, Γ, H, htyped⟩ := hlinked.typed_of_reaches hp hs
  have hcode := htyped.frame.code
  rw [hrest] at hcode
  obtain ⟨hcopy, -⟩ := hcode
  cases hcopy with
  | @copy _ _ ty _ hd hs hsize =>
    -- both operands lead to parts of objects, and these have one type
    obtain ⟨a', -, ha', hto⟩ := htyped.holds.place hd
    obtain ⟨b', -, hb', hfrom⟩ := htyped.holds.place hs
    obtain rfl := Except.ok.inj (ha.symm.trans ha')
    obtain rfl := Except.ok.inj (hb.symm.trans hb')
    have hbytes : bytes = ty.width := Ty.eq_width_of_size? hsize
    rcases hto.eq_or_apart htyped.memory.apart hfrom with hsame | hapart
    · left
      rw [← ofNat_addressOf a, hsame, ofNat_addressOf b]
    · right
      rw [hbytes]
      exact hapart

/-- A module that copies one row of a variable to another, and a row to itself, through parameters
that lead to them. -/
def Module.rows : Module :=
  let number (n : Int64) : Expr := .literal (.integer n)
  let row (n : Int64) : Expr := .designator "grid" [[number n]]
  let move : Procedure := .mk "Move" [⟨true, ["a", "b"], .array [number 2] .integer⟩] none {}
    [.assign ⟨"a", []⟩ (.designator "b" [])]
  { name := "M"
    declarations :=
      { vars := [(["grid"], .array [number 2, number 2] .integer)], procedures := [move] }
    body := some [.call "Move" [row 0, row 1], .call "Move" [row 1, row 1]] }

/-- The addresses and the number of bytes of the copy that comes next, if one does. -/
def Machine.Image.copying? (image : Image) (s : State) : Option (Int64 × Int64 × Nat) :=
  match s.frame.rest with
  | .copy destination source bytes :: _ => do
    let a ← (image.int s.frame destination).toOption
    let b ← (image.int s.frame source).toOption
    pure (a, b, bytes)
  | _ => none

theorem Machine.Image.copying?_eq_some {image : Image} {s : State} {a b : Int64} {bytes : Nat}
    (h : image.copying? s = some (a, b, bytes)) :
    ∃ destination source rest, s.frame.rest = .copy destination source bytes :: rest
      ∧ image.int s.frame destination = .ok a ∧ image.int s.frame source = .ok b := by
  unfold Image.copying? at h
  split at h
  · rename_i destination source bytes' rest hrest
    obtain ⟨a', ha, h⟩ := Option.bind_eq_some_iff.mp h
    obtain ⟨b', hb, h⟩ := Option.bind_eq_some_iff.mp h
    simp only [pure, Option.some.injEq, Prod.mk.injEq] at h
    obtain ⟨rfl, rfl, rfl⟩ := h
    exact ⟨destination, source, rest, hrest, eq_ok_of_toOption ha, eq_ok_of_toOption hb⟩
  · cases h

theorem Module.copies_same_or_apart_rows :
    ∃ p, Module.rows.compile .native = .ok p ∧ Module.rows.HasPlainNames
      ∧ ∀ x ∈ [(3, 16, 32), (8, 32, 32)], ∃ image s destination source rest,
        Reaches p "" image s ∧ s.frame.rest = .copy destination source 16 :: rest
        ∧ image.int s.frame destination = .ok x.2.1 ∧ image.int s.frame source = .ok x.2.2
        ∧ (x.2.1 = x.2.2 ∨ addressOf x.2.1 + 16 ≤ addressOf x.2.2
          ∨ addressOf x.2.2 + 16 ≤ addressOf x.2.1) := by
  have hnames : Module.rows.HasPlainNames :=
    ⟨by decide, by decide, ⟨by decide, trivial⟩, by decide, trivial⟩
  have hok : (Module.rows.compile .native).isOk = true := by decide +kernel
  have hfacts : ∀ p ∈ (Module.rows.compile .native).toOption,
      ∀ x ∈ [(3, 16, 32), (8, 32, 32)],
        (reach? p "" x.1).bind (fun r => r.1.copying? r.2) = some (x.2.1, x.2.2, 16) := by
    decide +kernel
  obtain ⟨p, hp⟩ := Except.exists_of_isOk hok
  refine ⟨p, hp, hnames, ?_⟩
  intro x hx
  obtain ⟨⟨image, s⟩, hreach, hcopy⟩ :=
    Option.bind_eq_some_iff.mp (hfacts p (by rw [hp]; rfl) x hx)
  have hs := reaches_of_reach? hreach
  obtain ⟨destination, source, rest, hrest, ha, hb⟩ := Image.copying?_eq_some hcopy
  exact ⟨image, s, destination, source, rest, hs, hrest, ha, hb,
    Module.copies_same_or_apart hp hnames hs hrest ha hb⟩

end Oberon
