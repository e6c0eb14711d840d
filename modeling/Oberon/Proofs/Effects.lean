import Oberon.Proofs.Soundness
import Oberon.Proofs.Confinement

/-!
# What calls change for their callers

A call that returns leaves the memory of its caller as it was, but for globals and for what was
passed by reference: variables that the procedure declares with VAR, and arrays. Parameters passed
by value are copies, whatever is done to them and however deep the calls go.
-/

namespace Oberon

open Code Machine Relation

/-! ## Headings -/

mutual

/-- A procedure and those inside of it, each with the name of its function and its parameters as
they are declared. -/
def Procedure.headings (unit : String) : Procedure → List (String × List FormalSection)
  | .mk name formals _ ⟨_, _, _, procedures⟩ _ =>
    (unit ++ "." ++ name, formals) :: headingsOf (unit ++ "." ++ name) procedures

/-- The `Procedure.headings` of the procedures of a unit. -/
def headingsOf (unit : String) : List Procedure → List (String × List FormalSection)
  | [] => []
  | p :: rest => p.headings unit ++ headingsOf unit rest

end

/-- The parameters of a section one by one, each with whether it is declared with VAR. -/
def FormalSection.each (formal : FormalSection) : List (Bool × String) :=
  formal.names.map (formal.byReference, ·)

/-- Parameters are those of `formals`, and the ones that are declared with VAR and the arrays are
passed by reference. -/
def AreDeclared (params : List Parameter) (formals : List FormalSection) : Prop :=
  List.Forall₂ (fun p (d : Bool × String) => p.name = d.2 ∧ p.byReference = (d.1 || p.ty.isArray))
    params (formals.flatMap FormalSection.each)

theorem Compile.parameters_declared {formals : List FormalSection} {params : List Parameter}
    {s t : Session} (h : parameters formals s = .ok (params, t)) : AreDeclared params formals := by
  induction formals generalizing s params with
  | nil =>
    obtain ⟨rfl, rfl⟩ := pure_eq_ok.mp h
    exact .nil
  | cons formal rest ih =>
    obtain ⟨ty, r, -, h⟩ := bind_eq_ok.mp h
    obtain ⟨others, r', hothers, h⟩ := bind_eq_ok.mp h
    obtain ⟨rfl, rfl⟩ := pure_eq_ok.mp h
    refine List.rel_append ?_ (ih hothers)
    apply List.forall₂_map_left_iff.mpr
    apply List.forall₂_map_right_iff.mpr
    exact List.forall₂_same.mpr fun name _ => ⟨rfl, rfl⟩

theorem Compile.signature_declared {symbol : String} {formals : List FormalSection}
    {result : Option TypeExpr} {s t : Session} {sig : Signature}
    (h : signature symbol formals result s = .ok (sig, t)) :
    AreDeclared sig.parameters formals := by
  obtain ⟨ty, r, -, h⟩ := bind_eq_ok.mp h
  obtain ⟨params, r', hparams, h⟩ := bind_eq_ok.mp h
  obtain ⟨rfl, rfl⟩ := pure_eq_ok.mp h
  exact parameters_declared hparams

theorem exists_heading_of {unit : String} {procedures : List Procedure}
    (h : ∀ p ∈ procedures, ∀ {unit s t u}, p.compile unit s = .ok (u, t) →
      ∀ sig ∈ p.signatures unit s, ∃ formals, (sig.symbol, formals) ∈ p.headings unit
        ∧ AreDeclared sig.parameters formals)
    {s t : Session} {u : Unit} (hok : compileProcedures unit procedures s = .ok (u, t)) :
    ∀ sig ∈ signaturesOf unit procedures s, ∃ formals,
      (sig.symbol, formals) ∈ headingsOf unit procedures ∧ AreDeclared sig.parameters formals := by
  induction procedures generalizing s with
  | nil =>
    rw [signaturesOf]
    exact List.forall_mem_nil _
  | cons p rest ih =>
    rw [compileProcedures] at hok
    obtain ⟨_, r, hp, hrest⟩ := bind_eq_ok.mp hok
    rw [signaturesOf_cons hp, headingsOf]
    intro sig hsig
    rcases List.mem_append.mp hsig with hsig | hsig
    · obtain ⟨formals, hmem, hdeclared⟩ := h p List.mem_cons_self hp sig hsig
      exact ⟨formals, List.mem_append_left _ hmem, hdeclared⟩
    · obtain ⟨formals, hmem, hdeclared⟩ :=
        ih (fun p hp => h p (List.mem_cons_of_mem _ hp)) hrest sig hsig
      exact ⟨formals, List.mem_append_right _ hmem, hdeclared⟩

/-- The `signatures` of procedures have the parameters that their `headings` declare. -/
theorem Procedure.exists_heading {p : Procedure} {unit : String} {s t : Session} {u : Unit}
    (h : p.compile unit s = .ok (u, t)) :
    ∀ sig ∈ p.signatures unit s, ∃ formals, (sig.symbol, formals) ∈ p.headings unit
      ∧ AreDeclared sig.parameters formals := by
  induction p using Procedure.induction generalizing unit s t u with
  | mk name formals result declarations body ih =>
    obtain ⟨sig, entry, outer, a, b, ho, hn, -⟩ := Procedure.compile_ok h
    obtain ⟨r, -, -, -, hsig, -⟩ := Compile.openProcedure_ok ho
    rw [Procedure.signatures_mk ho, Procedure.headings]
    refine List.forall_mem_cons.mpr ⟨⟨formals, ?_, Compile.signature_declared hsig⟩, ?_⟩
    · rw [Compile.signature_symbol hsig]
      exact List.mem_cons_self
    · intro inner hinner
      obtain ⟨formals, hmem, hdeclared⟩ :=
        exists_heading_of (fun p hp {_ _ _ _} => ih p hp) hn inner hinner
      exact ⟨formals, List.mem_cons_of_mem _ hmem, hdeclared⟩

theorem Module.exists_heading {m : Module} {platform : Platform} {p : Program}
    (h : m.compile platform = .ok p) {sig : Signature} (hsig : sig ∈ m.signatures) :
    ∃ formals, (sig.symbol, formals) ∈ headingsOf m.name m.declarations.procedures
      ∧ AreDeclared sig.parameters formals := by
  obtain ⟨a, b, c, d, e, entry, ha, hb, hc, hd, -⟩ := Module.compile_ok h
  rw [Module.signatures_eq ha hb hc] at hsig
  exact exists_heading_of (fun p _ {_ _ _ _} h => p.exists_heading h) hd sig hsig

namespace Machine

section

variable {image : Image} {L : Linkage} {site : Site} {Γ : Context} {H : Held} {s t : State}

/-! ## Calls -/

theorem Image.callers_terminate (h : image.terminate s = .ok (.running t)) :
    t.callers.length ≤ s.callers.length := by
  rcases Image.terminate_ok h with ⟨label, f, -, hprogress⟩ | ⟨value, result, -, -, h⟩
  · obtain rfl := Progress.running.inj hprogress
    exact le_rfl
  · rcases Image.leave_ok h with ⟨-, hprogress⟩ | ⟨caller, callers, x, hcallers, -, hprogress⟩
    · cases hprogress
    · obtain rfl := Progress.running.inj hprogress
      rw [hcallers]
      exact Nat.le_succ _

/-- A step of a `Confined` state to a deeper call executes a call of a procedure, whose arguments
lie in the bytes that its caller may write. -/
theorem State.Confined.enters (h : s.Confined L site Γ H) (hconfines : image.Confines L site)
    (hmoves : image.Moves s t) (hdeeper : s.callers.length < t.callers.length) :
    ∃ out sig arguments rest xs f, sig ∈ L.signatures
      ∧ s.frame.rest = .call out sig.symbol sig.result arguments :: rest
      ∧ image.values s.frame arguments = .ok xs
      ∧ List.Forall₂ (fun x p => x.Within site.bytes p.kind) xs sig.parameters
      ∧ t = { s with frame := f, callers := { s.frame with rest } :: s.callers }
      ∧ f.base = s.world.memory.size ∧ f.out = out
      ∧ ∀ B, List.Forall₂ (fun x p => x.Within B p.kind) xs sig.parameters →
        ∃ Γ, Γ.toLinkage = L ∧ f.Confined B Γ [] := by
  unfold Image.Moves Image.step at hmoves
  cases hrest : s.frame.rest with
  | nil =>
    -- a terminator can only return
    rw [hrest] at hmoves
    have hle := Image.callers_terminate hmoves
    omega
  | cons i rest =>
    rw [hrest] at hmoves
    obtain ⟨u, hexec, hmoves⟩ := Except.bind_eq_ok.mp hmoves
    obtain rfl := Progress.running.inj (Except.ok.inj hmoves)
    have htyped : Instr.Typed (Γ.withHeld H) i := (hrest ▸ h.frame.code).1
    -- all but calls of procedures stay at the same depth
    have hplain (hcall : ∀ out target result arguments, i ≠ .call out target result arguments) :
        False := by
      obtain ⟨w, x, rfl, -⟩ := Image.execute_eq hexec hcall
      exact lt_irrefl _ hdeeper
    have hprovided {name : String} {arguments : List Value}
        (hname : name ∈ Module.primitives.map (·.name))
        (hcall : image.call { s with frame := { s.frame with rest } } none name arguments
          = .ok u) : False := by
      obtain ⟨xs, r, -, -, rfl⟩ := hconfines.linked.call_provided hname hcall
      exact lt_irrefl _ hdeeper
    obtain ⟨out, sig, arguments, rfl, hsig, ha⟩ : ∃ out sig arguments,
        i = .call out sig.symbol sig.result arguments ∧ sig ∈ Γ.signatures
          ∧ List.Forall₂ (fun v p => HasKind (Γ.withHeld H) v p.kind) arguments
            sig.parameters := by
      cases htyped with
      | call hs hr ha => exact ⟨_, _, _, rfl, hs, ha⟩
      | callValue hs hr ha => exact ⟨_, _, _, rfl, hs, ha⟩
      | print => exact (hprovided (by decide) hexec).elim
      | newline => exact (hprovided (by decide) hexec).elim
      | read => exact (hprovided (by decide) hexec).elim
      | _ => exact (hplain nofun).elim
    have hsig : sig ∈ L.signatures := h.linkage ▸ hsig
    have hglobals : image.GlobalsWithin site.bytes Γ.globals := h.linkage ▸ hconfines.globals
    obtain ⟨xs, f, hxs, hu, hbase, hout, hconfined⟩ := hconfines.linked.call_procedure hsig hexec
    have hxs : image.values s.frame arguments = .ok xs := (values_rest ..).symm.trans hxs
    exact ⟨out, sig, arguments, rest, xs, f, hsig, rfl, hxs, h.frame.values hglobals ha hxs, hu,
      hbase, hout, hconfined⟩

/-! ## What a call may write -/

/-- The bytes of `globals`, where `Image.symbols` has them. -/
def Image.InGlobals (image : Image) (globals : List Global) (i : Nat) : Prop :=
  ∃ g ∈ globals, ∃ a, image.symbols.lookup g.name = some a ∧ a ≤ i ∧ i < a + g.ty.width

/-- The bytes of the arguments `xs` that are passed by reference. -/
def InReferences (parameters : List Parameter) (xs : List Scalar) (i : Nat) : Prop :=
  ∃ a p, (Scalar.int a, p) ∈ xs.zip parameters ∧ p.byReference = true
    ∧ addressOf a ≤ i ∧ i < addressOf a + p.ty.width

/-- A call that may write `InGlobals`, `InReferences`, and memory that is new. -/
def Site.ofCall (image : Image) (globals : List Global) (parameters : List Parameter)
    (xs : List Scalar) (s : State) (out : Option Nat) (rest : List Instr) : Site where
  bytes i := s.world.memory.size ≤ i ∨ image.InGlobals globals i ∨ InReferences parameters xs i
  base := s.world.memory.size
  out := out
  outer := { s.frame with rest } :: s.callers

/-- An argument that is passed by reference is a place, which lies `Within` the bytes of its
caller. -/
theorem within_of_zip {B : Nat → Prop} {xs : List Scalar} {parameters : List Parameter}
    (h : List.Forall₂ (fun x p => x.Within B p.kind) xs parameters) {a : Int64}
    {p : Parameter} (hp : (Scalar.int a, p) ∈ xs.zip parameters)
    (hreference : p.byReference = true) : Object.Within B ⟨addressOf a, p.ty⟩ := by
  have hwithin := (List.forall₂_iff_zip.mp h).2 hp
  rw [Parameter.kind, if_pos hreference] at hwithin
  exact hwithin

section

variable {B : Nat → Prop} {out : Option Nat} {rest : List Instr} {xs : List Scalar}
  {parameters : List Parameter}

theorem Image.Confines.call (h : image.Confines L site) :
    image.Confines L (.ofCall image L.globals parameters xs s out rest) := by
  refine ⟨h.linked, ?_, fun i hi => .inl hi⟩
  intro g hg a ha
  exact (h.globals g hg a ha).narrow fun i hge hlt => .inr (.inl ⟨g, hg, a, ha, hge, hlt⟩)

theorem arguments_within (hxs : List.Forall₂ (fun x p => x.Within B p.kind) xs parameters) :
    List.Forall₂ (fun x p =>
        x.Within (Site.ofCall image L.globals parameters xs s out rest).bytes p.kind)
      xs parameters := by
  refine List.forall₂_iff_zip.mpr ⟨hxs.length_eq, ?_⟩
  intro x q hq
  unfold Parameter.kind
  split
  · rename_i hreference
    cases x with
    | real => exact trivial
    | int a =>
      exact (within_of_zip hxs hq hreference).narrow fun i hge hlt =>
        .inr (.inr ⟨a, q, hq, hreference, hge, hlt⟩)
  · exact trivial

namespace State.Confined

/-- A call, `Site.ofCall`, may write no byte that its caller may not. -/
theorem bytes_of_call (h : s.Confined L site Γ H) (hconfines : image.Confines L site)
    (hxs : List.Forall₂ (fun x p => x.Within site.bytes p.kind) xs parameters) {i : Nat}
    (hi : (Site.ofCall image L.globals parameters xs s out rest).bytes i) : site.bytes i := by
  rcases hi with hnew | ⟨g, hg, a, ha, hge, hlt⟩ | ⟨a, q, hq, hreference, hge, hlt⟩
  · exact hconfines.new i ((h.site_le.trans h.base_le).trans hnew)
  · exact (hconfines.globals g hg a ha).bytes i hge hlt
  · exact (within_of_zip hxs hq hreference).bytes i hge hlt

/-- A call that `Returns` is one of a procedure, and has changed no bytes but those it may write. -/
theorem call_returns (h : s.Confined L site Γ H) (hconfines : image.Confines L site)
    (hreturns : image.Returns s t) :
    ∃ out sig arguments rest xs, sig ∈ L.signatures
      ∧ s.frame.rest = .call out sig.symbol sig.result arguments :: rest
      ∧ image.values s.frame arguments = .ok xs
      ∧ List.Forall₂ (fun x p => x.Within site.bytes p.kind) xs sig.parameters
      ∧ t.Resumes (.ofCall image L.globals sig.parameters xs s out rest)
      ∧ s.world.memory.SameOutside (Site.ofCall image L.globals sig.parameters xs s out rest).bytes
        t.world.memory := by
  obtain ⟨u, fuel, hmoves, hdeeper, hreturn⟩ := hreturns
  obtain ⟨out, sig, arguments, rest, xs, f, hsig, hrest, hxs, hwithin, rfl, hbase, hout,
    hconfined⟩ := h.enters hconfines hmoves hdeeper
  obtain ⟨Δ, hΔ, hf⟩ := hconfined _ (arguments_within hwithin)
  set call := Site.ofCall image L.globals sig.parameters xs s out rest
  have hcallers : CallersConfined L call f.base f.out call.outer := by
    rw [hbase, hout]
    exact .site
  have hinside : State.Confined L call Δ []
      { s with frame := f, callers := { s.frame with rest } :: s.callers } :=
    ⟨hΔ, hf, hbase.ge, hbase.le, hcallers⟩
  exact ⟨out, sig, arguments, rest, xs, hsig, hrest, hxs, hwithin,
    hinside.returns hconfines.call rfl hreturn⟩

end State.Confined

end

end

/-! ## Runs -/

/-- A run that may write all from `floor` on, the end of the texts. -/
def Site.ofRun (floor base : Nat) : Site where
  bytes i := floor ≤ i
  base := base
  out := none
  outer := []

/-- The texts of constants end at `floor`, behind the first bytes. -/
structure Image.TextsBelow (image : Image) (floor : Nat) (strings : List StringConstant) :
    Prop where
  null : nullPage ≤ floor
  text : ∀ c ∈ strings, ∃ a, image.symbols.lookup c.name = some a ∧ a + c.bytes.length < floor

end Machine

namespace Code.Program.Linked

variable {p : Program} {signatures : List Signature} {image : Image} {m : Memory} {s : State}

/-- `load` puts globals behind the texts. -/
theorem load_confines (h : p.Linked signatures) (hload : load p = .ok (image, m)) :
    image.TextsBelow (nullPage + textSize p.strings) p.strings
      ∧ image.Confines (p.linkage signatures) (.ofRun (nullPage + textSize p.strings) m.size) := by
  obtain ⟨⟨n, symbols⟩, hglobals, hpure⟩ := Except.bind_eq_ok.mp hload
  obtain ⟨rfl, rfl⟩ := Prod.mk.inj (Except.ok.inj hpure)
  have hstrings := loadStrings_spec p.strings .initial []
  have hsub := (symbols_loadGlobals hglobals).2
  have hnodup := h.nodup_symbols hglobals
  obtain ⟨hsize, hfound⟩ := mem_loadGlobals hglobals
  set m₀ := (loadStrings p.strings (.initial, [])).1
  have hfloor : m₀.size = nullPage + textSize p.strings := hstrings.size
  rw [← hfloor]
  refine ⟨⟨?_, fun c hc => ?_⟩, h.image symbols, ?_, fun i hi => hsize.trans hi⟩
  · rw [hfloor]
    exact Nat.le_add_right _ _
  · obtain ⟨address, hmem, -, hlt, -⟩ := hstrings.text c hc
    exact ⟨address, lookup_of_mem hnodup (hsub hmem), hlt⟩
  · intro g hg a ha
    obtain ⟨address, hmem, hle, hfinish⟩ := hfound g hg
    obtain rfl := Option.some.inj (ha.symm.trans (lookup_of_mem hnodup hmem))
    exact ⟨h.isProper.globals g hg, hfinish, fun i hge _ => hle.trans hge⟩

theorem start_confined (h : p.Linked signatures) {input : List String} (floor : Nat)
    (hstart : start p { memory := m, input } = .ok (.running s)) :
    ∃ Γ, s.Confined (p.linkage signatures) (.ofRun floor m.size) Γ [] := by
  obtain ⟨f, hfind, himpl⟩ := h.function?_symbol h.procedures h.dots
    (List.mem_cons_self : entrySignature ∈ entrySignature :: signatures)
  obtain ⟨blocks, -, hbody, -⟩ := himpl.body
  have hfind : p.function? entryName = some f := hfind
  simp only [start, hfind, hbody] at hstart
  obtain ⟨g, henter, hstart⟩ := Except.bind_eq_ok.mp hstart
  obtain rfl := Progress.running.inj (Except.ok.inj hstart)
  obtain ⟨hbase, hout⟩ := Frame.enter_ok henter
  obtain ⟨Γ, hΓ, hg⟩ := Frame.enter_confined himpl hbody henter .nil
  refine ⟨Γ, hΓ, hg, hbase.ge, hbase.le, ?_⟩
  show CallersConfined _ _ g.base g.out []
  rw [hbase, hout]
  exact .site

/-- Whatever a program `Reaches`, it writes behind its texts only. -/
theorem confined_behind_texts (h : p.Linked signatures) {input : String}
    (hs : Reaches p input image s) :
    ∃ base Γ H, image.TextsBelow (nullPage + textSize p.strings) p.strings
      ∧ image.Confines (p.linkage signatures) (.ofRun (nullPage + textSize p.strings) base)
      ∧ s.Confined (p.linkage signatures) (.ofRun (nullPage + textSize p.strings) base) Γ H := by
  obtain ⟨m, first, hload, hstart, hmoves⟩ := hs
  obtain ⟨htexts, hconfines⟩ := h.load_confines hload
  obtain ⟨Γ, hfirst⟩ := h.start_confined (nullPage + textSize p.strings) hstart
  obtain ⟨Γ', H', hs⟩ := hfirst.of_moves hconfines rfl hmoves
  exact ⟨m.size, Γ', H', htexts, hconfines, hs⟩

theorem confined_of_reaches (h : p.Linked signatures) {input : String}
    (hs : Reaches p input image s) :
    ∃ floor base Γ H, image.TextsBelow floor p.strings
      ∧ image.Confines (p.linkage signatures) (.ofRun floor base)
      ∧ s.Confined (p.linkage signatures) (.ofRun floor base) Γ H :=
  ⟨nullPage + textSize p.strings, h.confined_behind_texts hs⟩

end Code.Program.Linked

/-- A call of a procedure, in any run of a module of plain names and at any depth, has changed no
memory of its caller when it has returned but globals and the arguments that are passed by
reference, which are those of parameters declared with VAR and arrays. The first bytes and the texts
of the constants are none of these. The memory that the call took is given back, the same calls
wait, and in the frame of its caller nothing but the result is new. -/
theorem Module.writes_of_returns {m : Module} {platform : Platform} {p : Program}
    (h : m.compile platform = .ok p) (hm : m.HasPlainNames) {input : String} {image : Image}
    {s t : State} (hs : Reaches p input image s) (hreturns : image.Returns s t) :
    ∃ sig ∈ m.signatures, ∃ formals out arguments rest xs,
      (sig.symbol, formals) ∈ headingsOf m.name m.declarations.procedures
      ∧ AreDeclared sig.parameters formals
      ∧ s.frame.rest = .call out sig.symbol sig.result arguments :: rest
      ∧ image.values s.frame arguments = .ok xs ∧ xs.length = sig.parameters.length
      ∧ (∀ i < s.world.memory.size, t.world.memory.get i ≠ s.world.memory.get i →
        image.InGlobals p.globals i ∨ InReferences sig.parameters xs i)
      ∧ (∀ i < nullPage, t.world.memory.get i = s.world.memory.get i)
      ∧ (∀ c ∈ p.strings, ∃ a, image.symbols.lookup c.name = some a ∧
        ∀ i, a ≤ i → i ≤ a + c.bytes.length → t.world.memory.get i = s.world.memory.get i)
      ∧ t.world.memory.size = s.world.memory.size ∧ t.callers = s.callers
      ∧ ∃ v, t.frame = ({ s.frame with rest } : Frame).set? out v := by
  have hlinked := Module.linked_of_compile h hm
  obtain ⟨floor, base, Γ, H, htexts, hconfines, hs⟩ := hlinked.confined_of_reaches hs
  obtain ⟨out, sig, arguments, rest, xs, hsig, hrest, hxs, hwithin, hresumes, hsame⟩ :=
    hs.call_returns hconfines hreturns
  obtain ⟨formals, hheading, hdeclared⟩ := Module.exists_heading h hsig
  obtain ⟨caller, v, houter, hframe⟩ := hresumes.frame
  obtain ⟨rfl, hcallers⟩ := List.cons.inj houter
  -- all that a call may write lies behind the texts
  have hlow {i : Nat} (hi : i < floor) : t.world.memory.get i = s.world.memory.get i := by
    apply hsame
    intro hbytes
    have hfloor : floor ≤ i := hs.bytes_of_call hconfines hwithin hbytes
    omega
  refine ⟨sig, hsig, formals, out, arguments, rest, xs, hheading, hdeclared, hrest, hxs,
    hwithin.length_eq, ?_, ?_, ?_, hresumes.size, hcallers.symm, v, hframe⟩
  · intro i hi hchanged
    by_contra hother
    refine hchanged (hsame i ?_)
    rintro (hnew | hnamed)
    · have hnew : s.world.memory.size ≤ i := hnew
      omega
    · exact hother hnamed
  · intro i hi
    exact hlow (hi.trans_le htexts.null)
  · intro c hc
    obtain ⟨a, ha, hend⟩ := htexts.text c hc
    refine ⟨a, ha, fun i _ hle => hlow ?_⟩
    omega

/-- A module with a procedure that adds up numbers in a variable of its caller, and counts down its
own copy of another one. -/
def Module.tally : Module :=
  let use (name : String) : Expr := .designator name []
  let sum : Procedure := .mk "Sum" [⟨true, ["total"], .integer⟩, ⟨false, ["n"], .integer⟩] none {}
    [.ifThen [(.relation (use "n") .greater (.literal (.integer 0)),
      [.assign ⟨"total", []⟩ (.binary (use "total") .add (use "n")),
       .assign ⟨"n", []⟩ (.binary (use "n") .sub (.literal (.integer 1))),
       .call "Sum" [use "total", use "n"]])] none]
  let outer : Procedure := .mk "Outer" [] none { vars := [(["x", "y"], .integer)] }
    [.call "Sum" [use "y", .literal (.integer 3)]]
  { name := "M"
    declarations := { procedures := [sum, outer] }
    body := some [.call "Outer" []] }

theorem Module.writes_of_returns_tally :
    ∃ p image s t, Module.tally.compile .native = .ok p ∧ Module.tally.HasPlainNames
      ∧ Reaches p "" image s ∧ image.Returns s t
      ∧ t.world.memory.get 24 = 6 ∧ s.world.memory.get 24 = 0
      ∧ ∃ sig ∈ Module.tally.signatures, ∃ formals out arguments rest xs,
        (sig.symbol, formals) ∈ headingsOf "M" Module.tally.declarations.procedures
        ∧ AreDeclared sig.parameters formals
        ∧ s.frame.rest = .call out sig.symbol sig.result arguments :: rest
        ∧ image.values s.frame arguments = .ok xs
        ∧ ∀ i < s.world.memory.size, t.world.memory.get i ≠ s.world.memory.get i →
          image.InGlobals p.globals i ∨ InReferences sig.parameters xs i := by
  have hnames : Module.tally.HasPlainNames :=
    ⟨by decide, by decide, ⟨by decide, trivial⟩, by decide, ⟨by decide, trivial⟩, by decide,
      trivial⟩
  have hok : (Module.tally.compile .native).isOk = true := by decide +kernel
  have hfacts : ∀ p ∈ (Module.tally.compile .native).toOption, (do
        let (image, s) ← reach? p "" 3
        let u ← running? (image.step s)
        let t ← image.return? s.callers.length 100 u
        pure (s.callers.length, u.callers.length, s.world.memory.get 24, t.world.memory.get 24))
      = some (1, 2, 0, 6) := by
    decide +kernel
  obtain ⟨p, hp⟩ := Except.exists_of_isOk hok
  have hrun := hfacts p (by rw [hp]; rfl)
  obtain ⟨⟨image, s⟩, hreach, hrun⟩ := Option.bind_eq_some_iff.mp hrun
  obtain ⟨u, hu, hrun⟩ := Option.bind_eq_some_iff.mp hrun
  obtain ⟨t, ht, hrun⟩ := Option.bind_eq_some_iff.mp hrun
  simp only [pure, Option.some.injEq, Prod.mk.injEq] at hrun
  obtain ⟨hdepth, hdeeper, hbefore, hafter⟩ := hrun
  have hreaches := reaches_of_reach? hreach
  have hreturns : image.Returns s t := ⟨u, 100, running?_eq_some.mp hu, by omega, ht⟩
  obtain ⟨sig, hsig, formals, out, arguments, rest, xs, hheading, hdeclared, hrest, hxs, -,
    hbytes, -⟩ := Module.writes_of_returns hp hnames hreaches hreturns
  exact ⟨p, image, s, t, hp, hnames, hreaches, hreturns, hafter, hbefore, sig, hsig,
    formals, out, arguments, rest, xs, hheading, hdeclared, hrest, hxs, hbytes⟩

end Oberon
