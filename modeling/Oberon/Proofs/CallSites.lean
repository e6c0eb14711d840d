import Mathlib.Data.List.Find
import Oberon.Proofs.Provenance
import Oberon.Proofs.Symbols

/-!
# Calls and the declarations in force

A call is compiled for the signature that its procedure has at that point, and stays as it is when
the procedure is declared again behind it. What a name means in a body is thus a matter of order:
the frames of the environment bind a procedure to the last of its declarations so far (`Sees`). So
each body has a place in the row of declarations (`Module.sites`), its calls have the types of the
declarations that are in force there, and they agree with the functions that they reach unless a
later declaration has other types.
-/

namespace Oberon

open Code Relation

/-! ## Declarations in force -/

/-- A declaration of a procedure: its path, seen from the module, and its signature. -/
abbrev Declaration := List String × Signature

/-- The signature in force for a path, which is that of its last declaration. -/
def inForce (path : List String) (declared : List Declaration) : Option Signature :=
  (declared.reverse.find? (·.1 == path)).map (·.2)

/-- The signatures that are `inForce` after some declarations. -/
def current (declared : List Declaration) : List Signature :=
  declared.filterMap fun d => inForce d.1 declared

section

variable {path : List String} {declared more : List Declaration} {sig : Signature}

/-- What is `inForce` after two rows of declarations is that of the second one, if it has any. -/
theorem inForce_append : inForce path (declared ++ more)
    = (inForce path more).or (inForce path declared) := by
  rw [inForce, List.reverse_append, List.find?_append, Option.map_or]
  rfl

/-- Nothing is `inForce` for a path that was not declared. -/
theorem inForce_eq_none : inForce path declared = none ↔ path ∉ declared.map (·.1) := by
  simp only [inForce, Option.map_eq_none_iff, List.find?_eq_none, List.mem_reverse, beq_iff_eq,
    List.mem_map, not_exists, not_and]

/-- Declarations of other paths change nothing about what is `inForce`. -/
theorem inForce_append_of_notMem (h : path ∉ more.map (·.1)) :
    inForce path (declared ++ more) = inForce path declared := by
  rw [inForce_append, inForce_eq_none.mpr h, Option.none_or]

/-- A declaration is `inForce` as soon as it is made. -/
theorem inForce_concat : inForce path (declared ++ [(path, sig)]) = some sig := by
  rw [inForce_append]
  simp [inForce]

/-- What is `inForce` was declared. -/
theorem mem_of_inForce (h : inForce path declared = some sig) : (path, sig) ∈ declared := by
  obtain ⟨d, hd, rfl⟩ := Option.map_eq_some_iff.mp h
  have hpath : d.1 = path :=
    beq_iff_eq.mp (List.find?_some (p := fun d : Declaration => d.1 == path) hd)
  rw [← hpath]
  exact List.mem_reverse.mp (List.mem_of_find?_eq_some hd)

/-- `current` lists what is `inForce` for some path. -/
theorem mem_current : sig ∈ current declared ↔ ∃ path, inForce path declared = some sig := by
  rw [current, List.mem_filterMap]
  constructor
  · rintro ⟨d, -, hd⟩
    exact ⟨d.1, hd⟩
  · rintro ⟨path, hpath⟩
    exact ⟨(path, sig), mem_of_inForce hpath, hpath⟩

end

/-! ## Frames -/

/-- The procedures of a frame are bound to what is in force below `path`. -/
def Binds (declared : List Declaration) (path : List String) (frame : List (String × Named)) :
    Prop :=
  ∀ name sig, frame.lookup name = some (.procedure sig) →
    inForce (path ++ [name]) declared = some sig

/-- Frames, the innermost first, of the sections on the way from the module to `path`, in which
procedures are bound to what is in force. -/
inductive Sees (declared : List Declaration) : List String → List (List (String × Named)) → Prop
  | module {frame : List (String × Named)} (h : Binds declared [] frame) : Sees declared [] [frame]
  | inside {path : List String} {name : String} {frame : List (String × Named)}
    {outer : List (List (String × Named))} (h : Binds declared (path ++ [name]) frame)
    (houter : Sees declared path outer) : Sees declared (path ++ [name]) (frame :: outer)

theorem Binds.nil {declared : List Declaration} {path : List String} : Binds declared path [] := by
  intro name sig hlookup
  cases hlookup

/-- `Binds` of a frame with one more name, which hides what the name meant there. -/
theorem Binds.cons {declared : List Declaration} {path : List String}
    {frame : List (String × Named)} {name : String} {named : Named}
    (hothers : ∀ other sig, other ≠ name → frame.lookup other = some (.procedure sig) →
      inForce (path ++ [other]) declared = some sig)
    (hnamed : ∀ sig, named = .procedure sig → inForce (path ++ [name]) declared = some sig) :
    Binds declared path ((name, named) :: frame) := by
  intro other sig hlookup
  rw [List.lookup_cons] at hlookup
  split at hlookup
  · rename_i heq
    obtain rfl := beq_iff_eq.mp heq
    exact hnamed sig (Option.some.inj hlookup)
  · rename_i hne
    exact hothers other sig (by simpa using hne) hlookup

namespace Sees

variable {declared more : List Declaration} {path : List String} {env : Environment}
  {frames : List (List (String × Named))}

/-- What frames bind, as `Sees` has it, depends on the paths up to one step below theirs only. -/
theorem congr (h : Sees declared path frames)
    (hsame : ∀ q : List String, q.length ≤ path.length + 1 → inForce q more = inForce q declared) :
    Sees more path frames := by
  induction h with
  | module h =>
    refine .module fun name sig hlookup => ?_
    rw [hsame _ (by simp)]
    exact h name sig hlookup
  | inside h _ ih =>
    refine .inside (fun name sig hlookup => ?_) (ih fun q hq => hsame q ?_)
    · rw [hsame _ (by simp)]
      exact h name sig hlookup
    · rw [List.length_append]
      exact Nat.le_succ_of_le hq

/-- Declarations further inside change nothing about what a section `Sees`. -/
theorem append (h : Sees declared path frames)
    (hinside : ∀ d ∈ more, path.length + 1 < d.1.length) : Sees (declared ++ more) path frames := by
  refine h.congr fun q hq => inForce_append_of_notMem fun hmem => ?_
  obtain ⟨d, hd, rfl⟩ := List.mem_map.mp hmem
  exact absurd hq (Nat.not_le.mpr (hinside d hd))

theorem binds_innermost (h : Sees declared path env.frames) :
    Binds declared path env.innermost := by
  obtain ⟨frames⟩ := env
  cases h with
  | module h => exact h
  | inside h houter => exact h

/-- `Sees` with another innermost frame, when nothing gets declared outside of it. -/
theorem replace {frame : List (String × Named)} (h : Sees declared path env.frames)
    (hsame : ∀ q : List String, q.length ≤ path.length → inForce q more = inForce q declared)
    (hframe : Binds more path frame) : Sees more path (frame :: env.frames.tail) := by
  obtain ⟨frames⟩ := env
  cases h with
  | module h => exact .module hframe
  | inside h houter =>
    refine .inside hframe (houter.congr fun q hq => hsame q ?_)
    rw [List.length_append]
    exact hq

/-- A constant or a variable gets a name, and the section `Sees` the same procedures. -/
theorem bind {name : String} {named : Named} (h : Sees declared path env.frames)
    (hnamed : ∀ sig, named ≠ .procedure sig) : Sees declared path (env.bind name named).frames :=
  h.replace (fun _ _ => rfl) <| .cons (fun other sig _ => h.binds_innermost other sig)
    fun sig hsig => absurd hsig (hnamed sig)

/-- A procedure is declared in the section of `path`, which `Sees` it from then on. -/
theorem declare (h : Sees declared path env.frames) (name : String) (sig : Signature) :
    Sees (declared ++ [(path ++ [name], sig)]) path (env.bind name (.procedure sig)).frames := by
  have hother : ∀ q : List String, q ≠ path ++ [name] →
      inForce q (declared ++ [(path ++ [name], sig)]) = inForce q declared := by
    intro q hq
    exact inForce_append_of_notMem (by simpa using hq)
  refine h.replace (fun q hq => hother q ?_) (.cons (fun other sig' hne hlookup => ?_) ?_)
  · rintro rfl
    rw [List.length_append] at hq
    exact absurd hq (Nat.not_succ_le_self _)
  · rw [hother _ (by simpa using hne)]
    exact h.binds_innermost other sig' hlookup
  · rintro sig' hsig
    obtain rfl := Named.procedure.inj hsig
    exact inForce_concat

/-- A new section `Sees` what is around it, and has no procedure of its own. -/
theorem push (h : Sees declared path env.frames) (name : String) :
    Sees declared (path ++ [name]) env.push.frames :=
  .inside .nil h

/-- What a name means for a call is one of the signatures that are `current`. -/
theorem lookup {name : String} {sig : Signature} (h : Sees declared path env.frames)
    (hlookup : env.lookup name = some (.procedure sig)) : sig ∈ current declared := by
  obtain ⟨frames⟩ := env
  rw [mem_current]
  rw [Environment.lookup] at hlookup
  dsimp only at h hlookup
  induction h with
  | module h =>
    rw [List.findSome?_singleton] at hlookup
    exact ⟨_, h name sig hlookup⟩
  | @inside path inner frame outer h _ ih =>
    rw [List.findSome?_cons] at hlookup
    cases hframe : frame.lookup name with
    | none =>
      rw [hframe] at hlookup
      exact ih hlookup
    | some named =>
      rw [hframe] at hlookup
      obtain rfl := Option.some.inj hlookup
      exact ⟨_, h name sig hframe⟩

end Sees

namespace Session

variable {declared : List Declaration} {path : List String} {s t : Session}

theorem Names.sees (h : s.Names t) (hs : Sees declared path s.env.frames) :
    Sees declared path t.env.frames := by
  cases h with
  | name name hnamed => exact hs.bind hnamed
  | resolve h => exact hs
  | type name definition => exact hs

/-- The steps of `Declares` declare no procedure, so what a section `Sees` stays. -/
theorem sees_of_declares (h : ReflTransGen Declares s t) (hs : Sees declared path s.env.frames) :
    Sees declared path t.env.frames := by
  induction h with
  | refl => exact hs
  | tail _ hstep ih =>
    cases hstep with
    | names h => exact h.sees ih
    | emit h => exact ih

theorem sees_of_collects (h : ReflTransGen Collects s t) (hs : Sees declared path s.env.frames) :
    Sees declared path t.env.frames := by
  induction h with
  | refl => exact hs
  | tail _ hstep ih =>
    cases hstep with
    | names h => exact h.sees ih
    | global g => exact ih

end Session

/-- A procedure is declared where `openProcedure` binds it, and seen from its own section. -/
theorem Compile.openProcedure_sees {name symbol entry : String} {formals : List FormalSection}
    {result : Option TypeExpr} {constantSection : List (String × Expr)}
    {typeSection : List (String × TypeExpr)} {varSection : List (List String × TypeExpr)}
    {sig : Signature} {outer : Draft} {s t : Session} {declared : List Declaration}
    {path : List String}
    (h : openProcedure name symbol formals result constantSection typeSection varSection s
      = .ok ((sig, entry, outer), t)) (hs : Sees declared path s.env.frames) :
    Sees (declared ++ [(path ++ [name], sig)]) (path ++ [name]) t.env.frames := by
  obtain ⟨r, a, b, c, hsig, -, hp, hcs, hts, hvs⟩ := openProcedure_ok h
  obtain ⟨types, -, rfl⟩ :=
    Session.resolves_of_steps (resolves_signature symbol formals result hsig)
  have hopened : Sees (declared ++ [(path ++ [name], sig)]) (path ++ [name])
      ((s.withTypes types).bind name (.procedure sig)).opened.env.frames :=
    (hs.declare name sig).push name
  exact Session.sees_of_declares ((traces_bindParameters _ _ hp).trans <|
    (traces_constants .names _ hcs).trans <| (traces_types .names _ hts).trans <|
      traces_vars .names traces_localVariable _ hvs) hopened

/-! ## Bodies -/

/-- The context in which only the procedures of `signatures` are known. -/
def Context.withSignatures (Γ : Context) (signatures : List Signature) : Context :=
  { Γ with signatures }

section

variable {Γ : Context} {signatures : List Signature}

theorem HasKind.withSignatures {v : Value} {k : Kind} (h : HasKind Γ v k) :
    HasKind (Γ.withSignatures signatures) v k := by
  cases h with
  | int value hbits => exact .int value hbits
  | real value => exact .real value
  | null => exact .null
  | temp h => exact .temp h
  | param h => exact .param h
  | global h => exact .global h
  | string h => exact .string h

/-- Code at the head of a body (`IsHead`) calls no procedure, so it does not matter which are
known. -/
theorem Code.Instr.Typed.withSignatures {i : Instr} (h : i.Typed Γ) (hi : i.IsHead) :
    i.Typed (Γ.withSignatures signatures) := by
  cases i with
  | alloca out ty =>
    cases h with
    | alloca h => exact .alloca h
  | store value address =>
    cases h with
    | store hv ha => exact .store hv.withSignatures ha.withSignatures
  | _ => exact False.elim hi

theorem CodeTyped.withSignatures {H : Held} {code : List Instr} (h : CodeTyped Γ H code)
    (hcode : ∀ i ∈ code, i.IsHead) : CodeTyped (Γ.withSignatures signatures) H code := by
  induction code generalizing H with
  | nil => exact trivial
  | cons i rest ih =>
    obtain ⟨hi, hfresh, hrest⟩ := h
    obtain ⟨hhead, hheads⟩ := List.forall_mem_cons.mp hcode
    exact ⟨hi.withSignatures hhead, hfresh, ih hrest hheads⟩

theorem Code.Terminator.Typed.withSignatures {t : Terminator} (h : t.Typed Γ) :
    t.Typed (Γ.withSignatures signatures) := by
  cases h with
  | jump h => exact .jump h
  | branch hc ht hf => exact .branch hc.withSignatures ht hf
  | ret h => exact .ret h
  | retValue h => exact .retValue h.withSignatures

/-- A body that `IsBegun`, and has not got beyond its head, stays typed where fewer procedures are
known. -/
theorem Emission.Typed.withSignatures {s : Emission} (h : s.Typed Γ) (hs : s.IsBegun)
    (hsub : signatures ⊆ Γ.signatures) : s.Typed (Γ.withSignatures signatures) := by
  have hp := h.isProper
  refine ⟨⟨⟨hp.linkage.globals, fun sig hsig => hp.linkage.signatures sig (hsub hsig)⟩,
    hp.parameters, hp.result, hp.blocks, hp.held⟩, h.strings, h.count,
    ⟨h.blocks.size, h.blocks.entry, h.blocks.defined, fun hl hb => ?_⟩, h.bounded, h.here⟩
  have hblock := h.blocks.block hl hb
  exact ⟨hblock.code.withSignatures (hs.head _ (Array.mem_of_getElem? hb)),
    fun t ht => (hblock.terminator t ht).withSignatures⟩

end

/-- A function whose calls have the types of signatures that are `inForce` after some declarations,
but for those of what the machine provides. -/
def Code.Function.CallsInForce (f : Function) (declared : List Declaration) : Prop :=
  ∀ b ∈ f.blocks, ∀ out callee result arguments, .call out callee result arguments ∈ b.instrs →
    callee ∈ Module.primitives.map (·.name) ∨ ∃ path sig, inForce path declared = some sig
      ∧ sig.symbol = callee ∧ arguments.map Value.ty = sig.parameterTypes ∧ result = sig.result

/-- The `statements` of a body call what is in force where they stand: the body is typed already if
only that is known. -/
theorem Compile.statements_callsInForce {sig : Signature} {body : List Statement} {Γ : Context}
    {s t : Session} {u : Unit} {declared : List Declaration} {path : List String}
    (h : statements sig.result body s = .ok (u, t)) (hs : s.Typed Γ) (hbegun : s.emission.IsBegun)
    (hsignatures : Γ.signatures = declared.map (·.2)) (hsees : Sees declared path s.env.frames)
    (hparams : Γ.parameters = sig.parameters.map Parameter.kind) (hresult : Γ.result = sig.result)
    (entry : String) (origin : Option String) :
    (t.draft.function (.start sig.symbol sig.parameterTypes sig.result entry
      origin)).CallsInForce declared := by
  have hsub : current declared ⊆ Γ.signatures := by
    intro sig' hsig'
    obtain ⟨path', hpath'⟩ := mem_current.mp hsig'
    rw [hsignatures]
    exact List.mem_map_of_mem (f := (·.2)) (mem_of_inForce hpath')
  have henv : s.env.Typed (Γ.withSignatures (current declared)) :=
    ⟨fun hcell => (hs.env.cell hcell).withSignatures, fun hlookup => hsees.lookup hlookup⟩
  obtain ⟨Δ, hle, -, himpl⟩ := statements_typed h (hs.emission.withSignatures hbegun hsub) henv
    hparams hresult entry origin
  intro b hb out callee result arguments hcall
  obtain ⟨expected, H, hi⟩ := himpl.instr hb hcall
  refine hi.call_fits.imp_right ?_
  rintro ⟨sig', hsig', hfits⟩
  have hcurrent : sig' ∈ Δ.signatures := hsig'
  rw [hle.signatures_eq] at hcurrent
  obtain ⟨path', hpath'⟩ := mem_current.mp hcurrent
  exact ⟨path', sig', hpath', hfits⟩

/-! ## Sites -/

mutual

/-- The sites at which bodies are compiled: the name of the function that each becomes, with the
number of procedures that are declared by then, if `before` were declared before this one. -/
def Procedure.sites (unit : String) (before : Nat) : Procedure → List (String × Nat)
  | .mk name _ _ ⟨_, _, _, procedures⟩ _ =>
    sitesOf (unit ++ "." ++ name) (before + 1) procedures
      ++ [(unit ++ "." ++ name, before + 1 + (pathsOf procedures).length)]

/-- The `Procedure.sites` of the procedures of a unit. -/
def sitesOf (unit : String) (before : Nat) : List Procedure → List (String × Nat)
  | [] => []
  | p :: rest => p.sites unit before ++ sitesOf unit (before + p.paths.length) rest

end

/-- The sites of a module. Its own body is compiled when everything is declared. -/
def Module.sites (m : Module) : List (String × Nat) :=
  sitesOf m.name 0 m.declarations.procedures
    ++ [(entryName, (pathsOf m.declarations.procedures).length)]

/-- The site of the function that keeps a name, which is the last one of the name in `sites`. -/
def siteOf (name : String) (sites : List (String × Nat)) : Option Nat :=
  sites.reverse.lookup name

/-- `siteOf` takes the last site of a name. -/
theorem siteOf_append (name : String) (sites more : List (String × Nat)) :
    siteOf name (sites ++ more) = (siteOf name more).or (siteOf name sites) := by
  rw [siteOf, List.reverse_append, List.lookup_append]
  rfl

theorem siteOf_singleton_of_ne {name other : String} (h : name ≠ other) (n : Nat) :
    siteOf name [(other, n)] = none := by
  have hne : (name == other) = false := beq_eq_false_iff_ne.mpr h
  simp [siteOf, List.lookup_cons, hne]

/-- What bodies at some sites do to a table of functions: each name gets the function of its last
site, `siteOf`, which calls what was in force there, and the functions of all other names stay. -/
def Generates (before after : List Function) (sites : List (String × Nat))
    (declared : List Declaration) : Prop :=
  ∀ f ∈ after, (f ∈ before ∧ siteOf f.name sites = none)
    ∨ ∃ known, known <+: declared ∧ siteOf f.name sites = some known.length
      ∧ f.CallsInForce known

namespace Generates

variable {a b c : List Function} {sites more : List (String × Nat)}
  {declared later : List Declaration}

theorem refl (a : List Function) (declared : List Declaration) : Generates a a [] declared :=
  fun _ hf => .inl ⟨hf, rfl⟩

/-- `Generates` composes: a later function of a name takes the place of an earlier one. -/
theorem trans (h : Generates a b sites declared) (h' : Generates b c more later)
    (hle : declared <+: later) : Generates a c (sites ++ more) later := by
  intro f hf
  rw [siteOf_append]
  rcases h' f hf with ⟨hold, hnone⟩ | ⟨known, hknown, hsite, hcalls⟩
  · rw [hnone, Option.none_or]
    refine (h f hold).imp_right ?_
    rintro ⟨known, hknown, hsite, hcalls⟩
    exact ⟨known, hknown.trans hle, hsite, hcalls⟩
  · rw [hsite, Option.some_or]
    exact .inr ⟨known, hknown, rfl, hcalls⟩

/-- `insertFunction` of one more body, behind all declarations so far. -/
theorem insert {f : Function} {name : String} (h : Generates a b sites declared)
    (hnodup : (b.map (·.name)).Nodup) (hname : f.name = name) (hf : f.CallsInForce declared) :
    Generates a (Program.insertFunction f b) (sites ++ [(name, declared.length)]) declared := by
  intro g hg
  rw [siteOf_append]
  rcases Program.name_ne_of_mem_insertFunction hnodup hg with rfl | ⟨hg, hne⟩
  · exact .inr ⟨declared, List.prefix_rfl, by simp [siteOf, hname], hf⟩
  · rw [siteOf_singleton_of_ne (hname ▸ hne), Option.none_or]
    exact h g hg

end Generates

theorem ne_nil_of_mem_pathsOf {procedures : List Procedure} {path : List String}
    (h : path ∈ pathsOf procedures) : path ≠ [] := by
  induction procedures with
  | nil => cases h
  | cons p rest ih =>
    obtain ⟨name, formals, result, ⟨constants, types, vars, procedures⟩, body⟩ := p
    rw [pathsOf, Procedure.paths] at h
    rcases List.mem_append.mp h with h | h
    · rcases List.mem_cons.mp h with rfl | h
      · exact List.cons_ne_nil _ _
      · obtain ⟨inner, -, rfl⟩ := List.mem_map.mp h
        exact List.cons_ne_nil _ _
    · exact ih h

/-- What compiling procedures in the section of `path` does: their declarations `new` come behind
the others, and their bodies call what is in force at their sites. -/
structure Session.Compiles (s t : Session) (path : List String) (declared new : List Declaration)
    (sites : List (String × Nat)) : Prop where
  sees : Sees (declared ++ new) path t.env.frames
  generates : Generates s.functions t.functions sites (declared ++ new)

/-- `compileProcedures` does what `Session.Compiles` says if each procedure does, one behind the
other. -/
theorem compileProcedures_compiles_of {unit : String} {procedures : List Procedure}
    (h : ∀ p ∈ procedures, ∀ {unit Γ s t u declared path}, p.compile unit s = .ok (u, t) →
      s.Typed Γ → s.names.Nodup → Γ.signatures = declared.map (·.2) →
      Sees declared path s.env.frames → ∃ new, new.map (·.1) = p.paths.map (path ++ ·)
        ∧ new.map (·.2) = p.signatures unit s
        ∧ s.Compiles t path declared new (p.sites unit declared.length))
    {Γ : Context} {s t : Session} {u : Unit} {declared : List Declaration} {path : List String}
    (hok : compileProcedures unit procedures s = .ok (u, t)) (hs : s.Typed Γ)
    (hnodup : s.names.Nodup) (hsignatures : Γ.signatures = declared.map (·.2))
    (hsees : Sees declared path s.env.frames) :
    ∃ new, new.map (·.1) = (pathsOf procedures).map (path ++ ·)
      ∧ new.map (·.2) = signaturesOf unit procedures s
      ∧ s.Compiles t path declared new (sitesOf unit declared.length procedures) := by
  induction procedures generalizing s Γ declared with
  | nil =>
    rw [compileProcedures] at hok
    obtain ⟨_, rfl⟩ := pure_eq_ok.mp hok
    rw [pathsOf, signaturesOf, sitesOf]
    refine ⟨[], rfl, rfl, ?_, .refl _ _⟩
    rwa [List.append_nil]
  | cons p rest ih =>
    rw [compileProcedures] at hok
    obtain ⟨_, r, hp, hrest⟩ := bind_eq_ok.mp hok
    obtain ⟨first, hpaths, hsigs, hfirst⟩ := h p List.mem_cons_self hp hs hnodup hsignatures hsees
    obtain ⟨Δ, hlinks, hr⟩ := p.typed_of_compile hp hs
    have hsignatures' : Δ.signatures = (declared ++ first).map (·.2) := by
      rw [hlinks.signatures_eq, hsignatures, List.map_append, hsigs]
    obtain ⟨second, hpaths', hsigs', hsecond⟩ := ih (fun p hp => h p (List.mem_cons_of_mem _ hp))
      hrest hr (p.replaces_of_compile hp hnodup).nodup hsignatures' hfirst.sees
    have hcount : first.length = p.paths.length := by
      simpa using congrArg List.length hpaths
    refine ⟨first ++ second, ?_, ?_, ?_⟩
    · rw [List.map_append, hpaths, hpaths', pathsOf, List.map_append]
    · rw [List.map_append, hsigs, hsigs', signaturesOf_cons hp]
    · rw [List.length_append, hcount] at hsecond
      obtain ⟨hsees', hgenerates⟩ := hsecond
      rw [List.append_assoc] at hsees' hgenerates
      rw [sitesOf]
      refine ⟨hsees', hfirst.generates.trans hgenerates ?_⟩
      rw [← List.append_assoc]
      exact List.prefix_append _ _

/-- Behind the procedures of a section the session is typed where the declarations so far and those
of `compileProcedures` are known. -/
theorem compileProcedures_typed_behind {unit : String} {procedures : List Procedure} {Γ : Context}
    {s t : Session} {u : Unit} {declared new : List Declaration}
    (h : compileProcedures unit procedures s = .ok (u, t)) (hs : s.Typed Γ)
    (hsignatures : Γ.signatures = declared.map (·.2))
    (hnew : new.map (·.2) = signaturesOf unit procedures s) :
    ∃ Δ : Context, Γ.Sub Δ ∧ t.Typed Δ ∧ Δ.signatures = (declared ++ new).map (·.2) := by
  obtain ⟨Δ, hlinks, ht⟩ := compileProcedures_typed_of
    (fun p _ {_ _ _ _ _} h hs => p.typed_of_compile h hs) h hs
  refine ⟨Δ, hlinks.toSub, ht, ?_⟩
  rw [hlinks.signatures_eq, hsignatures, ← hnew, List.map_append]

/-- A procedure does what `Session.Compiles` says: it is declared first, then those inside of it,
and its body comes behind all of them. -/
theorem Procedure.compiles_of_compile {p : Procedure} {unit : String} {Γ : Context} {s t : Session}
    {u : Unit} {declared : List Declaration} {path : List String}
    (h : p.compile unit s = .ok (u, t)) (hs : s.Typed Γ) (hnodup : s.names.Nodup)
    (hsignatures : Γ.signatures = declared.map (·.2)) (hsees : Sees declared path s.env.frames) :
    ∃ new, new.map (·.1) = p.paths.map (path ++ ·) ∧ new.map (·.2) = p.signatures unit s
      ∧ s.Compiles t path declared new (p.sites unit declared.length) := by
  induction p using Procedure.induction generalizing unit Γ s t u declared path with
  | mk name formals result declarations body ih =>
    obtain ⟨constants, types, vars, procedures⟩ := declarations
    obtain ⟨sig, entry, outer, a, b, ho, hn, hc⟩ := Procedure.compile_ok h
    have hgains := Session.gains_of_parts ho (compileProcedures_keeps hn).1 hc
    obtain ⟨r, hsig, -, -⟩ := Compile.openProcedure_names ho
    have hsymbol : sig.symbol = unit ++ "." ++ name := Compile.signature_symbol hsig
    obtain ⟨hproper, Γ₁, hle₁, ha⟩ := Compile.openProcedure_typed ho hs
    have hopened : a.functions = s.functions := Compile.openProcedure_functions ho
    have hbegun : b.emission.IsBegun :=
      (Compile.openProcedure_isBegun ho).of_draft (compileProcedures_keeps hn).2
    -- the procedure itself, and those inside of it
    have hsignatures₁ : Γ₁.signatures = (declared ++ [(path ++ [name], sig)]).map (·.2) := by
      rw [hle₁.signatures_eq, List.map_append, ← hsignatures]
      rfl
    have hnodup₁ : a.names.Nodup := by rwa [Session.names, hopened]
    obtain ⟨nested, hpaths, hsigs, hnested⟩ := compileProcedures_compiles_of
      (fun p hp {_ _ _ _ _ _ _} => ih p hp) hn ha hnodup₁ hsignatures₁
      (Compile.openProcedure_sees ho hsees)
    obtain ⟨Γ₂, hle₂, hb, hsignatures₂⟩ :=
      compileProcedures_typed_behind hn ha hsignatures₁ hsigs
    -- the body, behind all of them
    obtain ⟨b₁, hbody, rfl⟩ := Compile.closeProcedure_ok hc
    have hcalls := Compile.statements_callsInForce hbody hb hbegun hsignatures₂ hnested.sees
      (hle₂.parameters ▸ hle₁.parameters ▸ rfl) (hle₂.result ▸ hle₁.result ▸ rfl) entry
      (some sig.symbol)
    have hkept : b₁.functions = b.functions :=
      Session.functions_of_declares (Compile.traces_statements _ _ hbody)
    have hnodup₂ : b.names.Nodup :=
      (compileProcedures_replaces_of (fun p _ {_ _ _ _} => p.replaces_of_compile) hn hnodup₁).nodup
    have hcount : nested.length = (pathsOf procedures).length := by
      simpa using congrArg List.length hpaths
    refine ⟨(path ++ [name], sig) :: nested, ?_, ?_, ?_, ?_⟩
    · rw [Procedure.paths, List.map_cons, List.map_cons, hpaths, List.map_map]
      simp
    · rw [Procedure.signatures_mk ho, List.map_cons, hsigs]
    · rw [List.append_cons, hgains.env]
      refine (hsees.declare name sig).append fun d hd => ?_
      have hpath : d.1 ∈ (pathsOf procedures).map (path ++ [name] ++ ·) :=
        hpaths ▸ List.mem_map_of_mem hd
      obtain ⟨q, hq, hd⟩ := List.mem_map.mp hpath
      have hlength := List.length_pos_iff.mpr (ne_nil_of_mem_pathsOf hq)
      rw [← hd]
      simp only [List.length_append, List.length_singleton]
      omega
    · have hgenerates := hnested.generates.insert hnodup₂
        ((b₁.draft.name_function _).trans hsymbol) hcalls
      rw [hopened, ← hkept] at hgenerates
      rw [List.append_cons, Procedure.sites]
      simp only [List.length_append, List.length_singleton, hcount] at hgenerates
      exact hgenerates

/-! ## Modules -/

/-- The procedures of a module, in the order in which they are declared: `pathsOf` them with
`Module.signatures`. -/
def Module.declared (m : Module) : List Declaration :=
  (pathsOf m.declarations.procedures).zip m.signatures

section

variable {m : Module} {platform : Platform} {p : Program}

theorem Module.length_signatures (h : m.compile platform = .ok p) :
    m.signatures.length = (pathsOf m.declarations.procedures).length := by
  have hsymbols := Module.symbol_signatures h
  rw [symbolsOf_eq] at hsymbols
  simpa using congrArg List.length hsymbols

/-- The signatures in `Module.declared` are `Module.signatures`. -/
theorem Module.signature_declared (h : m.compile platform = .ok p) :
    m.declared.map (·.2) = m.signatures :=
  List.map_snd_zip (Module.length_signatures h).le

/-- The symbol of a declaration in `Module.declared` is that of its path, `symbolAt`. -/
theorem Module.symbol_declared (h : m.compile platform = .ok p) :
    ∀ d ∈ m.declared, d.2.symbol = symbolAt m.name d.1 := by
  have hpaths : m.declared.map (·.1) = pathsOf m.declarations.procedures :=
    List.map_fst_zip (Module.length_signatures h).ge
  have hsymbols := Module.symbol_signatures h
  rw [symbolsOf_eq, ← Module.signature_declared h, ← hpaths, List.map_map, List.map_map] at hsymbols
  exact List.map_inj_left.mp hsymbols

/-- The functions of a program call what is in force at the sites of the module, `Module.sites`. -/
theorem Module.generates_of_compile (h : m.compile platform = .ok p) :
    Generates Module.primitives p.functions m.sites m.declared := by
  obtain ⟨a, b, c, d, e, entry, ha, hb, hc, hd, he, rfl⟩ := Module.compile_ok h
  obtain ⟨Γ₁, hle₁, hc'⟩ := Compile.vars_typed Compile.globalVariable_typed hc
    (Compile.types_typed hb (Compile.constants_typed ha Session.begun_typed))
  have hcollects := Module.collects_of_sections ha hb hc
  have hcode := Session.code_of_collects hcollects
  have hnodup : c.names.Nodup := by
    rw [Session.names, hcode.1]
    decide
  have hsees : Sees [] [] c.env.frames :=
    Session.sees_of_collects hcollects (.module Binds.nil)
  have hnone : Γ₁.signatures = ([] : List Declaration).map (·.2) := hle₁.signatures_eq
  obtain ⟨declared, hpaths, hsigs, hcompiles⟩ := compileProcedures_compiles_of
    (fun p _ {_ _ _ _ _ _ _} => p.compiles_of_compile) hd hc' hnodup hnone hsees
  -- the body of the module comes behind all declarations
  obtain ⟨Γ₂, hle₂, hd', hsignatures⟩ := compileProcedures_typed_behind hd hc' hnone hsigs
  have hdraft : d.draft = {} :=
    (compileProcedures_keeps hd).2.trans (Emission.mk.inj hcode.2).2
  have he' : Compile.statements entrySignature.result (m.body.getD []) d.started = .ok ((), e) := he
  have hcalls := Compile.statements_callsInForce he' (hd'.started hdraft)
    (Emission.isBegun_empty _) hsignatures hcompiles.sees
    (hle₂.parameters ▸ hle₁.parameters ▸ rfl) (hle₂.result ▸ hle₁.result ▸ rfl) entry none
  have hkept : e.functions = d.functions :=
    Session.functions_of_declares (s := d.started) (Compile.traces_statements _ _ he)
  have hnodup' : d.names.Nodup :=
    (compileProcedures_replaces_of (fun p _ {_ _ _ _} => p.replaces_of_compile) hd hnodup).nodup
  have hcount : declared.length = (pathsOf m.declarations.procedures).length := by
    simpa using congrArg List.length hpaths
  have hsigs' : declared.map (·.2) = m.signatures :=
    hsigs.trans (Module.signatures_eq ha hb hc).symm
  have hpaths' : declared.map (·.1) = pathsOf m.declarations.procedures := by simpa using hpaths
  have hdeclared : declared = m.declared := List.zip_of_prod hpaths' hsigs'
  have hgenerates := hcompiles.generates.insert hnodup' (e.draft.name_function _) hcalls
  rw [hcode.1, ← hkept] at hgenerates
  rw [Module.sites, ← hcount, ← hdeclared]
  exact hgenerates

/-- A function of `Module.primitives` has no blocks. -/
theorem Module.blocks_of_primitive {f : Function} (hf : f ∈ Module.primitives) :
    f.blocks = #[] := by
  have hexternal := Module.primitives_external f hf
  unfold Function.isExternal at hexternal
  unfold Function.blocks
  split
  · rfl
  · simp_all

/-- A call of a generated function has the types of what is `inForce` at the site of its body. -/
theorem Module.call_inForce (h : m.compile platform = .ok p) {f g : Function} {b : Block}
    (hf : f ∈ p.functions) (hb : b ∈ f.blocks) {out : Option Nat} {callee : String} {result : Ty}
    {arguments : List Value} (hcall : .call out callee result arguments ∈ b.instrs)
    (hg : p.function? callee = some g) (hgenerated : g ∉ Module.primitives) :
    ∃ n path sig, siteOf f.name m.sites = some n ∧ inForce path (m.declared.take n) = some sig
      ∧ sig.symbol = callee ∧ arguments.map Value.ty = sig.parameterTypes
      ∧ result = sig.result := by
  rcases Module.generates_of_compile h f hf with ⟨hprimitive, -⟩ | ⟨known, hknown, hsite, hcalls⟩
  · rw [Module.blocks_of_primitive hprimitive] at hb
    exact absurd hb (Array.not_mem_empty b)
  · rw [List.prefix_iff_eq_take.mp hknown] at hcalls
    rcases hcalls b hb out callee result arguments hcall with hprimitive | ⟨path, sig, hsig⟩
    · -- the function of a primitive is the primitive itself
      obtain ⟨q, hq, hqname⟩ := List.mem_map.mp hprimitive
      have hfind := (Module.typed_of_compile h).function?_primitive (Module.dot_mem_symbol h) hq
      rw [hqname, hg] at hfind
      exact absurd (Option.some.inj hfind ▸ hq) hgenerated
    · exact ⟨known.length, path, sig, hsite, hsig⟩

/-- The function of a procedure has the types of the last declaration, `lastOf` its symbol. -/
theorem Module.function_fits_last (h : m.compile platform = .ok p) {g : Function} {sig : Signature}
    (hsig : sig ∈ m.signatures) (hg : p.function? sig.symbol = some g)
    (hgenerated : g ∉ Module.primitives) :
    ∃ last, lastOf sig.symbol m.signatures = some last ∧ g.Fits last := by
  have hname : g.name = sig.symbol :=
    beq_iff_eq.mp (List.find?_some (p := fun f : Function => f.name == sig.symbol) hg)
  rcases Module.fits_of_compile h (List.mem_of_find?_eq_some hg) with hp | hentry | hlast
  · exact absurd hp hgenerated
  · -- the entry function has no dot in its name
    have hdot := Module.dot_mem_symbol h sig hsig
    rw [← hname, hentry] at hdot
    exact absurd hdot (by decide)
  · exact hname ▸ hlast

end

/-- If no other path has its symbol, what is `inForce` for a path is the last of its symbol. -/
theorem lastOf_eq_of_inForce {path : List String} {declared : List Declaration} {sig : Signature}
    (h : inForce path declared = some sig)
    (honly : ∀ d ∈ declared, d.2.symbol = sig.symbol ↔ d.1 = path) :
    lastOf sig.symbol (declared.map (·.2)) = some sig := by
  rw [← h, lastOf, inForce, ← List.map_reverse, List.find?_map]
  congr 1
  refine List.find?_congr fun d hd => ?_
  exact Bool.eq_iff_iff.mpr (by simpa using honly d (List.mem_reverse.mp hd))

/-- A call has the types of the declaration that is in force at the site of its body, for the path
of the procedure that it calls, and the function that it reaches has those of the last declaration.
So the two agree if the declarations behind the site have the same types, and in particular if
there are none. Two paths may have one symbol only if names have dots (`eq_of_symbolAt_eq`). -/
theorem Module.call_agrees {m : Module} {platform : Platform} {p : Program}
    (h : m.compile platform = .ok p) {f g : Function} {b : Block} (hf : f ∈ p.functions)
    (hb : b ∈ f.blocks) {out : Option Nat} {callee : String} {result : Ty} {arguments : List Value}
    (hcall : .call out callee result arguments ∈ b.instrs) (hg : p.function? callee = some g)
    (hgenerated : g.isExternal = false) :
    ∃ n path sig last, siteOf f.name m.sites = some n
      ∧ inForce path (m.declared.take n) = some sig ∧ sig.symbol = callee
      ∧ arguments.map Value.ty = sig.parameterTypes ∧ result = sig.result
      ∧ lastOf callee m.signatures = some last ∧ g.parameters = last.parameterTypes
      ∧ g.result = last.result
      ∧ ((∀ d ∈ m.declared.take n, d.2.symbol = callee → d.1 = path) →
        (∀ later ∈ m.signatures.drop n, later.symbol = callee →
          later.parameterTypes = sig.parameterTypes ∧ later.result = sig.result) →
        arguments.map Value.ty = g.parameters ∧ result = g.result) := by
  have hnot : g ∉ Module.primitives := by
    intro hprimitive
    rw [Module.primitives_external g hprimitive] at hgenerated
    cases hgenerated
  obtain ⟨n, path, sig, hsite, hsig, rfl, harguments, hresult⟩ :=
    Module.call_inForce h hf hb hcall hg hnot
  have hsignatures := Module.signature_declared h
  have hdeclared : (path, sig) ∈ m.declared := List.mem_of_mem_take (mem_of_inForce hsig)
  have hmem : sig ∈ m.signatures := hsignatures ▸ List.mem_map_of_mem (f := (·.2)) hdeclared
  obtain ⟨last, hlast, hfits⟩ := Module.function_fits_last h hmem hg hnot
  refine ⟨n, path, sig, last, hsite, hsig, rfl, harguments, hresult, hlast, hfits.parameters,
    hfits.result, ?_⟩
  intro honly hlater
  have htaken : lastOf sig.symbol (m.signatures.take n) = some sig := by
    rw [← hsignatures, ← List.map_take]
    refine lastOf_eq_of_inForce hsig fun d hd => ⟨honly d hd, ?_⟩
    rintro rfl
    rw [Module.symbol_declared h d (List.mem_of_mem_take hd), Module.symbol_declared h _ hdeclared]
  rw [harguments, hresult, hfits.parameters, hfits.result]
  -- the last declaration stands behind the site, or is the one in force
  rw [← List.take_append_drop n m.signatures, lastOf_append, htaken] at hlast
  rcases Option.or_eq_some_iff.mp hlast with hbehind | ⟨-, hsame⟩
  · have hmem' : last ∈ m.signatures.drop n :=
      List.mem_reverse.mp (List.mem_of_find?_eq_some hbehind)
    have hsymbol : last.symbol = sig.symbol := beq_iff_eq.mp
      (List.find?_some (p := fun other : Signature => other.symbol == sig.symbol) hbehind)
    obtain ⟨hparameters, hresult'⟩ := hlater last hmem' hsymbol
    exact ⟨hparameters.symm, hresult'.symm⟩
  · obtain rfl := Option.some.inj hsame
    exact ⟨rfl, rfl⟩

/-- A module in which Q calls P, and P is declared again behind it, with one more parameter. -/
def Module.redeclared (body : List Statement) : Module :=
  let first : Procedure := .mk "P" [⟨false, ["x"], .integer⟩] none {} []
  let caller : Procedure := .mk "Q" [] none {} [.call "P" [.literal (.integer 7)]]
  let second : Procedure := .mk "P" [⟨false, ["y", "z"], .integer⟩] none {} []
  { name := "M", declarations := { procedures := [first, caller, second] }, body := some body }

/-- The body of a module is compiled behind all declarations, so its calls agree. -/
theorem Module.call_agrees_redeclared :
    ∃ m p f g b, m = Module.redeclared [.call "P" [.literal (.integer 1), .literal (.integer 2)]]
      ∧ m.compile .native = .ok p ∧ f ∈ p.functions ∧ siteOf f.name m.sites = some 3
      ∧ b ∈ f.blocks ∧ .call none "M.P" .void [.integer 1, .integer 2] ∈ b.instrs
      ∧ p.function? "M.P" = some g ∧ g.isExternal = false
      ∧ [(Value.integer 1).ty, (Value.integer 2).ty] = g.parameters ∧ Ty.void = g.result := by
  set m := Module.redeclared [.call "P" [.literal (.integer 1), .literal (.integer 2)]] with hm
  have hok : (m.compile .native).isOk = true := by decide +kernel
  have hfacts : ∀ p ∈ (m.compile .native).toOption,
      (∃ f ∈ p.functions, siteOf f.name m.sites = some 3 ∧ ∃ b ∈ f.blocks,
        Instr.call none "M.P" .void [.integer 1, .integer 2] ∈ b.instrs)
      ∧ (p.function? "M.P").isSome ∧ ∀ g ∈ p.function? "M.P", g.isExternal = false := by
    decide +kernel
  have hpaths : ∀ d ∈ m.declared.take 3, d.2.symbol = "M.P" → d.1 = ["P"] := by decide +kernel
  have hbehind : m.signatures.drop 3 = [] := by decide +kernel
  obtain ⟨p, hp⟩ := Except.exists_of_isOk hok
  obtain ⟨⟨f, hf, hsite, b, hb, hcall⟩, hsome, hall⟩ := hfacts p (by rw [hp]; rfl)
  obtain ⟨g, hg⟩ := Option.isSome_iff_exists.mp hsome
  obtain ⟨n, path, sig, last, hn, hsig, hsymbol, -, -, -, -, -, hagrees⟩ :=
    Module.call_agrees hp hf hb hcall hg (hall g hg)
  obtain rfl : n = 3 := Option.some.inj (hn.symm.trans hsite)
  have hpath : path = ["P"] := hpaths _ (mem_of_inForce hsig) hsymbol
  refine ⟨m, p, f, g, b, hm, hp, hf, hsite, hb, hcall, hg, hall g hg, hagrees ?_ ?_⟩
  · exact fun d hd hd' => (hpaths d hd hd').trans hpath.symm
  · rw [hbehind]
    exact List.forall_mem_nil _

/-- A call that was compiled before its procedure was declared with more parameters reaches the
new function with too few arguments. -/
theorem Module.redeclared_disagrees :
    ∃ p f g b, (Module.redeclared [.call "Q" []]).compile .native = .ok p
      ∧ f ∈ p.functions ∧ b ∈ f.blocks ∧ .call none "M.P" .void [.integer 7] ∈ b.instrs
      ∧ p.function? "M.P" = some g ∧ g.isExternal = false
      ∧ [(Value.integer 7).ty] ≠ g.parameters
      ∧ Machine.run p "" 100 = .error (.malformed "missing argument 1") := by
  have hok : ((Module.redeclared [.call "Q" []]).compile .native).isOk = true := by decide +kernel
  have hfacts : ∀ p ∈ ((Module.redeclared [.call "Q" []]).compile .native).toOption,
      (∃ f ∈ p.functions, ∃ b ∈ f.blocks,
        Instr.call none "M.P" .void [.integer 7] ∈ b.instrs)
      ∧ (p.function? "M.P").isSome
      ∧ (∀ g ∈ p.function? "M.P", g.isExternal = false ∧ [(Value.integer 7).ty] ≠ g.parameters)
      ∧ Machine.run p "" 100 = .error (.malformed "missing argument 1") := by
    decide +kernel
  obtain ⟨p, hp⟩ := Except.exists_of_isOk hok
  obtain ⟨⟨f, hf, b, hb, hcall⟩, hsome, hall, hrun⟩ := hfacts p (by rw [hp]; rfl)
  obtain ⟨g, hg⟩ := Option.isSome_iff_exists.mp hsome
  obtain ⟨hgenerated, hdiffer⟩ := hall g hg
  exact ⟨p, f, g, b, hp, hf, hb, hcall, hg, hgenerated, hdiffer, hrun⟩

end Oberon
