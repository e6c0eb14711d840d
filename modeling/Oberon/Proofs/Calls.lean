import Oberon.Proofs.Names

/-!
# Calls and the functions they reach

When a procedure is declared again, its function gives up its place to the new one. So the function
of a name has the last signature declared for it (`lastOf`), while a call in typed code has the one
for which it was compiled.
-/

namespace Oberon

open Code

/-! ## The last declaration of a name -/

/-- The last signature of a symbol. -/
def lastOf (symbol : String) (signatures : List Signature) : Option Signature :=
  signatures.reverse.find? (·.symbol == symbol)

theorem lastOf_append (symbol : String) (first second : List Signature) :
    lastOf symbol (first ++ second) = (lastOf symbol second).or (lastOf symbol first) := by
  rw [lastOf, List.reverse_append, List.find?_append]
  rfl

theorem lastOf_eq_none {symbol : String} {signatures : List Signature} :
    lastOf symbol signatures = none ↔ symbol ∉ signatures.map (·.symbol) := by
  simp [lastOf, List.find?_eq_none]

/-! ## The table of functions -/

/-- A function with the name and the types of a signature. -/
structure Code.Function.Fits (f : Function) (sig : Signature) : Prop where
  name : f.name = sig.symbol
  parameters : f.parameters = sig.parameterTypes
  result : f.result = sig.result

namespace Code.Program

/-- Names stay different: a function that `insertFunction` brings takes the place of the one of its
name. -/
theorem nodup_insertFunction {functions : List Function}
    (h : (functions.map (·.name)).Nodup) (f : Function) :
    ((insertFunction f functions).map (·.name)).Nodup := by
  induction functions with
  | nil => exact List.nodup_singleton _
  | cons first rest ih =>
    obtain ⟨hfirst, hrest⟩ := List.nodup_cons.mp h
    rw [insertFunction]
    by_cases hname : first.name = f.name
    · rw [if_pos (beq_iff_eq.mpr hname), List.map_cons, ← hname]
      exact h
    · rw [if_neg (by simpa using hname)]
      refine List.nodup_cons.mpr ⟨?_, ih hrest⟩
      intro hmem
      obtain ⟨g, hg, hgname⟩ := List.mem_map.mp hmem
      rcases mem_insertFunction hg with rfl | hg
      · exact hname hgname.symm
      · exact hfirst (hgname ▸ List.mem_map_of_mem hg)

/-- The functions beside the one that `insertFunction` brings have other names. -/
theorem name_ne_of_mem_insertFunction {f g : Function} {functions : List Function}
    (hnodup : (functions.map (·.name)).Nodup) (h : g ∈ insertFunction f functions) :
    g = f ∨ g ∈ functions ∧ g.name ≠ f.name := by
  induction functions with
  | nil => exact .inl (List.mem_singleton.mp h)
  | cons first rest ih =>
    obtain ⟨hfirst, hrest⟩ := List.nodup_cons.mp hnodup
    rw [insertFunction] at h
    by_cases hname : first.name = f.name
    · rw [if_pos (beq_iff_eq.mpr hname)] at h
      refine (List.mem_cons.mp h).imp_right ?_
      intro hg
      refine ⟨List.mem_cons_of_mem _ hg, ?_⟩
      intro heq
      apply hfirst
      show first.name ∈ _
      rw [hname, ← heq]
      exact List.mem_map_of_mem hg
    · rw [if_neg (by simpa using hname)] at h
      rcases List.mem_cons.mp h with rfl | h
      · exact .inr ⟨List.mem_cons_self, hname⟩
      · exact (ih hrest h).imp_right fun hg => ⟨List.mem_cons_of_mem _ hg.1, hg.2⟩

/-- What declarations of the signatures `new` do to a table of functions, in which all names are
different: each name that is declared gets a function of its last declaration, and the functions
of all other names stay. -/
structure Replaces (before after : List Function) (new : List Signature) : Prop where
  nodup : (after.map (·.name)).Nodup
  functions : ∀ f ∈ after, (f ∈ before ∧ lastOf f.name new = none)
    ∨ ∃ sig, lastOf f.name new = some sig ∧ f.Fits sig

namespace Replaces

variable {a b c : List Function}

theorem refl (h : (a.map (·.name)).Nodup) : Replaces a a [] :=
  ⟨h, fun _ hf => .inl ⟨hf, rfl⟩⟩

theorem trans {first second : List Signature} (h : Replaces a b first)
    (h' : Replaces b c second) : Replaces a c (first ++ second) := by
  refine ⟨h'.nodup, ?_⟩
  intro f hf
  rw [lastOf_append]
  rcases h'.functions f hf with ⟨hold, hnone⟩ | ⟨sig, hsig, hfits⟩
  · rw [hnone, Option.none_or]
    exact h.functions f hold
  · rw [hsig, Option.some_or]
    exact .inr ⟨sig, rfl, hfits⟩

/-- `Replaces` for a procedure: it is declared before those inside of it, and its function comes
behind theirs. -/
theorem insert {f : Function} {sig : Signature} {nested : List Signature}
    (h : Replaces a b nested) (hf : f.Fits sig)
    (hnested : sig.symbol ∉ nested.map (·.symbol)) :
    Replaces a (insertFunction f b) (sig :: nested) := by
  have hcons (name : String) :
      lastOf name (sig :: nested) = (lastOf name nested).or (lastOf name [sig]) :=
    lastOf_append name [sig] nested
  refine ⟨nodup_insertFunction h.nodup f, ?_⟩
  intro g hg
  rw [hcons]
  rcases name_ne_of_mem_insertFunction h.nodup hg with rfl | ⟨hg, hname⟩
  · rw [hf.name, lastOf_eq_none.mpr hnested, Option.none_or]
    exact .inr ⟨sig, by simp [lastOf], hf⟩
  · have hother : lastOf g.name [sig] = none := lastOf_eq_none.mpr (by simpa [hf.name] using hname)
    rw [hother, Option.or_none]
    exact h.functions g hg

end Replaces

end Code.Program

theorem Draft.function_fits (d : Draft) (sig : Signature) (entry : String)
    (origin : Option String) :
    (d.function (.start sig.symbol sig.parameterTypes sig.result entry origin)).Fits sig := by
  obtain ⟨hname, hparameters, hresult⟩ :=
    (Builder.start sig.symbol sig.parameterTypes sig.result entry origin).header_run d.script
  exact ⟨hname, hparameters, hresult⟩

theorem compileProcedures_replaces_of {unit : String} {procedures : List Procedure}
    (h : ∀ p ∈ procedures, ∀ {unit s t u}, p.compile unit s = .ok (u, t) → s.names.Nodup →
      Program.Replaces s.functions t.functions (p.signatures unit s)) {s t : Session} {u : Unit}
    (hok : compileProcedures unit procedures s = .ok (u, t)) (hs : s.names.Nodup) :
    Program.Replaces s.functions t.functions (signaturesOf unit procedures s) := by
  induction procedures generalizing s with
  | nil =>
    rw [compileProcedures] at hok
    obtain ⟨_, rfl⟩ := pure_eq_ok.mp hok
    rw [signaturesOf]
    exact .refl hs
  | cons p rest ih =>
    rw [compileProcedures] at hok
    obtain ⟨_, r, hp, hrest⟩ := bind_eq_ok.mp hok
    rw [signaturesOf_cons hp]
    have hfirst := h p List.mem_cons_self hp hs
    exact hfirst.trans (ih (fun p hp => h p (List.mem_cons_of_mem _ hp)) hrest hfirst.nodup)

/-- None of `symbolsOf` a unit is the symbol of the unit. -/
theorem ne_of_mem_symbolsOf {unit symbol : String} {procedures : List Procedure}
    (h : symbol ∈ symbolsOf unit procedures) : symbol ≠ unit := by
  obtain ⟨p, -, h⟩ := exists_of_mem_symbolsOf h
  exact (p.leadsThrough_of_mem_symbols h).ne

/-- After `Procedure.compile`, the name of the procedure has its function, and so have those inside
of it. -/
theorem Procedure.replaces_of_compile {p : Procedure} {unit : String} {s t : Session} {u : Unit}
    (h : p.compile unit s = .ok (u, t)) (hs : s.names.Nodup) :
    Program.Replaces s.functions t.functions (p.signatures unit s) := by
  induction p using Procedure.induction generalizing unit s t u with
  | mk name formals result declarations body ih =>
    obtain ⟨sig, entry, outer, a, b, ho, hn, hc⟩ := Procedure.compile_ok h
    obtain ⟨r, -, -, -, hsig, -⟩ := Compile.openProcedure_ok ho
    obtain ⟨b₁, hbody, rfl⟩ := Compile.closeProcedure_ok hc
    have hopened : a.functions = s.functions := Compile.openProcedure_functions ho
    have hemitted : b₁.functions = b.functions :=
      Session.functions_of_declares (Compile.traces_statements _ _ hbody)
    have hnested := compileProcedures_replaces_of (fun p hp {_ _ _ _} => ih p hp) hn
      (by rwa [Session.names, hopened])
    rw [hopened, ← hemitted] at hnested
    rw [Procedure.signatures_mk ho]
    refine hnested.insert (b₁.draft.function_fits sig entry _) ?_
    -- the symbols of procedures inside are longer
    rw [symbol_signaturesOf hn, Compile.signature_symbol hsig]
    exact fun hmem => ne_of_mem_symbolsOf hmem rfl

/-! ## Modules -/

theorem Module.dot_mem_symbol {m : Module} {platform : Platform} {p : Program}
    (h : m.compile platform = .ok p) : ∀ sig ∈ m.signatures, '.' ∈ sig.symbol.toList := by
  intro sig hsig
  have hmem : sig.symbol ∈ symbolsOf m.name m.declarations.procedures := by
    rw [← Module.symbol_signatures h]
    exact List.mem_map_of_mem hsig
  obtain ⟨q, -, hq⟩ := exists_of_mem_symbolsOf hmem
  exact (q.leadsThrough_of_mem_symbols hq).dot_mem

/-- `Module.compile` makes the functions of its procedures, and the entry function at last. -/
theorem Module.replaces_of_compile {m : Module} {platform : Platform} {p : Program}
    (h : m.compile platform = .ok p) :
    Program.Replaces Module.primitives p.functions (m.signatures ++ [entrySignature]) := by
  obtain ⟨a, b, c, d, e, entry, ha, hb, hc, hd, he, rfl⟩ := Module.compile_ok h
  have hbefore : c.functions = Module.primitives :=
    (Session.code_of_collects (Module.collects_of_sections ha hb hc)).1
  have hafter : e.functions = d.functions :=
    Session.functions_of_declares (s := d.started) (Compile.traces_statements _ _ he)
  have hreplaces := compileProcedures_replaces_of
    (fun p _ {_ _ _ _} => p.replaces_of_compile) hd (by rw [Session.names, hbefore]; decide)
  rw [hbefore, ← Module.signatures_eq ha hb hc] at hreplaces
  have hentry := (Program.Replaces.refl hreplaces.nodup).insert
    (e.draft.function_fits entrySignature entry none) List.not_mem_nil
  show Program.Replaces Module.primitives
    (Program.insertFunction (e.entryFunction entry) e.functions) _
  rw [hafter]
  exact hreplaces.trans hentry

/-- Every function that `Module.compile` makes fits the last declaration of its name, `lastOf`. -/
theorem Module.fits_of_compile {m : Module} {platform : Platform} {p : Program}
    (h : m.compile platform = .ok p) {f : Function} (hf : f ∈ p.functions) :
    f ∈ Module.primitives ∨ f.name = entryName
      ∨ ∃ sig, lastOf f.name m.signatures = some sig ∧ f.Fits sig := by
  rcases (Module.replaces_of_compile h).functions f hf with ⟨hprimitive, -⟩ | ⟨sig, hsig, hfits⟩
  · exact .inl hprimitive
  · right
    rw [lastOf_append] at hsig
    rcases Option.or_eq_some_iff.mp hsig with hentry | ⟨-, hlast⟩
    · obtain rfl := List.mem_singleton.mp (List.mem_reverse.mp (List.mem_of_find?_eq_some hentry))
      exact .inl hfits.name
    · exact .inr ⟨sig, hlast, hfits⟩

/-- The arguments and the result of a call in typed code are those of one of `signatures`, unless it
calls what the machine provides. -/
theorem Code.Instr.Typed.call_fits {Γ : Context} {out : Option Nat} {callee : String} {result : Ty}
    {arguments : List Value} (h : Instr.Typed Γ (.call out callee result arguments)) :
    callee ∈ Module.primitives.map (·.name) ∨ ∃ sig ∈ Γ.signatures, sig.symbol = callee
      ∧ arguments.map Value.ty = sig.parameterTypes ∧ result = sig.result := by
  have htypes : ∀ {arguments : List Value} {parameters : List Parameter},
      List.Forall₂ (fun v p => HasKind Γ v p.kind) arguments parameters →
      arguments.map Value.ty = parameters.map fun p => if p.byReference then .ptr else p.ty := by
    intro arguments parameters harguments
    induction harguments with
    | nil => rfl
    | @cons v p _ _ hv _ ih =>
      have hty : v.ty = if p.byReference then .ptr else p.ty := by
        rw [hv.ty_eq, Parameter.kind]
        split <;> rfl
      rw [List.map_cons, List.map_cons, hty, ih]
  cases h with
  | call hs hr ha => exact .inr ⟨_, hs, rfl, htypes ha, rfl⟩
  | callValue hs hr ha => exact .inr ⟨_, hs, rfl, htypes ha, rfl⟩
  | print hc hb hf he hv => exact .inl (by decide)
  | newline hc => exact .inl (by decide)
  | read hc hb hf ha => exact .inl (by decide)

/-- Every instruction of a function that `Implements` a signature is typed. -/
theorem Code.Function.Implements.instr {L : Linkage} {sig : Signature} {f : Function}
    (h : f.Implements L sig) {b : Block} (hb : b ∈ f.blocks) {i : Instr} (hi : i ∈ b.instrs) :
    ∃ expected H, i.Typed ((sig.context L expected).withHeld H) := by
  obtain ⟨blocks, expected, hbody, -, htyped, -⟩ := h.body
  rw [Function.blocks, hbody] at hb
  obtain ⟨label, hlabel, rfl⟩ := Array.mem_iff_getElem.mp hb
  have hsize : blocks.size = expected.length := htyped.size
  have hexpected : expected[label]? = some expected[label] :=
    List.getElem?_eq_getElem (hsize ▸ hlabel)
  have hcode := (htyped.block hexpected (Array.getElem?_eq_getElem hlabel)).code
  exact ⟨expected, hcode.exists_typed hi⟩

theorem Module.primitives_external : ∀ f ∈ Module.primitives, f.isExternal = true := by
  decide

end Oberon
