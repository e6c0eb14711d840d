import Mathlib.Data.List.Nodup
import Std.Data.String.ToNat
import Oberon.Proofs.TypedPrograms

/-!
# Names in programs

Functions, globals and string constants of a program are found by their names. Procedures are
named by their paths, joined by dots; as long as the parts have no dots of their own, and
procedures of one section have different names, different procedures become functions of
different names, and none takes the place of a primitive or of the entry function.
-/

namespace Oberon

open Code

/-! ## Plain names -/

mutual

/-- The names of a procedure and of those inside of it have no dots, and no two procedures of one
section have the same name. -/
def Procedure.HasPlainNames : Procedure → Prop
  | .mk name _ _ ⟨_, _, _, procedures⟩ _ => '.' ∉ name.toList ∧ HavePlainNames procedures

/-- The procedures of one section all have `HasPlainNames`, and no two of them have the same
name. -/
def HavePlainNames : List Procedure → Prop
  | [] => True
  | p :: rest => p.HasPlainNames ∧ p.name ∉ rest.map Procedure.name ∧ HavePlainNames rest

end

/-- The names of the module and its procedures have no dots, that of the module is not empty, and
no two procedures of one section have the same name. -/
structure Module.HasPlainNames (m : Module) : Prop where
  nonempty : m.name ≠ ""
  name : '.' ∉ m.name.toList
  procedures : HavePlainNames m.declarations.procedures

/-! ## Paths -/

/-- A path that leads through `name`, seen from `unit`. -/
def LeadsThrough (unit name symbol : String) : Prop :=
  ∃ rest : List Char, symbol.toList = unit.toList ++ '.' :: (name.toList ++ rest)
    ∧ ∀ c ∈ rest.head?, c = '.'

/-- A plain name in a path ends at the next dot. -/
theorem takeWhile_path {name : String} {rest : List Char} (hname : '.' ∉ name.toList)
    (hrest : ∀ c ∈ rest.head?, c = '.') :
    (name.toList ++ rest).takeWhile (· != '.') = name.toList := by
  have hall : ∀ c ∈ name.toList, (c != '.') = true := by
    intro c hc
    exact bne_iff_ne.mpr fun heq => hname (heq ▸ hc)
  have hstop : rest.takeWhile (· != '.') = [] := by
    cases rest with
    | nil => rfl
    | cons c rest => simp [hrest c rfl]
  rw [List.takeWhile_append_of_pos hall, hstop, List.append_nil]

/-- A path `LeadsThrough` one plain name only. -/
theorem LeadsThrough.name_eq {unit a b symbol : String} (h : LeadsThrough unit a symbol)
    (h' : LeadsThrough unit b symbol) (ha : '.' ∉ a.toList) (hb : '.' ∉ b.toList) : a = b := by
  obtain ⟨r, hr, hdot⟩ := h
  obtain ⟨r', hr', hdot'⟩ := h'
  obtain ⟨-, hsame⟩ := List.cons.inj (List.append_cancel_left (hr.symm.trans hr'))
  apply String.toList_injective
  rw [← takeWhile_path ha hdot, hsame, takeWhile_path hb hdot']

theorem leadsThrough_self (unit name : String) : LeadsThrough unit name (unit ++ "." ++ name) :=
  ⟨[], by simp, nofun⟩

/-- A path below `unit.name` `LeadsThrough` `name`. -/
theorem LeadsThrough.outer {unit name inner symbol : String}
    (h : LeadsThrough (unit ++ "." ++ name) inner symbol) : LeadsThrough unit name symbol := by
  obtain ⟨rest, hrest, -⟩ := h
  refine ⟨'.' :: (inner.toList ++ rest), ?_, fun c hc => (Option.some.inj hc).symm⟩
  rw [hrest]
  simp

/-- A path that `LeadsThrough` a name below `unit` is not `unit` itself. -/
theorem LeadsThrough.ne {unit name symbol : String} (h : LeadsThrough unit name symbol) :
    symbol ≠ unit := by
  rintro rfl
  obtain ⟨rest, hrest, -⟩ := h
  have hlength := congrArg List.length hrest
  rw [List.length_append, List.length_cons] at hlength
  omega

theorem LeadsThrough.dot_mem {unit name symbol : String} (h : LeadsThrough unit name symbol) :
    '.' ∈ symbol.toList := by
  obtain ⟨rest, hrest, -⟩ := h
  rw [hrest]
  exact List.mem_append_right _ List.mem_cons_self

/-! ## Functions -/

/-- `symbolsOf` a section are the symbols of its procedures. -/
theorem exists_of_mem_symbolsOf {unit symbol : String} {procedures : List Procedure}
    (h : symbol ∈ symbolsOf unit procedures) : ∃ p ∈ procedures, symbol ∈ p.symbols unit := by
  induction procedures with
  | nil => exact nomatch h
  | cons p rest ih =>
    rw [symbolsOf] at h
    rcases List.mem_append.mp h with h | h
    · exact ⟨p, List.mem_cons_self, h⟩
    · obtain ⟨q, hq, h⟩ := ih h
      exact ⟨q, List.mem_cons_of_mem _ hq, h⟩

/-- All `symbols` of a procedure lead through its name. -/
theorem Procedure.leadsThrough_of_mem_symbols {p : Procedure} {unit symbol : String}
    (h : symbol ∈ p.symbols unit) : LeadsThrough unit p.name symbol := by
  induction p using Procedure.induction generalizing unit symbol with
  | mk name formals result declarations body ih =>
    rw [Procedure.symbols] at h
    rcases List.mem_cons.mp h with rfl | h
    · exact leadsThrough_self unit name
    · obtain ⟨p, hp, h⟩ := exists_of_mem_symbolsOf h
      exact (ih p hp h).outer

theorem Procedure.HasPlainNames.name {p : Procedure} (h : p.HasPlainNames) :
    '.' ∉ p.name.toList := by
  obtain ⟨name, formals, result, ⟨constants, types, vars, procedures⟩, body⟩ := p
  exact h.1

theorem HavePlainNames.mem {procedures : List Procedure} (h : HavePlainNames procedures) :
    ∀ p ∈ procedures, p.HasPlainNames := by
  induction procedures with
  | nil => exact List.forall_mem_nil _
  | cons p rest ih => exact List.forall_mem_cons.mpr ⟨h.1, ih h.2.2⟩

/-- `symbolsOf` a section are different names if those of each of its procedures are. -/
theorem nodup_symbolsOf_of {unit : String} {procedures : List Procedure}
    (h : ∀ p ∈ procedures, p.HasPlainNames → ∀ unit, (p.symbols unit).Nodup)
    (hplain : HavePlainNames procedures) : (symbolsOf unit procedures).Nodup := by
  induction procedures with
  | nil => exact List.nodup_nil
  | cons p rest ih =>
    obtain ⟨hp, hname, hrest⟩ := hplain
    rw [symbolsOf]
    refine (h p List.mem_cons_self hp unit).append
      (ih (fun q hq => h q (List.mem_cons_of_mem _ hq)) hrest) fun symbol hsymbol hother => ?_
    -- a common symbol would lead through two names of the section
    obtain ⟨q, hq, hother⟩ := exists_of_mem_symbolsOf hother
    have hsame := (p.leadsThrough_of_mem_symbols hsymbol).name_eq
      (q.leadsThrough_of_mem_symbols hother) hp.name (hrest.mem q hq).name
    exact hname (hsame ▸ List.mem_map_of_mem hq)

/-- The `symbols` of a procedure of plain names, those of nested ones included, differ. -/
theorem Procedure.nodup_symbols {p : Procedure} (h : p.HasPlainNames) (unit : String) :
    (p.symbols unit).Nodup := by
  induction p using Procedure.induction generalizing unit with
  | mk name formals result declarations body ih =>
    obtain ⟨constants, types, vars, procedures⟩ := declarations
    rw [Procedure.symbols]
    refine List.nodup_cons.mpr ⟨fun hmem => ?_, nodup_symbolsOf_of ih h.2⟩
    obtain ⟨p, hp, hmem⟩ := exists_of_mem_symbolsOf hmem
    exact (p.leadsThrough_of_mem_symbols hmem).ne rfl

/-- `symbolsOf` a section of plain names are different names, all with a dot. -/
theorem symbolsOf_names (unit : String) {procedures : List Procedure}
    (h : HavePlainNames procedures) :
    (symbolsOf unit procedures).Nodup ∧ ∀ symbol ∈ symbolsOf unit procedures,
      '.' ∈ symbol.toList := by
  refine ⟨nodup_symbolsOf_of (fun p _ hp unit => p.nodup_symbols hp unit) h, fun symbol hmem => ?_⟩
  obtain ⟨p, hp, hmem⟩ := exists_of_mem_symbolsOf hmem
  exact (p.leadsThrough_of_mem_symbols hmem).dot_mem

/-- None of `Module.primitives` has a name that a procedure or the entry function can have. -/
theorem Module.primitives_names :
    ∀ f ∈ Module.primitives, '.' ∉ f.name.toList ∧ f.name ≠ entryName := by
  decide

namespace Code.Program.Typed

variable {signatures : List Signature} {p : Program}

/-- `function?` finds a function for each primitive and each signature. -/
theorem exists_function (h : p.Typed signatures) {name : String}
    (hname : name ∈ Module.primitives.map (·.name)
      ++ (entrySignature :: signatures).map (·.symbol)) :
    ∃ f ∈ p.functions, p.function? name = some f ∧ f.name = name := by
  obtain ⟨f, hf, hfname⟩ := List.mem_map.mp (h.names hname)
  have hsome : (p.function? name).isSome := by
    rw [Program.function?, List.find?_isSome]
    exact ⟨f, hf, beq_iff_eq.mpr hfname⟩
  obtain ⟨g, hg⟩ := Option.isSome_iff_exists.mp hsome
  have hgname : (g.name == name) = true :=
    List.find?_some (p := fun f : Function => f.name == name) hg
  exact ⟨g, List.mem_of_find?_eq_some hg, hg, beq_iff_eq.mp hgname⟩

/-- `function?` finds a primitive by its name, since no procedure takes its place. -/
theorem function?_primitive (h : p.Typed signatures)
    (hdots : ∀ sig ∈ signatures, '.' ∈ sig.symbol.toList) {f : Function}
    (hf : f ∈ Module.primitives) : p.function? f.name = some f := by
  obtain ⟨g, hg, hfind, hname⟩ := h.exists_function
    (List.mem_append_left _ (List.mem_map_of_mem hf))
  have hplain := Module.primitives_names f hf
  rcases h.functions g hg with hprimitive | ⟨sig, hsig, himpl⟩
  · have hunique : ∀ f ∈ Module.primitives, ∀ g ∈ Module.primitives, g.name = f.name → g = f := by
      decide
    exact hunique f hf g hprimitive hname ▸ hfind
  · rw [himpl.name] at hname
    rcases List.mem_cons.mp hsig with rfl | hsig
    · exact absurd hname.symm hplain.2
    · exact absurd (hname ▸ hdots sig hsig) hplain.1

/-- `function?` finds the entry function and those of procedures by their symbols. -/
theorem function?_symbol (h : p.Typed signatures)
    (hnodup : (signatures.map (·.symbol)).Nodup)
    (hdots : ∀ sig ∈ signatures, '.' ∈ sig.symbol.toList) {sig : Signature}
    (hsig : sig ∈ entrySignature :: signatures) :
    ∃ f, p.function? sig.symbol = some f
      ∧ f.Implements ⟨p.globals, p.strings, signatures⟩ sig := by
  have hall : ((entrySignature :: signatures).map (·.symbol)).Nodup := by
    refine List.nodup_cons.mpr ⟨fun hmem => ?_, hnodup⟩
    obtain ⟨sig, hsig, hname⟩ := List.mem_map.mp hmem
    exact absurd (hname ▸ hdots sig hsig) (by decide)
  obtain ⟨f, hf, hfind, hname⟩ := h.exists_function
    (List.mem_append_right _ (List.mem_map_of_mem hsig))
  refine ⟨f, hfind, ?_⟩
  rcases h.functions f hf with hprimitive | ⟨sig', hsig', himpl⟩
  · have hplain := Module.primitives_names f hprimitive
    rw [hname] at hplain
    rcases List.mem_cons.mp hsig with rfl | hsig
    · exact absurd rfl hplain.2
    · exact absurd (hdots sig hsig) hplain.1
  · have hsame : sig' = sig :=
      List.inj_on_of_nodup_map hall hsig' hsig (himpl.name.symm.trans hname)
    exact hsame ▸ himpl

end Code.Program.Typed

/-! ## Globals and string constants -/

namespace Environment

variable (env : Environment)

theorem innermost_bind_self (name : String) (named : Named) :
    (env.bind name named).innermost.lookup name = some named :=
  List.lookup_cons_self

theorem innermost_bind_of_ne {name other : String} (h : other ≠ name) (named : Named) :
    (env.bind name named).innermost.lookup other = env.innermost.lookup other := by
  show List.lookup other ((name, named) :: env.innermost) = _
  rw [List.lookup_cons, beq_eq_false_iff_ne.mpr h]

end Environment

/-- The globals of a module are those of its variables `names`, which are different ones. -/
structure Session.GlobalsNamed (unit : String) (names : List String) (s : Session) : Prop where
  globals : s.globals.map (·.name) = names.map (unit ++ "." ++ ·)
  nodup : names.Nodup
  bound : ∀ name ∈ names, ∃ cell, s.env.innermost.lookup name = some (.var cell)

namespace Compile

variable {unit : String} {before : List String} {s t : Session} {u : Unit}

/-- `globalVariable` adds a global behind the others. -/
theorem globalVariable_ok {name : String} {ty : Ty} {cell : Variable}
    (h : globalVariable unit name ty s = .ok (cell, t)) :
    t = { s with globals := s.globals ++ [⟨unit ++ "." ++ name, ty⟩] } := by
  simp only [globalVariable, bind_eq_ok, modify_eq_ok, get_eq_ok, pure_eq_ok] at h
  obtain ⟨_, _, rfl, _, _, ⟨rfl, rfl⟩, _, rfl⟩ := h
  rfl

/-- `varsOf` adds a global for each name, and `GlobalsNamed` says so. -/
theorem varsOf_globalsNamed {ty : Ty} {names : List String}
    (h : varsOf (globalVariable unit) ty names s = .ok (u, t)) (hs : s.GlobalsNamed unit before) :
    t.GlobalsNamed unit (before ++ names) := by
  induction names generalizing before s with
  | nil =>
    obtain ⟨_, rfl⟩ := pure_eq_ok.mp h
    rwa [List.append_nil]
  | cons name rest ih =>
    obtain ⟨cell, r, hcell, h⟩ := bind_eq_ok.mp h
    obtain ⟨_, r', hdeclare, h⟩ := bind_eq_ok.mp h
    obtain rfl := globalVariable_ok hcell
    obtain ⟨hnone, rfl⟩ := declare_ok hdeclare
    have hnone : s.env.innermost.lookup name = none := hnone
    -- a variable of the same name would be there already
    have hnew : name ∉ before := by
      intro hmem
      obtain ⟨cell, hsome⟩ := hs.bound name hmem
      rw [hnone] at hsome
      cases hsome
    rw [List.append_cons]
    apply ih h
    constructor
    case globals =>
      show List.map Global.name (s.globals ++ [⟨unit ++ "." ++ name, ty⟩]) = _
      rw [List.map_append, List.map_append, hs.globals]
      rfl
    case nodup => exact List.nodup_append_comm.mp (List.nodup_cons.mpr ⟨hnew, hs.nodup⟩)
    case bound =>
      intro other hother
      by_cases hsame : other = name
      · rw [hsame]
        exact ⟨cell, s.env.innermost_bind_self name _⟩
      · have hother : other ∈ before := by simpa [hsame] using hother
        obtain ⟨cell', hsome⟩ := hs.bound other hother
        exact ⟨cell', (s.env.innermost_bind_of_ne hsame _).trans hsome⟩

/-- `vars` adds a global for each name of each declaration. -/
theorem vars_globalsNamed {declarations : List (List String × TypeExpr)}
    (h : vars (globalVariable unit) declarations s = .ok (u, t))
    (hs : s.GlobalsNamed unit before) :
    t.GlobalsNamed unit (before ++ declarations.flatMap (·.1)) := by
  induction declarations generalizing before s with
  | nil =>
    obtain ⟨_, rfl⟩ := pure_eq_ok.mp h
    rwa [List.flatMap_nil, List.append_nil]
  | cons d rest ih =>
    simp only [vars, bind_eq_ok] at h
    obtain ⟨ty, r, hresolve, _, r', hnames, h⟩ := h
    obtain ⟨-, -, rfl⟩ := resolve_ok hresolve
    rw [List.flatMap_cons, ← List.append_assoc]
    exact ih h (varsOf_globalsNamed hnames ⟨hs.globals, hs.nodup, hs.bound⟩)

end Compile

/-- After the declarations of a module there is a global for each of its variables, as
`GlobalsNamed` says. -/
theorem Module.globalsNamed_of_sections {m : Module} {a b c : Session}
    (ha : Compile.constants m.declarations.constants .begun = .ok ((), a))
    (hb : Compile.types m.declarations.types a = .ok ((), b))
    (hc : Compile.vars (Compile.globalVariable m.name) m.declarations.vars b = .ok ((), c)) :
    c.GlobalsNamed m.name (m.declarations.vars.flatMap (·.1)) := by
  have hbefore : b.globals = [] :=
    (Session.keeps_of_declares <| (Compile.traces_constants .names _ ha).trans
      (Compile.traces_types .names _ hb)).globals
  have hnone : b.GlobalsNamed m.name [] :=
    ⟨by rw [hbefore]; rfl, List.nodup_nil, List.forall_mem_nil _⟩
  exact Compile.vars_globalsNamed hc hnone

theorem nodup_stringNames (n : Nat) : ((List.range n).map (".str." ++ toString ·)).Nodup := by
  refine List.nodup_range.map fun a b heq => ?_
  exact Nat.repr_inj.mp ((String.append_right_inj _).mp heq)

/-- No global is named like a string constant, `.str.n`: its name starts with that of the module. -/
theorem global_ne_string {unit name : String} (hunit : unit ≠ "") (hdot : '.' ∉ unit.toList)
    (n : Nat) : unit ++ "." ++ name ≠ ".str." ++ toString n := by
  intro heq
  have heq := congrArg String.toList heq
  cases hchars : unit.toList with
  | nil => exact hunit (String.toList_injective hchars)
  | cons c rest =>
    have hc : c = '.' := by
      simp only [String.toList_append, hchars, List.cons_append] at heq
      exact (List.cons.inj heq).1
    exact hdot (hchars ▸ hc ▸ List.mem_cons_self)

/-- The globals of a program that `Module.compile` gives are those of the variables of its
module. -/
theorem Module.globals_of_compile {m : Module} {platform : Platform} {p : Program}
    (h : m.compile platform = .ok p) :
    (m.declarations.vars.flatMap (·.1)).Nodup ∧ p.globals.map (·.name)
      = (m.declarations.vars.flatMap (·.1)).map (m.name ++ "." ++ ·) := by
  obtain ⟨a, b, c, d, e, entry, ha, hb, hc, hd, he, rfl⟩ := Module.compile_ok h
  have hnamed := Module.globalsNamed_of_sections ha hb hc
  have hprocedures := (compileProcedures_keeps hd).1
  have hbody := Session.keeps_of_declares (Compile.traces_statements _ _ he)
  have hglobals : e.globals = c.globals := hbody.globals.trans hprocedures.globals
  refine ⟨hnamed.nodup, ?_⟩
  rw [← hnamed.globals, ← hglobals]

/-- The string constants of a program that `Module.compile` gives are named by their positions. -/
theorem Module.strings_of_compile {m : Module} {platform : Platform} {p : Program}
    (h : m.compile platform = .ok p) :
    p.strings.map (·.name) = (List.range p.strings.length).map (".str." ++ toString ·) := by
  obtain ⟨a, b, c, d, e, entry, ha, hb, hc, hd, he, rfl⟩ := Module.compile_ok h
  have hcode := Session.code_of_collects (Module.collects_of_sections ha hb hc)
  have hstock : c.stock = {} := (Emission.mk.inj hcode.2).1
  have hprocedures := (compileProcedures_keeps hd).1
  have hbody := Session.keeps_of_declares (Compile.traces_statements _ _ he)
  refine hbody.stock.numbered ?_
  show d.stock.Numbered
  refine hprocedures.stock.numbered ?_
  rw [hstock]
  rfl

/-- The globals and string constants of a module of a plain name have different names. -/
theorem Module.nodup_symbols {m : Module} {platform : Platform} {p : Program}
    (h : m.compile platform = .ok p) (hname : m.name ≠ "") (hdot : '.' ∉ m.name.toList) :
    (p.globals.map (·.name) ++ p.strings.map (·.name)).Nodup := by
  obtain ⟨hnodup, hglobals⟩ := Module.globals_of_compile h
  have hinjective : Function.Injective (m.name ++ "." ++ ·) :=
    fun a b heq => (String.append_right_inj _).mp heq
  rw [hglobals, Module.strings_of_compile h]
  refine (hnodup.map hinjective).append (nodup_stringNames _) fun symbol hsymbol hstring => ?_
  obtain ⟨name, -, hglobal⟩ := List.mem_map.mp hsymbol
  obtain ⟨n, -, hn⟩ := List.mem_map.mp hstring
  exact global_ne_string hname hdot n (hglobal.trans hn.symm)

end Oberon
