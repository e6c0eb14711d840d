import Oberon.Code.Assembly
import Oberon.Proofs.BlockNames
import Oberon.Proofs.Calls
import Oberon.Proofs.WellFormed

/-!
# Names that stand for one thing

A program has one space of names for its globals, its string constants and its functions. A global
is named by the module and the variable, a function by the path of its procedure, with dots between
the parts; string constants start with a dot, and what the machine provides has none. As long as the
parts have no dots of their own, a name is that of one thing only: a path can be read back from the
name of its function, and no procedure of the module has the name of one of its variables. A
procedure that is declared again takes the place of the first one.

Blocks have names of their own kind. Each is found by its name, so the text of a branch tells where
it leads.
-/

namespace Oberon

open Code

/-! ## Paths of procedures -/

mutual

/-- The paths of a procedure and of those inside of it. -/
def Procedure.paths : Procedure → List (List String)
  | .mk name _ _ ⟨_, _, _, procedures⟩ _ => [name] :: (pathsOf procedures).map (name :: ·)

/-- The `Procedure.paths` of procedures. -/
def pathsOf : List Procedure → List (List String)
  | [] => []
  | p :: rest => p.paths ++ pathsOf rest

end

/-- The name of the function to which a path leads, seen from `unit`. -/
def symbolAt (unit : String) : List String → String
  | [] => unit
  | name :: path => symbolAt (unit ++ "." ++ name) path

theorem symbolsOf_eq_of {unit : String} {procedures : List Procedure}
    (h : ∀ p ∈ procedures, p.symbols unit = p.paths.map (symbolAt unit)) :
    symbolsOf unit procedures = (pathsOf procedures).map (symbolAt unit) := by
  induction procedures with
  | nil => rw [symbolsOf, pathsOf, List.map_nil]
  | cons p rest ih =>
    rw [symbolsOf, pathsOf, List.map_append, h p List.mem_cons_self,
      ih fun p hp => h p (List.mem_cons_of_mem _ hp)]

theorem Procedure.symbols_eq (p : Procedure) (unit : String) :
    p.symbols unit = p.paths.map (symbolAt unit) := by
  induction p using Procedure.induction generalizing unit with
  | mk name formals result declarations body ih =>
    obtain ⟨constants, types, vars, procedures⟩ := declarations
    rw [Procedure.symbols, Procedure.paths, symbolsOf_eq_of fun p hp => ih p hp _, List.map_cons,
      List.map_map]
    rfl

theorem symbolsOf_eq (unit : String) (procedures : List Procedure) :
    symbolsOf unit procedures = (pathsOf procedures).map (symbolAt unit) :=
  symbolsOf_eq_of fun p _ => p.symbols_eq unit

theorem leadsThrough_symbolAt (unit name : String) (path : List String) :
    LeadsThrough unit name (symbolAt unit (name :: path)) := by
  induction path generalizing unit name with
  | nil => exact leadsThrough_self unit name
  | cons inner path ih => exact (ih (unit ++ "." ++ name) inner).outer

/-- A path of plain names can be read back from `symbolAt`, the name of its function. -/
theorem eq_of_symbolAt_eq {unit : String} {path other : List String}
    (hpath : ∀ name ∈ path, '.' ∉ name.toList) (hother : ∀ name ∈ other, '.' ∉ name.toList)
    (h : symbolAt unit path = symbolAt unit other) : path = other := by
  induction path generalizing unit other with
  | nil =>
    cases other with
    | nil => rfl
    | cons name other =>
      have hlonger := (leadsThrough_symbolAt unit name other).ne
      exact absurd h.symm hlonger
  | cons name path ih =>
    have hthrough := leadsThrough_symbolAt unit name path
    cases other with
    | nil => exact absurd h hthrough.ne
    | cons name' other =>
      obtain ⟨hname, hinner⟩ := List.forall_mem_cons.mp hpath
      obtain ⟨hname', hinner'⟩ := List.forall_mem_cons.mp hother
      -- both lead through their first names, which are thus the same
      rw [h] at hthrough
      obtain rfl := hthrough.name_eq (leadsThrough_symbolAt unit name' other) hname hname'
      have hrest : path = other := ih hinner hinner' h
      rw [hrest]

theorem name_mem_pathsOf {procedures : List Procedure} {p : Procedure} (hp : p ∈ procedures) :
    [p.name] ∈ pathsOf procedures := by
  induction procedures with
  | nil => cases hp
  | cons q rest ih =>
    rw [pathsOf]
    rcases List.mem_cons.mp hp with rfl | hp
    · obtain ⟨name, formals, result, ⟨constants, types, vars, procedures⟩, body⟩ := p
      apply List.mem_append_left
      rw [Procedure.paths]
      exact List.mem_cons_self
    · exact List.mem_append_right _ (ih hp)

/-! ## Variables and procedures of a section -/

/-- `Procedure.compile` fails for a procedure of the name of a variable. -/
theorem Procedure.name_ne_of_compile {p : Procedure} {unit name : String} {s t : Session} {u : Unit}
    {cell : Variable} (h : p.compile unit s = .ok (u, t))
    (hbound : s.env.innermost.lookup name = some (.var cell)) :
    name ≠ p.name ∧ t.env.innermost.lookup name = some (.var cell) := by
  obtain ⟨sig, hgains⟩ := p.gains_of_compile h
  obtain ⟨own, formals, result, declarations, body⟩ := p
  obtain ⟨sig', entry, outer, a, b, ho, -, -⟩ := Procedure.compile_ok h
  obtain ⟨r, hsig, hvar, -⟩ := Compile.openProcedure_names ho
  obtain ⟨types, -, rfl⟩ :=
    Session.resolves_of_steps (Compile.resolves_signature _ formals result hsig)
  -- the name is bound where the signature was resolved, in the frame of the variable
  have hne : name ≠ own := by
    rintro rfl
    exact hvar cell hbound
  refine ⟨hne, ?_⟩
  rw [hgains.env]
  exact (s.env.innermost_bind_of_ne hne _).trans hbound

theorem name_notMem_of_compileProcedures {procedures : List Procedure} {unit name : String}
    {s t : Session} {u : Unit} {cell : Variable}
    (h : compileProcedures unit procedures s = .ok (u, t))
    (hbound : s.env.innermost.lookup name = some (.var cell)) :
    name ∉ procedures.map Procedure.name := by
  induction procedures generalizing s with
  | nil => exact List.not_mem_nil
  | cons p rest ih =>
    rw [compileProcedures] at h
    obtain ⟨_, r, hp, hrest⟩ := bind_eq_ok.mp h
    obtain ⟨hne, hbound⟩ := p.name_ne_of_compile hp hbound
    rw [List.map_cons, List.mem_cons, not_or]
    exact ⟨hne, ih hrest hbound⟩

theorem Module.var_notMem_procedures {m : Module} {platform : Platform} {p : Program}
    (h : m.compile platform = .ok p) {name : String}
    (hname : name ∈ m.declarations.vars.flatMap (·.1)) :
    name ∉ m.declarations.procedures.map Procedure.name := by
  obtain ⟨a, b, c, d, e, entry, ha, hb, hc, hd, -⟩ := Module.compile_ok h
  obtain ⟨cell, hbound⟩ := (Module.globalsNamed_of_sections ha hb hc).bound name hname
  exact name_notMem_of_compileProcedures hd hbound

/-! ## Globals, string constants and functions -/

/-- The names of the module, its variables and its procedures have no dots, and that of the module
is not empty. -/
structure Module.HasDotlessNames (m : Module) : Prop where
  nonempty : m.name ≠ ""
  name : '.' ∉ m.name.toList
  vars : ∀ name ∈ m.declarations.vars.flatMap (·.1), '.' ∉ name.toList
  procedures : ∀ path ∈ pathsOf m.declarations.procedures, ∀ name ∈ path, '.' ∉ name.toList

section

variable {m : Module} {platform : Platform} {p : Program}

/-- The name of a function is a name without dots, or `LeadsThrough` a procedure of the module. -/
theorem Module.name_of_function (h : m.compile platform = .ok p) {f : Function}
    (hf : f ∈ p.functions) :
    '.' ∉ f.name.toList
      ∨ ∃ q ∈ m.declarations.procedures, LeadsThrough m.name q.name f.name := by
  rcases Module.fits_of_compile h hf with hprimitive | hentry | ⟨sig, hlast, hfits⟩
  · exact .inl (Module.primitives_names f hprimitive).1
  · left
    rw [hentry]
    decide
  · right
    have hsig : sig ∈ m.signatures := List.mem_reverse.mp (List.mem_of_find?_eq_some hlast)
    have hsymbol : f.name ∈ symbolsOf m.name m.declarations.procedures := by
      rw [← Module.symbol_signatures h, hfits.name]
      exact List.mem_map_of_mem hsig
    obtain ⟨q, hq, hsymbol⟩ := exists_of_mem_symbolsOf hsymbol
    exact ⟨q, hq, q.leadsThrough_of_mem_symbols hsymbol⟩

theorem LeadsThrough.exists_eq {unit name symbol : String} (h : LeadsThrough unit name symbol) :
    ∃ rest, symbol = unit ++ "." ++ rest := by
  obtain ⟨rest, hsymbol, -⟩ := h
  refine ⟨String.ofList (name.toList ++ rest), ?_⟩
  apply String.toList_injective
  rw [hsymbol]
  simp

/-- No function of a module with `HasDotlessNames` has the name of a string constant. -/
theorem Module.function_ne_string (h : m.compile platform = .ok p) (hm : m.HasDotlessNames)
    {f : Function} (hf : f ∈ p.functions) (n : Nat) : f.name ≠ ".str." ++ toString n := by
  intro hname
  rcases Module.name_of_function h hf with hplain | ⟨q, -, hthrough⟩
  · rw [hname] at hplain
    exact hplain (by simp)
  · obtain ⟨rest, hrest⟩ := hthrough.exists_eq
    exact global_ne_string hm.nonempty hm.name n (hrest.symm.trans hname)

/-- No function of a module with `HasDotlessNames` has the name of a global. -/
theorem Module.function_ne_global (h : m.compile platform = .ok p) (hm : m.HasDotlessNames)
    {f : Function} (hf : f ∈ p.functions) {name : String}
    (hname : name ∈ m.declarations.vars.flatMap (·.1)) : f.name ≠ m.name ++ "." ++ name := by
  intro hsame
  have hglobal := leadsThrough_self m.name name
  rw [← hsame] at hglobal
  rcases Module.name_of_function h hf with hplain | ⟨q, hq, hthrough⟩
  · exact hplain hglobal.dot_mem
  · -- the function would be that of a procedure with the name of the variable
    have hq' := hm.procedures _ (name_mem_pathsOf hq) q.name List.mem_cons_self
    obtain rfl := hglobal.name_eq hthrough (hm.vars name hname) hq'
    exact Module.var_notMem_procedures h hname (List.mem_map_of_mem hq)

theorem Module.nodup_names (h : m.compile platform = .ok p) (hm : m.HasDotlessNames) :
    (p.globals.map (·.name) ++ p.strings.map (·.name) ++ p.functions.map (·.name)).Nodup := by
  -- functions differ among each other since a new one replaces that of its name
  refine (Module.nodup_symbols h hm.nonempty hm.name).append
    (Module.replaces_of_compile h).nodup ?_
  intro symbol hsymbol hfunction
  obtain ⟨f, hf, rfl⟩ := List.mem_map.mp hfunction
  rcases List.mem_append.mp hsymbol with hglobal | hstring
  · rw [(Module.globals_of_compile h).2] at hglobal
    obtain ⟨name, hname, hsame⟩ := List.mem_map.mp hglobal
    exact Module.function_ne_global h hm hf hname hsame.symm
  · rw [Module.strings_of_compile h] at hstring
    obtain ⟨n, -, hsame⟩ := List.mem_map.mp hstring
    exact Module.function_ne_string h hm hf n hsame.symm

/-- `entryName` and each of `symbolsOf` the procedures are the name of one function. -/
theorem Module.count_function (h : m.compile platform = .ok p) {symbol : String}
    (hsymbol : symbol ∈ entryName :: symbolsOf m.name m.declarations.procedures) :
    (p.functions.map (·.name)).count symbol = 1 := by
  apply List.count_eq_one_of_mem (Module.replaces_of_compile h).nodup
  apply (Module.typed_of_compile h).names
  apply List.mem_append_right
  rw [List.map_cons, Module.symbol_signatures h]
  exact hsymbol

/-! ## Branches -/

/-- A terminator whose text names the blocks to which it leads, each of which `labelOf?` finds by
its name. -/
def Code.Function.NamesTargets (f : Function) : Terminator → Prop
  | .jump target => ∃ b, f.blocks[target]? = some b ∧ f.labelOf? b.name = some target
    ∧ f.terminatorText (.jump target) = "br label %" ++ b.name
  | .branch condition onTrue onFalse => ∃ b c, f.blocks[onTrue]? = some b
    ∧ f.labelOf? b.name = some onTrue ∧ f.blocks[onFalse]? = some c
    ∧ f.labelOf? c.name = some onFalse
    ∧ f.terminatorText (.branch condition onTrue onFalse)
      = "br " ++ condition.typedText ++ ", label %" ++ b.name ++ ", label %" ++ c.name
  | .ret _ => True

theorem Code.Function.namesTargets {f : Function} (hnodup : f.blockNames.Nodup) {t : Terminator}
    (ht : ∀ label ∈ t.successors, label < f.blocks.size) : f.NamesTargets t := by
  have hfound : ∀ label ∈ t.successors, ∃ b, f.blocks[label]? = some b
      ∧ f.labelOf? b.name = some label ∧ f.labelText label = b.name := by
    intro label hlabel
    have hb := Array.getElem?_eq_getElem (ht label hlabel)
    refine ⟨_, hb, labelOf?_eq_some hnodup hb, ?_⟩
    rw [labelText, hb]
    rfl
  cases t with
  | jump target =>
    obtain ⟨b, hb, hlabel, htext⟩ := hfound target (by simp [Terminator.successors])
    exact ⟨b, hb, hlabel, by rw [terminatorText, htext]⟩
  | branch condition onTrue onFalse =>
    obtain ⟨b, hb, hlabel, htext⟩ := hfound onTrue (by simp [Terminator.successors])
    obtain ⟨c, hc, hlabel', htext'⟩ := hfound onFalse (by simp [Terminator.successors])
    exact ⟨b, c, hb, hlabel, hc, hlabel', by rw [terminatorText, htext, htext']⟩
  | ret value => exact trivial

theorem Module.blocks_named (h : m.compile platform = .ok p) {f : Function}
    (hf : f ∈ p.functions) {label : Nat} {b : Block} (hb : f.blocks[label]? = some b) :
    f.labelOf? b.name = some label ∧ ∀ t, b.terminator = some t → f.NamesTargets t := by
  have hnodup : f.blockNames.Nodup := (List.nodup_flatMap.mp (Module.nodup_blockNames h)).1 f hf
  refine ⟨Function.labelOf?_eq_some hnodup hb, ?_⟩
  intro t ht
  have hblock := ((Module.typed_of_compile h).wellFormed f hf).blocks b
    (Array.mem_of_getElem? hb)
  obtain ⟨t', ht', htargets, -⟩ := hblock.terminator
  obtain rfl := Option.some.inj (ht.symm.trans ht')
  exact Function.namesTargets hnodup htargets

end

/-- The names in a program are unambiguous. No two of its globals, string constants and functions
have the same name, also where procedures are nested or declared again. What the machine provides
is found by its name, there is one entry function, and a procedure has one function, which no
procedure of another path has. No two blocks of the program have the same name: a block is found by
its name, and the text of a branch names the blocks to which it leads. -/
theorem Module.names_unambiguous {m : Module} {platform : Platform} {p : Program}
    (h : m.compile platform = .ok p) (hm : m.HasDotlessNames) :
    (p.globals.map (·.name) ++ p.strings.map (·.name) ++ p.functions.map (·.name)).Nodup
      ∧ (∀ f ∈ Module.primitives, p.function? f.name = some f)
      ∧ (p.functions.map (·.name)).count entryName = 1
      ∧ (∀ path ∈ pathsOf m.declarations.procedures,
        (p.functions.map (·.name)).count (symbolAt m.name path) = 1
          ∧ ∀ other ∈ pathsOf m.declarations.procedures,
            symbolAt m.name path = symbolAt m.name other → path = other)
      ∧ (p.functions.flatMap Function.blockNames).Nodup
      ∧ ∀ f ∈ p.functions, ∀ label b, f.blocks[label]? = some b →
        f.labelOf? b.name = some label ∧ ∀ t, b.terminator = some t → f.NamesTargets t := by
  refine ⟨Module.nodup_names h hm, ?_, Module.count_function h List.mem_cons_self, ?_,
    Module.nodup_blockNames h, ?_⟩
  · intro f hf
    exact (Module.typed_of_compile h).function?_primitive (Module.dot_mem_symbol h) hf
  · intro path hpath
    constructor
    · apply Module.count_function h
      rw [symbolsOf_eq]
      exact List.mem_cons_of_mem _ (List.mem_map_of_mem hpath)
    · intro other hother hsame
      exact eq_of_symbolAt_eq (hm.procedures path hpath) (hm.procedures other hother) hsame
  · intro f hf label b hb
    exact Module.blocks_named h hf hb

/-- A module in which many things have the same name: a procedure is nested in one of its own name
and declared again behind it, and variables and a procedure are called as what the machine
provides. -/
def Module.namesakes : Module :=
  let yes : Expr := .literal (.boolean true)
  let inner : Procedure := .mk "P" [] none {} [.whileDo yes [.breakLoop]]
  let first : Procedure := .mk "P" [] none { procedures := [inner] }
    [.call "WRITE" [.literal (.string "P")]]
  let second : Procedure := .mk "P" [] none {} [.ifThen [(yes, [.call "puts" []])] none]
  { name := "main"
    declarations :=
      { vars := [(["main", "printf"], .integer)]
        procedures := [first, .mk "puts" [] none {} [], second] }
    body := some [.call "P" []] }

theorem Module.names_unambiguous_namesakes :
    ∃ p, Module.namesakes.compile .native = .ok p ∧ Module.namesakes.HasDotlessNames
      ∧ p.globals.map (·.name) ++ p.strings.map (·.name) ++ p.functions.map (·.name)
        = ["main.main", "main.printf", ".str.0", ".str.1", "printf", "scanf", "puts", "main.P.P",
          "main.P", "main.puts", "main"]
      ∧ (p.globals.map (·.name) ++ p.strings.map (·.name) ++ p.functions.map (·.name)).Nodup
      ∧ (p.functions.flatMap Function.blockNames).Nodup
      ∧ ∃ f b, p.function? "main.P" = some f ∧ f.blocks[0]? = some b
        ∧ f.labelOf? b.name = some 0 ∧ ∀ t, b.terminator = some t → f.NamesTargets t := by
  have hnames : Module.namesakes.HasDotlessNames :=
    ⟨by decide, by decide, by decide, by decide⟩
  have hok : (Module.namesakes.compile .native).isOk = true := by decide +kernel
  have hfacts : ∀ p ∈ (Module.namesakes.compile .native).toOption,
      p.globals.map (·.name) ++ p.strings.map (·.name) ++ p.functions.map (·.name)
          = ["main.main", "main.printf", ".str.0", ".str.1", "printf", "scanf", "puts", "main.P.P",
            "main.P", "main.puts", "main"]
        ∧ (p.function? "main.P").isSome
        ∧ ∀ f ∈ p.function? "main.P", f.blocks[0]?.isSome := by
    decide +kernel
  obtain ⟨p, hp⟩ := Except.exists_of_isOk hok
  obtain ⟨hall, hfound, hblock⟩ := hfacts p (by rw [hp]; rfl)
  obtain ⟨f, hf⟩ := Option.isSome_iff_exists.mp hfound
  obtain ⟨b, hb⟩ := Option.isSome_iff_exists.mp (hblock f hf)
  obtain ⟨hnodup, -, -, -, hblocks, hlabels⟩ := Module.names_unambiguous hp hnames
  exact ⟨p, hp, hnames, hall, hnodup, hblocks, f, b, hf, hb,
    hlabels f (List.mem_of_find?_eq_some hf) 0 b hb⟩

end Oberon
