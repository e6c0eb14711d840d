import Oberon.Proofs.Bodies

/-!
# Where functions come from

Every function of a program that a module compiles to, but those that the machine provides, is made
of one body of the module: declarations store parameters and reserve cells in the first block, and
the statements of the body add everything else.
-/

namespace Oberon

open Code Relation Emit Emission Outline

/-! ## The head of a body -/

/-- An instruction at the head of a body, which reserves a cell or stores a parameter. -/
def Code.Instr.IsHead : Instr → Prop
  | .alloca .. | .store .. => True
  | _ => False

/-- A body of which there is only the first block, with code that `IsHead` and no statement. -/
structure Emission.IsBegun (s : Emission) : Prop where
  isOpen : s.IsOpen
  blocks : s.draft.blocks = 1
  terminators : s.draft.terminators = []
  head : ∀ b ∈ s.build.blocks, ∀ i ∈ b.instrs, i.IsHead

/-- A step at the head of a body, which reserves cells and stores parameters. -/
inductive Emission.Heads : Emission → Emission → Prop
  | store (s : Emission) (value address : Value) : Heads s (s.pushed (.store value address))
  | cell (s : Emission) (ty : Ty) : Heads s (s.reserved ty)

/-- If all code stands at the head, so it does after a block got more of `IsHead`. -/
theorem Code.Instr.isHead_modify {blocks : Array Block} {label : Nat} {f : Block → Block}
    (h : ∀ b ∈ blocks, ∀ i ∈ b.instrs, i.IsHead)
    (hf : ∀ b, ∀ i ∈ (f b).instrs, i ∈ b.instrs ∨ i.IsHead) :
    ∀ b ∈ blocks.modify label f, ∀ i ∈ b.instrs, i.IsHead := by
  intro b hb i hi
  obtain ⟨l, hl⟩ := Array.getElem?_of_mem hb
  rw [Array.getElem?_modify] at hl
  split at hl
  · obtain ⟨c, hc, rfl⟩ := Option.map_eq_some_iff.mp hl
    exact (hf c i hi).elim (h c (Array.mem_of_getElem? hc) i) id
  · exact h b (Array.mem_of_getElem? hl) i hi

namespace Emission

variable {s t : Emission}

theorem isBegun_empty (stock : Stock) : IsBegun ⟨stock, {}⟩ := by
  refine ⟨⟨rfl, _, rfl, rfl⟩, rfl, rfl, ?_⟩
  have hblocks : (Emission.build ⟨stock, {}⟩).blocks = #[{ name := "" }] := rfl
  rw [hblocks]
  intro b hb i hi
  obtain rfl := Array.mem_singleton.mp hb
  cases hi

/-- Whether a body `IsBegun` does not depend on the stock. -/
theorem IsBegun.of_draft (h : s.IsBegun) (hdraft : t.draft = s.draft) : t.IsBegun := by
  obtain ⟨stock, draft⟩ := t
  obtain rfl : draft = s.draft := hdraft
  exact ⟨⟨h.isOpen.count, h.isOpen.here⟩, h.blocks, h.terminators, h.head⟩

/-- A cell is `reserved` in the first block, and no block ends. -/
theorem IsOpen.reserved (hs : s.IsOpen) (ty : Ty) : (s.reserved ty).IsOpen := by
  have hbuild : (s.reserved ty).build = s.build.apply (.pushEntry (.alloca s.stock.temps ty)) :=
    s.drawn.build_edited _
  obtain ⟨b, hb, hopen⟩ := hs.here
  refine ⟨?_, ?_⟩
  · rw [hbuild]
    show s.draft.blocks = (s.build.blocks.modify 0 _).size
    rw [Array.size_modify]
    exact hs.count
  · rw [hbuild]
    show ∃ b, (s.build.blocks.modify 0 (·.pushCell _))[s.build.cursor]? = some b
      ∧ b.terminator = none
    rw [Array.getElem?_modify, hb]
    split
    · exact ⟨_, rfl, hopen⟩
    · exact ⟨b, rfl, hopen⟩

theorem IsBegun.heads (hs : s.IsBegun) (h : s.Heads t) : t.IsBegun := by
  cases h with
  | store value address =>
    have hextends : s.Extends (s.pushed (.store value address)) := .push s rfl
    obtain ⟨code, hcode⟩ := exists_adds (.single hextends)
    refine ⟨hs.isOpen.adds hcode, hcode.blocks.trans hs.blocks,
      hextends.terminators.trans hs.terminators, ?_⟩
    rw [pushed, build_edited]
    refine Instr.isHead_modify (f := (·.push (.store value address))) hs.head fun b i hi => ?_
    rcases List.mem_append.mp hi with hi | hi
    · exact .inl hi
    · obtain rfl := List.mem_singleton.mp hi
      exact .inr trivial
  | cell ty =>
    refine ⟨hs.isOpen.reserved ty, hs.blocks,
      (s.drawn.terminators_edited_of_none rfl).trans hs.terminators, ?_⟩
    rw [reserved, build_edited]
    refine Instr.isHead_modify (f := (·.pushCell (.alloca s.stock.temps ty))) hs.head
      fun b i hi => ?_
    have hsplit := List.takeWhile_append_dropWhile (p := Instr.isAlloca) (l := b.instrs)
    rcases List.mem_append.mp hi with hi | hi
    · exact .inl (hsplit ▸ List.mem_append_left _ hi)
    · rcases List.mem_cons.mp hi with rfl | hi
      · exact .inr trivial
      · exact .inl (hsplit ▸ List.mem_append_right _ hi)

theorem IsBegun.of_heads (hs : s.IsBegun) (h : ReflTransGen Heads s t) : t.IsBegun := by
  induction h with
  | refl => exact hs
  | tail _ hstep ih => exact ih.heads hstep

end Emission

/-- A step of the declarations of a procedure, its nested procedures apart. -/
inductive Session.Heads : Session → Session → Prop
  | names {s t : Session} (h : s.Names t) : Heads s t
  | emit (s : Session) {e : Emission} (h : ReflTransGen Emission.Heads s.emission e) :
    Heads s (s.withEmission e)

theorem Session.isBegun_of_heads {s t : Session} (h : ReflTransGen Heads s t)
    (hs : s.emission.IsBegun) : t.emission.IsBegun := by
  induction h with
  | refl => exact hs
  | tail _ hstep ih =>
    cases hstep with
    | names hnames =>
      rw [hnames.code.2]
      exact ih
    | emit hsteps => exact ih.of_heads hsteps

namespace Compile

theorem heads_cell (ty : Ty) : Traces Emission.Heads (Emit.cell ty) := by
  intro s v t h
  obtain ⟨_, rfl⟩ := cell_eq_ok.mp h
  exact .single (.cell s ty)

theorem heads_storage (index : Nat) (parameter : Parameter) :
    Traces Emission.Heads (storage index parameter) := by
  refine .ite (.pure _) (.bind (heads_cell _) fun _ => .bind ?_ fun _ => .pure _)
  intro s _ t h
  obtain rfl := Emit.push_eq_ok.mp h
  exact .single (.store s _ _)

theorem heads_emit {α : Type} {x : Emit α} (h : Traces Emission.Heads x) :
    Traces Session.Heads (emit x) := by
  intro s a t hok
  obtain ⟨e, he, rfl⟩ := emit_eq_ok.mp hok
  exact .single (.emit s (h he))

theorem heads_localVariable (name : String) (ty : Ty) :
    Traces Session.Heads (localVariable name ty) :=
  .bind (heads_emit (heads_cell ty)) fun _ => .bind traces_get fun _ => .pure _

theorem heads_bindParameters (index : Nat) (parameters : List Parameter) :
    Traces Session.Heads (bindParameters index parameters) := by
  induction parameters generalizing index with
  | nil => exact .pure _
  | cons parameter rest ih =>
    exact .bind (heads_emit (heads_storage _ _)) fun _ => .bind traces_get fun _ =>
      .bind (traces_declare .names _ nofun) fun _ => ih _

/-- `openProcedure` leaves a body that has only its first block. -/
theorem openProcedure_isBegun {name symbol entry : String} {formals : List FormalSection}
    {result : Option TypeExpr} {constantSection : List (String × Expr)}
    {typeSection : List (String × TypeExpr)} {varSection : List (List String × TypeExpr)}
    {sig : Signature} {outer : Draft} {s t : Session}
    (h : openProcedure name symbol formals result constantSection typeSection varSection s
      = .ok ((sig, entry, outer), t)) : t.emission.IsBegun := by
  obtain ⟨r, a, b, c, -, -, hp, hcs, hts, hvs⟩ := openProcedure_ok h
  have hsteps := (heads_bindParameters _ _ hp).trans <|
    (traces_constants .names _ hcs).trans <| (traces_types .names _ hts).trans <|
      traces_vars .names heads_localVariable _ hvs
  exact Session.isBegun_of_heads hsteps (isBegun_empty _)

end Compile

/-! ## Bodies of a module -/

mutual

/-- The bodies of a procedure and of those inside of it, with the names of the functions that they
become. -/
def Procedure.bodies (unit : String) : Procedure → List (String × List Statement)
  | .mk name _ _ ⟨_, _, _, procedures⟩ body =>
    bodiesOf (unit ++ "." ++ name) procedures ++ [(unit ++ "." ++ name, body)]

/-- The `Procedure.bodies` of the procedures of a unit. -/
def bodiesOf (unit : String) : List Procedure → List (String × List Statement)
  | [] => []
  | p :: rest => p.bodies unit ++ bodiesOf unit rest

end

/-- The bodies of a module, `bodiesOf` its procedures and its own. -/
def Module.bodies (m : Module) : List (String × List Statement) :=
  bodiesOf m.name m.declarations.procedures ++ [(entryName, m.body.getD [])]

/-- A function that is made of a body: its statements are emitted where a body `IsBegun`, and what
is left open returns. -/
def Code.Function.IsMadeOf (f : Function) (body : List Statement) : Prop :=
  ∃ (scene : Scene) (s t : Emission) (parameters : List Ty) (result : Ty) (label : Nat)
    (origin : Option String), s.IsBegun
    ∧ emitStatements scene none body s = .ok ((), t)
    ∧ f = t.draft.function
      (.start f.name parameters result ("entry" ++ "." ++ toString label) origin)

theorem Draft.name_function (d : Draft) (start : Builder) : (d.function start).name = start.name :=
  (start.header_run d.script).1

/-- What `Compile.statements` emits into a body that `IsBegun` becomes a function made of these
statements. -/
theorem Code.Function.isMadeOf_of_statements {s t : Session} {result : Ty} {body : List Statement}
    (h : Compile.statements result body s = .ok ((), t)) (hs : s.emission.IsBegun) (name : String)
    (parameters : List Ty) (label : Nat) (origin : Option String) :
    (t.draft.function (.start name parameters result ("entry" ++ "." ++ toString label)
      origin)).IsMadeOf body := by
  obtain ⟨e, he, rfl⟩ := Compile.statements_ok h
  refine ⟨_, _, e, parameters, result, label, origin, hs, he, ?_⟩
  rw [Draft.name_function]
  rfl

/-- Each function that compiling a unit adds `IsMadeOf` one of its bodies. -/
def Session.AddsBodies (s t : Session) (bodies : List (String × List Statement)) : Prop :=
  ∀ f ∈ t.functions, f ∈ s.functions ∨ ∃ body, (f.name, body) ∈ bodies ∧ f.IsMadeOf body

theorem bodiesOf_added {procedures : List Procedure}
    (hall : ∀ p ∈ procedures, ∀ {unit s t u}, p.compile unit s = .ok (u, t) →
      s.AddsBodies t (p.bodies unit)) {unit : String} {s t : Session} {u : Unit}
    (h : compileProcedures unit procedures s = .ok (u, t)) :
    s.AddsBodies t (bodiesOf unit procedures) := by
  induction procedures generalizing s with
  | nil =>
    rw [compileProcedures] at h
    obtain ⟨_, rfl⟩ := pure_eq_ok.mp h
    exact fun f hf => .inl hf
  | cons p rest ih =>
    rw [compileProcedures] at h
    obtain ⟨_, r, hp, hrest⟩ := bind_eq_ok.mp h
    intro f hf
    rcases ih (fun p hp => hall p (List.mem_cons_of_mem _ hp)) hrest f hf
      with hf | ⟨body, hmem, hmade⟩
    · rcases hall p List.mem_cons_self hp f hf with hf | ⟨body, hmem, hmade⟩
      · exact .inl hf
      · exact .inr ⟨body, List.mem_append_left _ hmem, hmade⟩
    · exact .inr ⟨body, List.mem_append_right _ hmem, hmade⟩

theorem Procedure.bodies_added {p : Procedure} {unit : String} {s t : Session} {u : Unit}
    (h : p.compile unit s = .ok (u, t)) : s.AddsBodies t (p.bodies unit) := by
  induction p using Procedure.induction generalizing unit s t u with
  | mk name formals result declarations body ih =>
    obtain ⟨constants, types, vars, procedures⟩ := declarations
    obtain ⟨sig, entry, outer, a, b, ho, hn, hc⟩ := Procedure.compile_ok h
    obtain ⟨c, hbody, rfl⟩ := Compile.closeProcedure_ok hc
    obtain ⟨r, hsig, -, rfl⟩ := Compile.openProcedure_names ho
    have hbegun : b.emission.IsBegun :=
      (Compile.openProcedure_isBegun ho).of_draft (compileProcedures_keeps hn).2
    have hsymbol : sig.symbol = unit ++ "." ++ name := Compile.signature_symbol hsig
    intro f hf
    rw [Procedure.bodies]
    rcases Program.mem_insertFunction hf with rfl | hf
    · -- the body of the procedure itself
      right
      refine ⟨body, ?_, Function.isMadeOf_of_statements hbody hbegun _ _ _ _⟩
      rw [Draft.name_function, ← hsymbol]
      exact List.mem_append_right _ (List.mem_singleton_self _)
    · -- one of those that were there, or of a procedure inside
      have hkept : c.functions = b.functions :=
        Session.functions_of_declares (Compile.traces_statements _ _ hbody)
      have hf : f ∈ b.functions := hkept ▸ hf
      rcases bodiesOf_added (fun p hp {_ _ _ _} => ih p hp) hn f hf with hf | ⟨body', hmem, hmade⟩
      · rw [Compile.openProcedure_functions ho] at hf
        exact .inl hf
      · exact .inr ⟨body', List.mem_append_left _ hmem, hmade⟩

/-- Every function of a program is provided by the machine, or `IsMadeOf` a body of the module. -/
theorem Module.isMadeOf_of_compile {m : Module} {platform : Platform} {p : Program}
    (h : m.compile platform = .ok p) {f : Function} (hf : f ∈ p.functions) :
    f.body = .external ∨ ∃ body, (f.name, body) ∈ m.bodies ∧ f.IsMadeOf body := by
  obtain ⟨a, b, c, d, e, ha, hb, hc, hd, he, rfl⟩ := Module.compile_parts h
  have hkept : e.functions = d.started.functions :=
    Session.functions_of_declares (Compile.traces_statements _ _ he)
  rcases Program.mem_insertFunction hf with rfl | hf
  · right
    refine ⟨m.body.getD [], ?_, Function.isMadeOf_of_statements he (isBegun_empty _) _ _ _ _⟩
    rw [Session.entryFunction, Draft.name_function]
    exact List.mem_append_right _ (List.mem_singleton_self _)
  · have hf : f ∈ d.functions := hkept ▸ hf
    rcases bodiesOf_added (fun p _ {_ _ _ _} => p.bodies_added) hd f hf
      with hf | ⟨body, hmem, hmade⟩
    · left
      rw [(Session.code_of_collects (Module.collects_of_sections ha hb hc)).1] at hf
      have hprovided : ∀ f ∈ Module.primitives, f.body = .external := by decide
      exact hprovided f hf
    · exact .inr ⟨body, List.mem_append_left _ hmem, hmade⟩

end Oberon
