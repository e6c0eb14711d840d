import Oberon.Proofs.ModuleScope
import Oberon.Proofs.Simulation
import Oberon.Proofs.Soundness

/-!
# Correct code

A module of plain names without procedures is compiled to a program that does what the module
means, on all inputs: a run that may take enough steps ends as the semantics says, with the same
status, output or fault, and if the module does not come to an end, no number of steps is enough.

What is left for this is how a program starts: memory shows that all variables are zero, and the
machine is at the first block of the body.
-/

namespace Oberon

open Code Machine Emit Relation

/-! ## Runs -/

/-- `Image.run`, if it may take enough steps, ends like its last state. -/
theorem Machine.Image.run_eq_of_moves {image : Image} {M N : State} {r : Except Fault Execution}
    (h : ReflTransGen image.Moves M N)
    (hN : ∀ budget fuel, image.run budget (fuel + 1) N = r) :
    ∃ k, ∀ budget fuel, k ≤ fuel → image.run budget fuel M = r := by
  obtain ⟨n, hn⟩ := Image.run_of_moves h
  refine ⟨n + 1, fun budget fuel hfuel => ?_⟩
  obtain ⟨more, rfl⟩ : ∃ more, fuel = n + (more + 1) := ⟨fuel - n - 1, by omega⟩
  rw [hn]
  exact hN budget more

/-! ## Variables at the start -/

/-- A type whose integers are INTEGERs and truth values. -/
def Code.Ty.IsData : Ty → Prop
  | .array _ element => element.IsData
  | .int bits => bits = 64 ∨ bits = 1
  | _ => True

theorem Code.Ty.IsData.foldr {element : Ty} (h : element.IsData) (length : Expr → Nat)
    (dimensions : List Expr) :
    (dimensions.foldr (fun e inner => Ty.array (length e) inner) element).IsData := by
  induction dimensions with
  | nil => exact h
  | cons e rest ih => exact ih

/-- Bytes that are zero show `Datum.zero` of their type. -/
theorem Datum.zero_shows {ty found : Ty} {path : List Nat} (hty : ty.IsData)
    (hpath : ty.HasPath path found) (hscalar : found.IsScalar) (image : Image) :
    (Datum.zero ty).ty = found ∧ (Scalar.ofWord found 0).Shows image (Datum.zero ty) := by
  induction ty generalizing path with
  | array length element ih =>
    cases path with
    | nil =>
      obtain rfl := Ty.hasPath_nil.mp hpath
      exact hscalar.elim
    | cons i rest => exact ih hty hpath.2
  | int bits =>
    cases path with
    | nil =>
      obtain rfl := Ty.hasPath_nil.mp hpath
      rcases hty with rfl | rfl
      · exact ⟨rfl, rfl⟩
      · exact ⟨rfl, rfl⟩
    | cons i rest => exact hpath.elim
  | real =>
    cases path with
    | nil =>
      obtain rfl := Ty.hasPath_nil.mp hpath
      exact ⟨rfl, rfl⟩
    | cons i rest => exact hpath.elim
  | ptr =>
    cases path with
    | nil =>
      obtain rfl := Ty.hasPath_nil.mp hpath
      exact ⟨rfl, rfl⟩
    | cons i rest => exact hpath.elim
  | void =>
    cases path with
    | nil =>
      obtain rfl := Ty.hasPath_nil.mp hpath
      exact hscalar.elim
    | cons i rest => exact hpath.elim

theorem Machine.Memory.readWord_eq_zero {m : Memory} {address count : Nat}
    (h : ∀ i, address ≤ i → m.get i = 0) : m.readWord address count = 0 := by
  induction count generalizing address with
  | zero => rfl
  | succ count ih =>
    rw [readWord, h address le_rfl, ih fun i hi => h i (by omega)]
    rfl

theorem Machine.Memory.shows_zero {m : Memory} {address : Nat} {ty : Ty} (hty : ty.IsData)
    (h : ∀ i, address ≤ i → m.get i = 0) (image : Image) :
    m.Shows image address ty fun _ => .zero ty := by
  intro path found hpath hscalar
  rw [readWord_eq_zero fun i hi => h i (by omega)]
  exact Datum.zero_shows hty hpath hscalar image

theorem TypeExpr.isData_meaning {length : Expr → Nat} {named : String → Option Ty}
    (hnamed : ∀ {name ty}, named name = some ty → ty.IsData) {type : TypeExpr} {ty : Ty}
    (h : type.meaning length named = some ty) : ty.IsData := by
  induction type generalizing ty with
  | integer =>
    obtain rfl := Option.some.inj h
    exact .inl rfl
  | real =>
    obtain rfl := Option.some.inj h
    trivial
  | boolean =>
    obtain rfl := Option.some.inj h
    exact .inr rfl
  | string =>
    obtain rfl := Option.some.inj h
    trivial
  | named name => exact hnamed h
  | array dimensions element ih =>
    obtain ⟨inner, helement, rfl⟩ := Option.map_eq_some_iff.mp h
    exact (ih helement).foldr length dimensions

theorem isData_typeNamed {length : Expr → Nat} {types : List (String × TypeExpr)} {n : Nat}
    {name : String} {ty : Ty} (h : typeNamed length types n name = some ty) : ty.IsData := by
  induction n generalizing name ty with
  | zero => exact nomatch h
  | succ n ih =>
    obtain ⟨type, -, htype⟩ := Option.bind_eq_some_iff.mp h
    exact TypeExpr.isData_meaning ih htype

/-- The types of `varTypes` are types of data. -/
theorem Module.isData_varTypes {m : Module} {name : String} {ty : Ty}
    (h : m.varTypes.lookup name = some ty) : ty.IsData := by
  obtain ⟨⟨names, type⟩, -, hmem⟩ := List.mem_flatMap.mp (mem_of_lookup h)
  obtain ⟨_, -, heq⟩ := List.mem_map.mp hmem
  obtain rfl := (Prod.mk.inj heq).2
  rw [Module.typeOf]
  generalize hmeaning : type.meaning _ _ = found
  cases found with
  | none => trivial
  | some ty => exact TypeExpr.isData_meaning isData_typeNamed hmeaning

/-- Where globals are that are named by the variables of a module, `varTypes`. -/
def Module.layout (m : Module) {image : Image} {objects : List Object}
    (h : image.Places objects m.globals) : Layout where
  object name := (m.varTypes.lookup name).bind fun ty =>
    (image.symbols.lookup (m.name ++ "." ++ name)).map fun address => ⟨address, ty⟩
  apart := by
    intro x y o q ho hq hne
    obtain ⟨ty, hty, ho⟩ := Option.bind_eq_some_iff.mp ho
    obtain ⟨a, ha, rfl⟩ := Option.map_eq_some_iff.mp ho
    obtain ⟨ty', hty', hq⟩ := Option.bind_eq_some_iff.mp hq
    obtain ⟨a', ha', rfl⟩ := Option.map_eq_some_iff.mp hq
    refine h.apart _ (m.mem_globals hty) _ (m.mem_globals hty') ?_ ha ha'
    intro heq
    exact hne ((String.append_right_inj _).mp (Global.mk.inj heq).1)

theorem Module.object_layout {m : Module} {image : Image} {objects : List Object}
    (h : image.Places objects m.globals) {name : String} {o : Object} :
    (m.layout h).object name = some o ↔ m.varTypes.lookup name = some o.ty ∧ o ∈ objects
      ∧ image.symbols.lookup (m.name ++ "." ++ name) = some o.address := by
  refine ⟨fun ho => ?_, fun ⟨hty, _, hlookup⟩ => ?_⟩
  · obtain ⟨ty, hty, ho⟩ := Option.bind_eq_some_iff.mp ho
    obtain ⟨address, hlookup, rfl⟩ := Option.map_eq_some_iff.mp ho
    obtain ⟨address', hlookup', hobject⟩ := h.found _ (m.mem_globals hty)
    obtain rfl := Option.some.inj (hlookup.symm.trans hlookup')
    exact ⟨hty, hobject, hlookup⟩
  · exact Option.bind_eq_some_iff.mpr ⟨_, hty, Option.map_eq_some_iff.mpr ⟨_, hlookup, rfl⟩⟩

/-- Memory that is zero `Holds` the variables as they are in `Module.initial`. -/
theorem Module.holds_initial {m : Module} {image : Image} {objects : List Object} {floor : Nat}
    {memory : Memory} (h : image.Places objects m.globals)
    (hmemory : memory.Typed image floor objects) (hzero : ∀ i, floor ≤ i → memory.get i = 0)
    (input : String) : (m.layout h).Holds image memory (m.initial input).store := by
  intro name o ho
  obtain ⟨hty, hobject, -⟩ := (object_layout h).mp ho
  have hfloor : floor ≤ o.address := (hmemory.bounds o hobject).1
  have hinitial : (m.initial input).store name = fun _ => .zero o.ty := by
    simp only [initial, hty, Option.getD_some]
  rw [hinitial]
  exact Memory.shows_zero (isData_varTypes hty) (fun i hi => hzero i (by omega)) image

/-! ## The body of a module -/

/-- The blocks of the function at which a program starts, `entryName`. Open blocks return zero. -/
def Emission.finished (s : Emission) (entry : String) : Array Block :=
  (((Builder.start entryName [] .status entry none).run s.draft.script).closeAll
    (.ret (some (.int 0 32)))).blocks

namespace Emission

variable {s : Emission} {l : Nat} {b : Block}

theorem exists_finished (h : s.build.blocks[l]? = some b) (entry : String) :
    ∃ c, (s.finished entry)[l]? = some c ∧ c.instrs = b.instrs
      ∧ c.terminator = b.terminator.or (some (.ret (some (.int 0 32)))) := by
  have hcontent := congrArg (·[l]?) (s.draft.content_run entryName entry [] .status none)
  have h : s.draft.build.blocks[l]? = some b := h
  simp only [Array.getElem?_map, h, Option.map_some] at hcontent
  obtain ⟨d, hd, hdb⟩ := Option.map_eq_some_iff.mp hcontent
  obtain ⟨hinstrs, hterm⟩ := Prod.mk.inj hdb
  refine ⟨d.terminate (.ret (some (.int 0 32))), ?_, hinstrs, ?_⟩
  · simp only [finished, Builder.closeAll, Array.getElem?_map, hd, Option.map_some]
  · simp only [Block.terminate, hterm]

theorem precede_finished (s : Emission) (entry : String) :
    Precede s.build.blocks (s.finished entry) := by
  intro l b hb
  obtain ⟨c, hc, hinstrs, hterm⟩ := exists_finished hb entry
  refine ⟨c, hc, hinstrs ▸ List.prefix_rfl, fun t ht => ⟨hinstrs, ?_⟩⟩
  rw [hterm, ht]
  rfl

/-- Where a body that `IsOpen` ends, zero is returned. -/
theorem IsOpen.ends_finished (h : s.IsOpen) (entry : String) :
    s.Ends (s.finished entry) (.ret (some (.int 0 32))) := by
  obtain ⟨b, hb, hunended⟩ := h.here
  obtain ⟨c, hc, hinstrs, hterm⟩ := exists_finished hb entry
  refine ⟨b, c, hb, hc, hinstrs, ?_⟩
  rw [hterm, hunended]
  rfl

end Emission

theorem Code.Program.find?_insertFunction (f : Function) (functions : List Function) :
    (insertFunction f functions).find? (·.name == f.name) = some f := by
  induction functions with
  | nil => simp [insertFunction]
  | cons g rest ih =>
    rw [insertFunction]
    split
    · simp
    · rename_i hne
      simpa [hne] using ih

/-- The program starts at the function of the body, `entryFunction`. -/
theorem Session.find?_entryFunction (s : Session) (entry : String) (functions : List Function) :
    (Program.insertFunction (s.entryFunction entry) functions).find? (·.name == entryName)
      = some (s.entryFunction entry) := by
  have hname : (s.entryFunction entry).name = entryName := (Builder.header_run _ _).1
  rw [← hname]
  exact Program.find?_insertFunction _ functions

/-- A body that has just `started`, in which nothing has been emitted, is open and blank. -/
theorem Session.started_isOpen (s : Session) :
    s.started.emission.IsOpen ∧ s.started.emission.build.cursor = 0
      ∧ s.started.emission.IsBlank 0 :=
  ⟨⟨rfl, _, rfl, rfl⟩, rfl, _, rfl, rfl, rfl⟩

/-- A compiled module follows its meaning, in some `Setting`, from where the program starts. Where
its body ends, it returns zero. -/
theorem Module.exists_setting {m : Module} {platform : Platform} {p : Program}
    (h : m.compile platform = .ok p) (hm : m.HasPlainNames)
    (hnone : m.declarations.procedures = []) (hp : p.IsAddressable) {image : Image}
    {memory : Memory} (hload : load p = .ok (image, memory)) (input : String) :
    ∃ (W : Setting) (Γ : Moment) (M : State), W.image = image ∧ W.call.callers = []
      ∧ start p { memory, input := Text.words input } = .ok (.running M)
      ∧ ∀ n, W.Follows n none Γ M (execStatements m.scope n (m.body.getD []) (m.initial input))
        fun Δ N => ∃ block, N = W.call.state Δ block []
          ∧ block.terminator = some (.ret (some (.int 0 32))) := by
  have hlinked := Module.linked_of_compile h hm
  obtain ⟨floor, objects, himage, hlinkage, hmemory, hplaces, hzero⟩ := hlinked.load_typed hp hload
  obtain ⟨a, b, c, d, e, entry, ha, hb, hc, hd, he, hprogram⟩ := Module.compile_ok h
  rw [hnone] at hd
  obtain ⟨-, rfl⟩ := pure_eq_ok.mp hd
  obtain ⟨s, hemit, rfl⟩ := Compile.statements_ok he
  obtain ⟨henv, hadopts⟩ := Module.adopts_varTypes ha hb hc
  -- the variables are globals, and the body is the function that is called
  have hglobals : p.globals = m.globals := by
    rw [hprogram]
    show d.globals = m.globals
    exact globals_of_adopts hadopts ha hb
  rw [hglobals] at hplaces
  have hfunction : p.function? entryName
      = some ((d.started.withEmission s).entryFunction entry) := by
    rw [hprogram]
    exact Session.find?_entryFunction _ entry _
  let W : Setting :=
    { image, floor, objects
      call := ⟨((d.started.withEmission s).entryFunction entry).name, s.finished entry, [],
        memory.size, none, []⟩
      env := d.env
      layout := m.layout hplaces
      plain := isPlain_env henv hadopts
      primitive := hlinkage.primitive
      cell := by
        intro name cell hcell
        obtain ⟨ty, hty, rfl⟩ := (findVariable_eq_ok henv hadopts).mp hcell
        obtain ⟨address, hlookup, hobject⟩ := hplaces.found _ (m.mem_globals hty)
        exact ⟨⟨address, ty⟩, _, (object_layout hplaces).mpr ⟨hty, hobject, hlookup⟩, hobject, rfl,
          rfl, hlookup⟩ }
  let Γ : Moment := ⟨{ memory, input := Text.words input }, ∅, d.started.stock.temps⟩
  have hagrees : W.Agrees (m.initial input) Γ :=
    ⟨hmemory, holds_initial hplaces hmemory hzero input, rfl, rfl⟩
  obtain ⟨hopen, hcursor, hblank⟩ := d.started_isOpen
  have hweaves := isWoven_emitStatements _ none _ hemit hopen
  have hfinished : Precede s.build.blocks W.call.blocks := s.precede_finished entry
  obtain ⟨first, hfirst⟩ : W.HasBlock 0 :=
    Setting.hasBlock_of_isBlank hblank (hweaves.works.precede.trans hfinished)
  refine ⟨W, Γ, W.call.state Γ first first.instrs, rfl, rfl, ?_, fun n => ?_⟩
  · have hbody : ((d.started.withEmission s).entryFunction entry).body
        = .blocks (s.finished entry) := rfl
    have hfirst : (s.finished entry)[0]? = some first := hfirst
    simp only [start, hfunction, hbody, Frame.enter, hfirst]
    rfl
  · have hat : W.IsAt d.started.emission Γ (W.call.state Γ first first.instrs) :=
      Setting.Starts.isAt ⟨first, hfirst, rfl⟩ hcursor hblank
    have hstrings : s.stock.strings ⊆ W.image.program.strings := by
      show s.stock.strings ⊆ image.program.strings
      rw [himage, hprogram]
      exact List.Subset.refl _
    have hfollows := Setting.simulates_emitStatements (W := W) (n := n) rfl (m.body.getD []) hemit
      hopen hfinished hstrings hagrees rfl hat
    rw [show W.env.scope = m.scope from scope_eq henv hadopts] at hfollows
    refine hfollows.imp fun {Δ N} _ hend => ⟨N, .refl, ?_⟩
    obtain ⟨block, rest, hat, rfl⟩ := hend
    obtain ⟨rfl, hterm⟩ := hat.ends (hweaves.isOpen.ends_finished entry)
    exact ⟨block, rfl, hterm⟩

/-! ## Programs -/

namespace Module

variable {m : Module} {platform : Platform} {p : Program} {input : String}

/-- What `Module.evaluate` says is what a run of the program does, if it may take enough steps; and
as long as it says nothing, the run goes on. -/
theorem run_of_evaluate (h : m.compile platform = .ok p) (hm : m.HasPlainNames)
    (hnone : m.declarations.procedures = []) (hp : p.IsAddressable) (hload : (load p).isOk)
    (input : String) (n : Nat) :
    match m.evaluate input n with
    | some r => ∃ k, ∀ fuel, k ≤ fuel → run p input fuel = r
    | none => run p input n = .error (.outOfFuel n) := by
  cases hloaded : load p with
  | error e =>
    rw [hloaded] at hload
    cases hload
  | ok loaded =>
    obtain ⟨image, memory⟩ := loaded
    obtain ⟨W, Γ, M, rfl, hcallers, hstart, hfollows⟩ :=
      exists_setting h hm hnone hp hloaded input
    have hrun := run_of_start hloaded hstart
    -- a state whose step ends the run
    have hends {N : State} {r : Except Fault Execution} (hmoves : ReflTransGen W.image.Moves M N)
        (hN : ∀ budget fuel, W.image.run budget (fuel + 1) N = r) :
        ∃ k, ∀ fuel, k ≤ fuel → run p input fuel = r := by
      obtain ⟨k, hk⟩ := Image.run_eq_of_moves hmoves hN
      exact ⟨k, fun fuel hfuel => (hrun fuel).trans (hk fuel fuel hfuel)⟩
    specialize hfollows n
    unfold evaluate
    cases ho : execStatements m.scope n (m.body.getD []) (m.initial input) with
    | done σ =>
      rw [ho] at hfollows
      obtain ⟨Δ, N, hmoves, -, hagrees, block, rfl, hterm⟩ := hfollows
      obtain ⟨result, world, hstep, hresult⟩ :=
        hagrees.halts hcallers hterm (.constant 0 32)
      refine hends hmoves fun budget fuel => ?_
      rw [Image.run, hstep]
      exact congrArg Except.ok hresult
    | returned status σ =>
      rw [ho] at hfollows
      obtain ⟨N, result, world, hmoves, hstep, hresult⟩ := hfollows
      refine hends hmoves fun budget fuel => ?_
      rw [Image.run, hstep]
      exact congrArg Except.ok hresult
    | failed e =>
      rw [ho] at hfollows
      obtain ⟨N, hmoves, hstep⟩ := hfollows
      refine hends hmoves fun budget fuel => ?_
      rw [Image.run, hstep]
    | broke σ =>
      rw [ho] at hfollows
      obtain ⟨_, _, _, hloop, -⟩ := hfollows
      cases hloop
    | continued σ =>
      rw [ho] at hfollows
      obtain ⟨_, _, _, hloop, -⟩ := hfollows
      cases hloop
    | pending =>
      rw [ho] at hfollows
      exact (hrun n).trans (Image.Lasts.run_eq hfollows n)

/-- A module of plain names without procedures is compiled to a program that does what the module
means. On every input, the runs that may take enough steps have one result just when the
semantics has it, and if the semantics has none, every run takes all the steps that it may. -/
theorem run_iff_evaluate (h : m.compile platform = .ok p) (hm : m.HasPlainNames)
    (hnone : m.declarations.procedures = []) (hp : p.IsAddressable) (hload : (load p).isOk)
    (input : String) :
    (∀ r, (∃ k, ∀ fuel, k ≤ fuel → run p input fuel = r) ↔ ∃ n, m.evaluate input n = some r)
      ∧ ((∀ n, m.evaluate input n = none) →
        ∀ fuel, run p input fuel = .error (.outOfFuel fuel)) := by
  have hrun (n : Nat) := run_of_evaluate h hm hnone hp hload input n
  have hdiverges (hall : ∀ n, m.evaluate input n = none) (fuel : Nat) :
      run p input fuel = .error (.outOfFuel fuel) := by
    have hfuel := hrun fuel
    rwa [hall fuel] at hfuel
  refine ⟨fun r => ⟨fun ⟨k, hk⟩ => ?_, fun ⟨n, hn⟩ => ?_⟩, hdiverges⟩
  · by_cases hall : ∀ n, m.evaluate input n = none
    · -- then two runs would run out of different numbers of steps
      have hless := (hdiverges hall k).symm.trans (hk k le_rfl)
      have hmore := (hdiverges hall (k + 1)).symm.trans (hk (k + 1) (by omega))
      have heq := Fault.outOfFuel.inj (Except.error.inj (hless.trans hmore.symm))
      omega
    · push Not at hall
      obtain ⟨n, hn⟩ := hall
      obtain ⟨r', hr'⟩ := Option.ne_none_iff_exists'.mp hn
      have hfound := hrun n
      rw [hr'] at hfound
      obtain ⟨k', hk'⟩ := hfound
      have hless := hk (max k k') (le_max_left _ _)
      have hmore := hk' (max k k') (le_max_right _ _)
      exact ⟨n, hr'.trans (congrArg some (hmore.symm.trans hless))⟩
  · have hfound := hrun n
    rwa [hn] at hfound

/-- A module with arrays of several lengths: a row of `2 * n - 1` elements and a table of two rows
of four. It scales the row by a number that it reads, copies it, and then writes some of it in a
loop that goes on and ends from inside. The last element of the row, the fifth, is put into the
last place of the table. -/
def scaling : Module :=
  let number (v : Int64) : Expr := .literal (.integer v)
  let i : Expr := .designator "i" []
  let size : Expr := .binary (.binary (number 2) .mul (.designator "n" [])) .sub (number 1)
  { name := "M"
    declarations :=
      { constants := [("n", number 3), ("m", size)]
        types := [("Table", .array [number 2] (.named "Four")),
          ("Four", .array [.binary (.designator "m" []) .sub (number 1)] .integer),
          ("Row", .array [.designator "m" []] .integer)]
        vars := [(["a", "b"], .named "Row"), (["t"], .named "Table"), (["i", "s"], .integer)] }
    body := some [.call "READ" [.designator "s" []],
      .forDo "i" (number 4) (number 0) .down
        [.assign ⟨"a", [[i]]⟩ (.binary i .mul (.designator "s" []))],
      .assign ⟨"b", []⟩ (.designator "a" []),
      .whileDo (.relation i .less (number 9))
        [.assign ⟨"i", []⟩ (.binary i .add (number 1)),
          .ifThen [(.relation i .equal (number 0), [.continueLoop]),
            (.relation i .equal (number 4), [.breakLoop])] none,
          .caseOf i [([.integer 1, .integer 2], [.call "WRITE" [.designator "b" [[i]]]])]
            (some [.call "WRITELN" []])],
      .assign ⟨"t", [[number 1, number 3]]⟩ (.designator "b" [[number 4]]),
      .returnWith (some (.designator "t" [[number 1], [number 3]]))] }

theorem run_iff_evaluate_scaling :
    ∃ p, scaling.compile .native = .ok p ∧ scaling.HasPlainNames ∧ p.IsAddressable
      ∧ (load p).isOk ∧ scaling.evaluate " 21 " 6 = some (.ok ⟨84, "2142\n"⟩)
      ∧ ∃ k, ∀ fuel, k ≤ fuel → run p " 21 " fuel = .ok ⟨84, "2142\n"⟩ := by
  have hnames : scaling.HasPlainNames := ⟨by decide, by decide, trivial⟩
  have hok : (scaling.compile .native).isOk = true := by decide +kernel
  have hfacts : ∀ p ∈ (scaling.compile .native).toOption,
      nullPage + textSize p.strings ≤ 2 ^ 64 ∧ (load p).isOk := by
    decide +kernel
  have hmeans : scaling.evaluate " 21 " 6 = some (.ok ⟨84, "2142\n"⟩) := by decide +kernel
  obtain ⟨p, hp⟩ := Except.exists_of_isOk hok
  obtain ⟨hsize, hload⟩ := hfacts p (by rw [hp]; rfl)
  exact ⟨p, hp, hnames, hsize, hload, hmeans,
    ((run_iff_evaluate hp hnames rfl hsize hload " 21 ").1 _).mpr ⟨6, hmeans⟩⟩

end Module

end Oberon
