import Oberon.Proofs.Loading

/-!
# Sound runs

A module of plain names that compiles becomes a program whose runs do nothing that has no
meaning: whatever the input and however many steps a run may take, every operand has a value of
its type, every call finds its function with the right arguments, and all memory that is used is
valid. The one address that a run can fault at is that of a STRING that is null, when it is
printed.
-/

namespace Oberon

open Code Machine Relation

/-- A state that a run of a program on an input comes to, by `load`, `start` and steps of
`Image.Moves`. -/
def Machine.Reaches (p : Program) (input : String) (image : Image) (t : State) : Prop :=
  ∃ m s, load p = .ok (image, m)
    ∧ start p { memory := m, input := Text.words input } = .ok (.running s)
    ∧ ReflTransGen image.Moves s t

/-- `run` of a program that can be loaded and started is `Image.run` from where it starts. -/
theorem Machine.run_of_start {p : Program} {input : String} {image : Image} {m : Memory}
    {s : State} (hload : load p = .ok (image, m))
    (hstart : start p { memory := m, input := Text.words input } = .ok (.running s))
    (fuel : Nat) : run p input fuel = image.run fuel fuel s := by
  simp only [run, hload]
  show (start p { memory := m, input := Text.words input } >>= _) = _
  rw [hstart]
  rfl

/-- `run` fails as `load` does. -/
theorem Machine.run_of_load_error {p : Program} {e : Fault} (hload : load p = .error e)
    (input : String) (fuel : Nat) : run p input fuel = .error e := by
  rw [run, hload]
  rfl

/-- `run` fails as `start` does. -/
theorem Machine.run_of_start_error {p : Program} {input : String} {image : Image} {m : Memory}
    {e : Fault} (hload : load p = .ok (image, m))
    (hstart : start p { memory := m, input := Text.words input } = .error e) (fuel : Nat) :
    run p input fuel = .error e := by
  simp only [run, hload]
  show (start p { memory := m, input := Text.words input } >>= _) = _
  rw [hstart]
  rfl

/-- `run` of a program that has `halted` at its start is at its end. -/
theorem Machine.run_of_halted {p : Program} {input : String} {image : Image} {m : Memory}
    {result : Option Scalar} {world : World} (hload : load p = .ok (image, m))
    (hstart : start p { memory := m, input := Text.words input } = .ok (.halted result world))
    (fuel : Nat) : run p input fuel = .ok (.ofResult result world) := by
  simp only [run, hload]
  show (start p { memory := m, input := Text.words input } >>= _) = _
  rw [hstart]
  rfl

namespace Code.Program.Linked

variable {signatures : List Signature} {p : Program}

/-- Every state that a run `Reaches` is typed. -/
theorem typed_of_reaches (h : p.Linked signatures) (hp : p.IsAddressable) {input : String}
    {image : Image} {t : State} (ht : Reaches p input image t) :
    ∃ floor objects Γ H, t.Typed image (p.linkage signatures) floor objects Γ H := by
  obtain ⟨m, s, hload, hstart, hmoves⟩ := ht
  obtain ⟨floor, objects, -, hlinked, hm, hplaces, -⟩ := h.load_typed hp hload
  obtain ⟨s', Γ, hstart', hs⟩ := h.start_typed hlinked hm hplaces.hasGlobals (Text.words input)
  obtain rfl := Progress.running.inj (Except.ok.inj (hstart.symm.trans hstart'))
  exact ⟨floor, typed_of_moves hs hmoves⟩

/-- A `run` that ends with a fault takes too much memory or too many steps, or comes to a state
whose step ends so. -/
theorem fault_of_run (h : p.Linked signatures) (hp : p.IsAddressable) {input : String}
    {fuel : Nat} {e : Fault} (he : run p input fuel = .error e) :
    e = .outOfMemory maxMemory ∨ e = .outOfFuel fuel
      ∨ ∃ image t, Reaches p input image t ∧ image.step t = .error e := by
  cases hload : load p with
  | error e' =>
    rw [run, hload] at he
    obtain rfl := Except.error.inj he
    exact .inl (load_error hload)
  | ok loaded =>
    obtain ⟨image, m⟩ := loaded
    obtain ⟨floor, objects, -, hlinked, hm, hplaces, -⟩ := h.load_typed hp hload
    obtain ⟨s, Γ, hstart, hs⟩ := h.start_typed hlinked hm hplaces.hasGlobals (Text.words input)
    rw [run_of_start hload hstart] at he
    refine .inr ((exists_step_of_run he).imp_right ?_)
    rintro ⟨t, hmoves, hstep⟩
    exact ⟨image, t, ⟨m, s, hload, hstart, hmoves⟩, hstep⟩

end Code.Program.Linked

/-- A module of plain names becomes a program whose runs end with no fault that would come from
wrong code: nothing without meaning is done and no unknown function is called, for all inputs and
numbers of steps. A run faults at no address but the null one, and only where it prints a STRING
that is null. Nor does the machine break down. -/
theorem Module.run_compile {m : Module} {platform : Platform} {p : Program}
    (h : m.compile platform = .ok p) (hm : m.HasPlainNames) (hp : p.IsAddressable)
    (input : String) (fuel : Nat) {e : Fault} (he : run p input fuel = .error e) :
    (∀ reason, e ≠ .malformed reason) ∧ (∀ name, e ≠ .unknownFunction name)
      ∧ (∀ count, e ≠ .crash count)
      ∧ ∀ address, e = .badAddress address → address = 0 ∧ ∃ image t i rest,
        Reaches p input image t ∧ image.step t = .error e ∧ t.frame.rest = i :: rest
          ∧ WritesNull image t.frame i := by
  have hlinked := Module.linked_of_compile h hm
  rcases hlinked.fault_of_run hp he with rfl | rfl | ⟨image, t, hreaches, hstep⟩
  · exact ⟨nofun, nofun, nofun, nofun⟩
  · exact ⟨nofun, nofun, nofun, nofun⟩
  · obtain ⟨floor, objects, Γ, H, ht⟩ := hlinked.typed_of_reaches hp hreaches
    obtain ⟨i, rest, e', hrest, hstep', hpermitted⟩ :=
      (step_typed ht).resolve_left fun ⟨p, hp, _⟩ => (nomatch hstep.symm.trans hp)
    obtain rfl := Except.error.inj (hstep.symm.trans hstep')
    cases hpermitted with
    | divisionByZero => exact ⟨nofun, nofun, nofun, nofun⟩
    | indexOutOfRange index => exact ⟨nofun, nofun, nofun, nofun⟩
    | stackOverflow => exact ⟨nofun, nofun, nofun, nofun⟩
    | outOfMemory => exact ⟨nofun, nofun, nofun, nofun⟩
    | writesNull hnull =>
      refine ⟨nofun, nofun, nofun, fun address haddress => ?_⟩
      obtain rfl := Fault.badAddress.inj haddress
      exact ⟨rfl, image, t, i, rest, hreaches, hstep, hrest, hnull⟩

/-- A module that prints both elements of an array of STRINGs through a reference, where the
second one is null. -/
def Module.silent : Module :=
  let element (i : Int64) : Expr := .designator "t" [[.literal (.integer i)]]
  let inner : Procedure := .mk "Q" [] none {} [.call "WRITELN" []]
  let outer : Procedure := .mk "P" [⟨true, ["s"], .string⟩] none { procedures := [inner] }
    [.call "WRITE" [.designator "s" []], .call "Q" []]
  { name := "M"
    declarations :=
      { vars := [(["t"], .array [.literal (.integer 2)] .string)], procedures := [outer] }
    body := some [.assign ⟨"t", [[.literal (.integer 0)]]⟩ (.literal (.string "first")),
      .call "P" [element 0], .call "P" [element 1]] }

theorem Module.run_compile_silent :
    ∃ p, Module.silent.compile .native = .ok p ∧ Module.silent.HasPlainNames ∧ p.IsAddressable
      ∧ run p "" 100 = .error (.badAddress 0) ∧ ∃ image t i rest, Reaches p "" image t
        ∧ image.step t = .error (.badAddress 0) ∧ t.frame.rest = i :: rest
        ∧ WritesNull image t.frame i := by
  have hnames : Module.silent.HasPlainNames :=
    ⟨by decide, by decide, ⟨by decide, ⟨by decide, trivial⟩, by decide, trivial⟩, by decide,
      trivial⟩
  have hok : (Module.silent.compile .native).isOk = true := by decide +kernel
  have hfacts : ∀ p ∈ (Module.silent.compile .native).toOption,
      nullPage + textSize p.strings ≤ 2 ^ 64 ∧ run p "" 100 = .error (.badAddress 0) := by
    decide +kernel
  obtain ⟨p, hp⟩ := Except.exists_of_isOk hok
  obtain ⟨hsize, hrun⟩ := hfacts p (by rw [hp]; rfl)
  exact ⟨p, hp, hnames, hsize, hrun,
    ((Module.run_compile hp hnames hsize "" 100 hrun).2.2.2 0 rfl).2⟩

end Oberon
