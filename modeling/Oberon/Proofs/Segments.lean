import Oberon.Proofs.TypedRuns

/-!
# Straight-line code at work

An action that makes `Extends` steps adds instructions to the current block and nothing else.
`Emit.Performs` says what those instructions do when the machine comes to them: they lead to a
result, or to a fault, whatever code follows. A moment is what the machine knows then, and later
moments of one block keep all temporaries that were drawn before.
-/

namespace Oberon

open Code Machine Relation

/-! ## The code that an action adds -/

/-- A later state of an emission, with `code` added to the current block. -/
structure Emission.Adds (s : Emission) (code : List Instr) (t : Emission) : Prop where
  blocks : t.draft.blocks = s.draft.blocks
  script : t.draft.script.toList = s.draft.script.toList ++ code.map Edit.push
  stock : s.stock.Grows t.stock

namespace Emission

variable {s t u : Emission} {code more : List Instr}

theorem Adds.refl (s : Emission) : s.Adds [] s :=
  ⟨rfl, (List.append_nil _).symm, .refl _⟩

/-- `Adds` composes: the code of both parts stands in a row. -/
theorem Adds.trans (h : s.Adds code t) (h' : t.Adds more u) : s.Adds (code ++ more) u := by
  refine ⟨h'.blocks.trans h.blocks, ?_, h.stock.trans h'.stock⟩
  rw [h'.script, h.script, List.map_append, List.append_assoc]

/-- The code that an emission `Adds` between two states is what the later script has more. -/
theorem Adds.unique (h : s.Adds code t) (h' : s.Adds more t) : code = more := by
  have hsame := List.append_cancel_left (h.script.symm.trans h'.script)
  exact List.map_injective_iff.mpr (fun _ _ => Edit.push.inj) hsame

theorem adds_pushed (s : Emission) {i : Instr} (h : i.output = none) : s.Adds [i] (s.pushed i) :=
  ⟨rfl, Array.toList_push, (Extends.push s h).grows.stock⟩

/-- `defined` adds one instruction, whose output is the next temporary. -/
theorem adds_defined (s : Emission) {i : Instr} (h : i.output = some s.stock.temps) :
    s.Adds [i] (s.defined i) :=
  ⟨rfl, Array.toList_push, (Grows.drawn (e := .push i) h).stock⟩

theorem adds_withString (s : Emission) (text : String) : s.Adds [] (s.withString text) :=
  ⟨rfl, (List.append_nil _).symm, (Extends.string s text).grows.stock⟩

/-- Steps of `Extends` add some code, and change nothing else. -/
theorem exists_adds (h : ReflTransGen Extends s t) : ∃ code, s.Adds code t := by
  induction h with
  | refl => exact ⟨[], .refl s⟩
  | tail _ hstep ih =>
    obtain ⟨code, hcode⟩ := ih
    cases hstep with
    | push h => exact ⟨_, hcode.trans (adds_pushed _ h)⟩
    | define h => exact ⟨_, hcode.trans (adds_defined _ h)⟩
    | string text => exact ⟨_, hcode.trans (adds_withString _ text)⟩

end Emission

/-- An action that emits straight-line code, by steps of `Extends`. -/
class Emit.Straight {α : Type} (x : Emit α) : Prop where
  traces : Traces Emission.Extends x

namespace Emit

variable {α β : Type}

/-- A `Straight` action adds some code. -/
theorem Straight.exists_adds {x : Emit α} [Straight x] {s t : Emission} {a : α}
    (h : x s = .ok (a, t)) : ∃ code, s.Adds code t :=
  Emission.exists_adds (Straight.traces h)

instance (a : α) : Straight (pure a) :=
  ⟨.pure a⟩

instance (e : CompileError) : Straight (fail e : Emit α) :=
  ⟨.fail e⟩

instance {x : Emit α} {f : α → Emit β} [hx : Straight x] [hf : ∀ a, Straight (f a)] :
    Straight (x >>= f) :=
  ⟨.bind hx.traces fun a => (hf a).traces⟩

instance {p : Prop} [Decidable p] {x y : Emit α} [hx : Straight x] [hy : Straight y] :
    Straight (if p then x else y) :=
  ⟨.ite hx.traces hy.traces⟩

instance (text : String) : Straight (string text) :=
  ⟨traces_string text⟩

end Emit

/-! ## Where the machine gets to -/

namespace Machine

/-- The machine comes from a state to one as `Q` says, or to one whose step is the fault. -/
def Image.Leads {δ : Type} (image : Image) (M : State) (r : Except Fault δ)
    (Q : δ → State → Prop) : Prop :=
  ∃ N, ReflTransGen image.Moves M N ∧ match r with
    | .ok d => Q d N
    | .error e => image.step N = .error e

namespace Image.Leads

variable {image : Image} {M N : State} {δ ε : Type} {r : Except Fault δ}
  {Q R : δ → State → Prop}

/-- `Leads` to where the machine is. -/
theorem refl {d : δ} (h : Q d M) : image.Leads M (.ok d) Q :=
  ⟨M, .refl, h⟩

/-- `Leads` to the fault of the next step. -/
theorem fault {e : Fault} (h : image.step M = .error e) :
    image.Leads M (.error e : Except Fault δ) Q :=
  ⟨M, .refl, h⟩

/-- `Leads` from a state to which some steps lead. -/
theorem after (h : image.Leads N r Q) (hmoves : ReflTransGen image.Moves M N) :
    image.Leads M r Q := by
  obtain ⟨K, hK, hr⟩ := h
  exact ⟨K, hmoves.trans hK, hr⟩

/-- `Leads` with a weaker statement about the end. -/
theorem imp (h : image.Leads M r Q) (hQ : ∀ {d K}, Q d K → R d K) : image.Leads M r R := by
  obtain ⟨K, hK, hr⟩ := h
  refine ⟨K, hK, ?_⟩
  cases r with
  | ok d => exact hQ hr
  | error e => exact hr

/-- `Leads` of a sequence: from where the first part ends, the second one goes on. -/
theorem bind {g : δ → Except Fault ε} {R : ε → State → Prop} (h : image.Leads M r Q)
    (hg : ∀ {d K}, Q d K → image.Leads K (g d) R) : image.Leads M (r >>= g) R := by
  obtain ⟨K, hK, hr⟩ := h
  cases r with
  | ok d => exact (hg hr).after hK
  | error e => exact ⟨K, hK, hr⟩

end Image.Leads

/-- Steps of `Image.Moves` to a state only take fuel. -/
theorem Image.run_of_moves {image : Image} {M N : State} (h : ReflTransGen image.Moves M N) :
    ∃ n, ∀ budget fuel, image.run budget (n + fuel) M = image.run budget fuel N := by
  induction h using ReflTransGen.head_induction_on with
  | refl => exact ⟨0, fun budget fuel => by rw [Nat.zero_add]⟩
  | head hstep _ ih =>
    obtain ⟨n, hn⟩ := ih
    refine ⟨n + 1, fun budget fuel => ?_⟩
    rw [Nat.add_right_comm, Image.run, hstep]
    exact hn budget fuel

/-! ## Moments of a call -/

/-- A call under way, but for its temporaries and its place in the code. -/
structure Call where
  function : String
  blocks : Array Block
  arguments : List Scalar
  base : Nat
  out : Option Nat
  callers : List Frame

/-- What changes while a call runs. Temporaries below `next` have been drawn. -/
structure Moment where
  world : World
  temps : Std.TreeMap Nat Scalar
  next : Nat

/-- The frame of a call at a moment, with some code to run. -/
def Call.frame (c : Call) (Γ : Moment) (block : Block) (rest : List Instr) : Frame where
  function := c.function
  blocks := c.blocks
  arguments := c.arguments
  temps := Γ.temps
  base := c.base
  out := c.out
  block := block
  rest := rest

/-- The state of the machine at a moment, with some code to run. -/
def Call.state (c : Call) (Γ : Moment) (block : Block) (rest : List Instr) : State :=
  ⟨Γ.world, c.frame Γ block rest, c.callers⟩

namespace Moment

/-- A later moment has all temporaries that were drawn before. -/
instance : Preorder Moment where
  le Γ Δ := Γ.next ≤ Δ.next ∧ ∀ i < Γ.next, Δ.temps[i]? = Γ.temps[i]?
  le_refl _ := ⟨le_rfl, fun _ _ => rfl⟩
  le_trans _ _ _ h h' :=
    ⟨h.1.trans h'.1, fun i hi => (h'.2 i (hi.trans_le h.1)).trans (h.2 i hi)⟩

/-- The moment after the next temporary was set to `x`. -/
def define (Γ : Moment) (x : Scalar) : Moment :=
  { Γ with temps := Γ.temps.insert Γ.next x, next := Γ.next + 1 }

/-- The moment in another world. -/
def withWorld (Γ : Moment) (world : World) : Moment :=
  { Γ with world }

/-- The moment with other temporaries said to be drawn. -/
def withNext (Γ : Moment) (next : Nat) : Moment :=
  { Γ with next }

/-- A moment grows when a temporary is set that was not defined before, by `Moment.define`. -/
theorem le_define (Γ : Moment) (x : Scalar) : Γ ≤ Γ.define x := by
  refine ⟨Nat.le_succ _, fun i hi => ?_⟩
  show (Γ.temps.insert Γ.next x)[i]? = _
  rw [Std.TreeMap.getElem?_insert, if_neg (by simpa using (Nat.ne_of_lt hi).symm)]

theorem le_withWorld (Γ : Moment) (world : World) : Γ ≤ Γ.withWorld world :=
  ⟨le_rfl, fun _ _ => rfl⟩

end Moment

/-- An operand that stands for a scalar at a moment, and does so from then on. -/
structure Moment.Has (image : Image) (c : Call) (Γ : Moment) (v : Value) (x : Scalar) :
    Prop where
  value : ∀ block rest, image.value (c.frame Γ block rest) v = .ok x
  drawn : ∀ i ty, v = .temp i ty → i < Γ.next

namespace Moment.Has

variable {image : Image} {c : Call} {Γ Δ : Moment} {v : Value} {x : Scalar}

/-- What an operand stands for, as `Moment.Has` says, stays at later moments. -/
theorem mono (h : Γ.Has image c v x) (hle : Γ ≤ Δ) : Δ.Has image c v x := by
  refine ⟨fun block rest => ?_, fun i ty hv => (h.drawn i ty hv).trans_le hle.1⟩
  have hvalue := h.value block rest
  cases v with
  | temp i ty =>
    have htemp : Δ.temps[i]? = Γ.temps[i]? := hle.2 i (h.drawn i ty rfl)
    simpa only [Image.value, Call.frame, htemp] using hvalue
  | int value bits => exact hvalue
  | real value => exact hvalue
  | null => exact hvalue
  | param index ty => exact hvalue
  | global name => exact hvalue
  | string name => exact hvalue

/-- `Moment.define` gives the temporary that it sets its value. -/
theorem define (Γ : Moment) (x : Scalar) (ty : Ty) :
    (Γ.define x).Has image c (.temp Γ.next ty) x := by
  refine ⟨fun block rest => ?_, fun i ty hv => ?_⟩
  · have htemp : (Γ.temps.insert Γ.next x)[Γ.next]? = some x := Std.TreeMap.getElem?_insert_self
    simp only [Image.value, Call.frame, Moment.define, htemp]
  · obtain ⟨rfl, -⟩ := Value.temp.inj hv
    exact Nat.lt_succ_self _

/-- An operand that has a number is read by `Image.int`, wherever the code stands. -/
theorem int {n : Int64} (h : Γ.Has image c v (.int n)) (block : Block) (rest : List Instr) :
    image.int (c.frame Γ block rest) v = .ok n := by
  rw [Image.int, h.value block rest]

theorem real {r : Double} (h : Γ.Has image c v (.real r)) (block : Block) (rest : List Instr) :
    image.real (c.frame Γ block rest) v = .ok r := by
  rw [Image.real, h.value block rest]

/-- A constant of `bits` bits stands for its number, wrapped to that width. -/
theorem constant (n : Int64) (bits : Nat) : Γ.Has image c (.int n bits) (.int (Word.wrap bits n)) :=
  ⟨fun _ _ => rfl, fun _ _ hv => nomatch hv⟩

theorem double (r : Double) : Γ.Has image c (.real r) (.real r) :=
  ⟨fun _ _ => rfl, fun _ _ hv => nomatch hv⟩

theorem null : Γ.Has image c .null (.int 0) :=
  ⟨fun _ _ => rfl, fun _ _ hv => nomatch hv⟩

/-- The name of a string constant stands for its address in `Image.symbols`. -/
theorem string {name : String} {address : Nat} (h : image.symbols.lookup name = some address) :
    Γ.Has image c (.string name) (.ofAddress address) := by
  refine ⟨fun block rest => ?_, fun _ _ hv => nomatch hv⟩
  rw [Image.value, h]

/-- An operand stands for one scalar at a moment: `Moment.Has` leaves no choice. -/
theorem eq {y : Scalar} (h : Γ.Has image c v x) (h' : Γ.Has image c v y) : x = y :=
  Except.ok.inj ((h.value { name := "" } []).symm.trans (h'.value { name := "" } []))

end Moment.Has

end Machine

/-! ## What an action does -/

section

variable (image : Image) (c : Call)

/-- The code of an action leads from a moment to the result, or the fault, that `r` says. What
the action gave when it was emitted, and the result, are then as `Q` says. -/
def Emit.Performs {α δ : Type} (Γ : Moment) (x : Emit α) (r : Except Fault δ)
    (Q : Moment → α → δ → Prop) : Prop :=
  ∀ ⦃s a t code⦄, x s = .ok (a, t) → s.Adds code t → s.stock.temps = Γ.next →
    t.stock.strings ⊆ image.program.strings →
    ∀ block rest, image.Leads (c.state Γ block (code ++ rest)) r fun d M =>
      ∃ Δ, Γ ≤ Δ ∧ Δ.next = t.stock.temps ∧ M = c.state Δ block rest ∧ Q Δ a d

/-- The code of an action `Performs` what `r` says and leaves the world as it is. -/
abbrev Emit.Computes {α δ : Type} (Γ : Moment) (x : Emit α) (r : Except Fault δ)
    (Q : Moment → α → δ → Prop) : Prop :=
  Emit.Performs image c Γ x r fun Δ a d => Δ.world = Γ.world ∧ Q Δ a d

end

namespace Emit.Performs

variable {image : Image} {c : Call} {Γ : Moment} {α β δ ε : Type} {x : Emit α}
  {r : Except Fault δ} {Q R : Moment → α → δ → Prop}

theorem pure {a : α} {d : δ} (h : Q Γ a d) : Performs image c Γ (Pure.pure a) (.ok d) Q := by
  intro s b t code hok hcode htemps _ block rest
  obtain ⟨rfl, rfl⟩ := pure_eq_ok.mp hok
  obtain rfl := (Emission.Adds.refl t).unique hcode
  exact .refl ⟨Γ, le_rfl, htemps.symm, rfl, h⟩

/-- An action that fails `Performs` anything, since no code of it is run. -/
theorem fail (e : CompileError) : Performs image c Γ (Emit.fail e) r Q :=
  fun _ _ _ _ hok => (Emit.fail_eq_ok.mp hok).elim

theorem fail_bind (e : CompileError) {f : β → Emit α} :
    Performs image c Γ (Emit.fail e >>= f) r Q := by
  intro s a t code hok
  obtain ⟨b, u, hb, -⟩ := bind_eq_ok.mp hok
  exact (Emit.fail_eq_ok.mp hb).elim

/-- `Performs` of a sequence of straight-line actions; the second starts at a later moment. -/
theorem bind [Straight x] {f : α → Emit β} [∀ a, Straight (f a)] {g : δ → Except Fault ε}
    {R : Moment → β → ε → Prop} (hx : Performs image c Γ x r Q)
    (hf : ∀ {Δ a d}, Γ ≤ Δ → Q Δ a d → Performs image c Δ (f a) (g d) R) :
    Performs image c Γ (x >>= f) (r >>= g) R := by
  intro s b t code hok hcode htemps hstrings block rest
  obtain ⟨a, u, ha, hb⟩ := bind_eq_ok.mp hok
  obtain ⟨first, hfirst⟩ := Straight.exists_adds ha
  obtain ⟨second, hsecond⟩ := Straight.exists_adds hb
  obtain rfl := (hfirst.trans hsecond).unique hcode
  rw [List.append_assoc]
  refine (hx ha hfirst htemps (List.Subset.trans hsecond.stock.strings.subset hstrings) block
    (second ++ rest)).bind ?_
  rintro d M ⟨Δ, hle, hnext, rfl, hQ⟩
  refine (hf hle hQ hb hsecond hnext.symm hstrings block rest).imp ?_
  rintro e M ⟨Θ, hle', hnext', rfl, hR⟩
  exact ⟨Θ, hle.trans hle', hnext', rfl, hR⟩

/-- `Performs` with a weaker statement about what is known afterwards. -/
theorem imp (hx : Performs image c Γ x r Q) (h : ∀ {Δ a d}, Γ ≤ Δ → Q Δ a d → R Δ a d) :
    Performs image c Γ x r R := by
  intro s b t code hok hcode htemps hstrings block rest
  refine (hx hok hcode htemps hstrings block rest).imp ?_
  rintro d M ⟨Δ, hle, hnext, rfl, hQ⟩
  exact ⟨Δ, hle, hnext, rfl, h hle hQ⟩

theorem of_eq {r' : Except Fault δ} (hr : r = r') (hx : Performs image c Γ x r' Q) :
    Performs image c Γ x r Q :=
  hr ▸ hx

/-- After an action that `Performs` `r`, the result is known to be `r`. -/
theorem known (hx : Performs image c Γ x r Q) :
    Performs image c Γ x r fun Δ a d => Q Δ a d ∧ r = .ok d := by
  intro s b t code hok hcode htemps hstrings block rest
  have hrun := hx hok hcode htemps hstrings block rest
  cases r with
  | error e => exact hrun
  | ok d =>
    obtain ⟨M, hM, Δ, hle, hnext, rfl, hQ⟩ := hrun
    exact ⟨_, hM, Δ, hle, hnext, rfl, hQ, rfl⟩

/-- `Performs` with the result read in another way, by `g`. -/
theorem map (hx : Performs image c Γ x r Q) {g : δ → ε} {R : Moment → α → ε → Prop}
    (h : ∀ {Δ a d}, Γ ≤ Δ → Q Δ a d → R Δ a (g d)) : Performs image c Γ x (r.map g) R := by
  intro s b t code hok hcode htemps hstrings block rest
  have hrun := hx hok hcode htemps hstrings block rest
  cases r with
  | error e => exact hrun
  | ok d =>
    obtain ⟨M, hM, Δ, hle, hnext, rfl, hQ⟩ := hrun
    exact ⟨_, hM, Δ, hle, hnext, rfl, h hle hQ⟩

/-- `Performs` with a part of the result left out that does not matter. -/
theorem of_map {g : ε → δ} {r : Except Fault ε} (hx : Performs image c Γ x (r.map g) Q) :
    Performs image c Γ x r fun Δ a e => Q Δ a (g e) := by
  intro s b t code hok hcode htemps hstrings block rest
  have hrun := hx hok hcode htemps hstrings block rest
  cases r with
  | error e => exact hrun
  | ok e => exact hrun

/-- `Emit.result` of an instruction that sets a temporary, or fails. -/
theorem result {ty : Ty} {instr : Nat → Instr} {f : δ → Scalar}
    (hout : ∀ n, (instr n).output = some n)
    (h : ∀ block rest, image.execute (c.state Γ block rest) (instr Γ.next)
      = r.map fun d => c.state (Γ.define (f d)) block rest) :
    Computes image c Γ (Emit.result ty instr) r fun Δ v d =>
      Δ.Has image c v (f d) ∧ v.ty = ty := by
  intro s v t code hok hcode htemps _ block rest
  obtain ⟨rfl, rfl⟩ := result_eq_ok.mp hok
  obtain rfl := (s.adds_defined (hout _)).unique hcode
  have hstep : image.step (c.state Γ block ([instr s.stock.temps] ++ rest))
      = r.map fun d => .running (c.state (Γ.define (f d)) block rest) := by
    show (image.execute (c.state Γ block rest) (instr s.stock.temps) >>= _) = _
    rw [htemps, h block rest]
    cases r <;> rfl
  cases r with
  | error e => exact .fault hstep
  | ok d =>
    refine ⟨_, .single hstep, Γ.define (f d), Γ.le_define _, ?_, rfl, rfl, ?_, rfl⟩
    · exact congrArg (· + 1) htemps.symm
    · rw [htemps]
      exact .define Γ _ ty

/-- `Emit.push` of an instruction that changes the world, or fails. -/
theorem push {i : Instr} {f : δ → World} (hout : i.output = none)
    (h : ∀ block rest, image.execute (c.state Γ block rest) i
      = r.map fun d => c.state (Γ.withWorld (f d)) block rest) :
    Performs image c Γ (Emit.push i) r fun Δ _ d => Δ.world = f d := by
  intro s u t code hok hcode htemps _ block rest
  obtain rfl := push_eq_ok.mp hok
  obtain rfl := (s.adds_pushed hout).unique hcode
  have hstep : image.step (c.state Γ block ([i] ++ rest))
      = r.map fun d => .running (c.state (Γ.withWorld (f d)) block rest) := by
    show (image.execute (c.state Γ block rest) i >>= _) = _
    rw [h block rest]
    cases r <;> rfl
  cases r with
  | error e => exact .fault hstep
  | ok d =>
    exact ⟨_, .single hstep, Γ.withWorld (f d), Γ.le_withWorld _, htemps.symm, rfl, rfl⟩

end Emit.Performs

/-- `Computes` of two computations one after another, in an unchanged world. -/
theorem Emit.Computes.bind {image : Image} {c : Call} {Γ : Moment} {α β δ ε : Type} {x : Emit α}
    [Straight x] {f : α → Emit β} [∀ a, Straight (f a)] {r : Except Fault δ}
    {g : δ → Except Fault ε} {Q : Moment → α → δ → Prop} {R : Moment → β → ε → Prop}
    (hx : Computes image c Γ x r Q)
    (hf : ∀ {Δ a d}, Γ ≤ Δ → Δ.world = Γ.world → Q Δ a d →
      Computes image c Δ (f a) (g d) R) :
    Computes image c Γ (x >>= f) (r >>= g) R :=
  Performs.bind hx fun hle h => (hf hle h.1 h.2).imp fun _ h' => ⟨h'.1.trans h.1, h'.2⟩

/-- `Computes` of a sequence in which the result of the first computation is known. -/
theorem Emit.Computes.bind_ok {image : Image} {c : Call} {Γ : Moment} {α β δ ε : Type} {x : Emit α}
    [Straight x] {f : α → Emit β} [∀ a, Straight (f a)] {d : δ} {r : Except Fault ε}
    {Q : Moment → α → δ → Prop} {R : Moment → β → ε → Prop}
    (hx : Computes image c Γ x (.ok d) Q)
    (hf : ∀ {Δ a}, Γ ≤ Δ → Δ.world = Γ.world → Q Δ a d → Computes image c Δ (f a) r R) :
    Computes image c Γ (x >>= f) r R := by
  refine Performs.bind (g := fun _ => r) hx.known fun hle h => ?_
  obtain ⟨⟨hworld, hQ⟩, hd⟩ := h
  obtain rfl := Except.ok.inj hd
  exact (hf hle hworld hQ).imp fun _ h' => ⟨h'.1.trans hworld, h'.2⟩

end Oberon
