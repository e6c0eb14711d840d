import Oberon.Proofs.Activations
import Oberon.Proofs.Orderly

/-!
# Loops that count

What the blocks of a FOR loop do, in whatever function they stand and whatever the body does, as
long as it comes to its end and leaves the counter as it was. The test comes before the body and the
counter is advanced behind it, in 64 bits. So the trips are those of the range, unless the limit is
the last number there is: then the counter starts over, and the loop never ends.
-/

namespace Oberon

open Code Machine Relation Emit

/-! ## Ranges -/

/-- The last number in a direction: `Int64.maxValue` upwards, `Int64.minValue` downwards. -/
def Direction.extreme : Direction → Int64
  | .up => Int64.maxValue
  | .down => Int64.minValue

/-- What the counter changes by. -/
def Direction.step : Direction → Int
  | .up => 1
  | .down => -1

/-- The values that the counter has when the body of a FOR is run. -/
def Direction.trips (direction : Direction) (first last : Int64) : List Int64 :=
  match direction with
  | .up =>
    (List.range (last.toInt - first.toInt + 1).toNat).map fun k : Nat => .ofInt (first.toInt + k)
  | .down =>
    (List.range (first.toInt - last.toInt + 1).toNat).map fun k : Nat => .ofInt (first.toInt - k)

namespace Direction

variable {direction : Direction} {first last : Int64}

/-- With `Direction.extreme` for a limit, `Direction.goesOn` is true of every number. -/
theorem goesOn_extreme (direction : Direction) (current : Int64) :
    direction.goesOn current direction.extreme = true := by
  have hlow := current.le_toInt
  have hhigh := current.toInt_lt
  cases direction with
  | up =>
    refine decide_eq_true (Int64.le_iff_toInt_le.mpr ?_)
    show current.toInt ≤ 2 ^ 63 - 1
    omega
  | down =>
    refine decide_eq_true (Int64.le_iff_toInt_le.mpr ?_)
    show -2 ^ 63 ≤ current.toInt
    omega

/-- `Direction.trips` has no value beyond the limit. -/
theorem trips_of_not_goesOn (h : direction.goesOn first last = false) :
    direction.trips first last = [] := by
  cases direction with
  | up =>
    have hlt := mt Int64.le_iff_toInt_le.mpr (of_decide_eq_false h)
    have hnone : (last.toInt - first.toInt + 1).toNat = 0 := by omega
    rw [trips, hnone]
    rfl
  | down =>
    have hlt := mt Int64.le_iff_toInt_le.mpr (of_decide_eq_false h)
    have hnone : (first.toInt - last.toInt + 1).toNat = 0 := by omega
    rw [trips, hnone]
    rfl

/-- Before the last number there is, `Direction.next` comes without overflow. -/
theorem toInt_next (h : direction.goesOn first last = true) (hlast : last ≠ direction.extreme) :
    (direction.next first).toInt = first.toInt + direction.step := by
  have hne : last.toInt ≠ direction.extreme.toInt := fun heq => hlast (Int64.toInt_inj.mp heq)
  have hlow := first.le_toInt
  have hhigh := first.toInt_lt
  have hlow' := last.le_toInt
  have hhigh' := last.toInt_lt
  cases direction with
  | up =>
    have hle := Int64.le_iff_toInt_le.mp (of_decide_eq_true h)
    have hne : last.toInt ≠ 2 ^ 63 - 1 := hne
    rw [next, Int64.toInt_add]
    have hlow : -(2 ^ 64 : Int) / 2 ≤ first.toInt + 1 := by omega
    have hhigh : first.toInt + 1 < (2 ^ 64 + 1 : Int) / 2 := by omega
    exact Int.bmod_eq_of_le hlow hhigh
  | down =>
    have hle := Int64.le_iff_toInt_le.mp (of_decide_eq_true h)
    have hne : last.toInt ≠ -2 ^ 63 := hne
    rw [next, Int64.toInt_sub]
    have hlow : -(2 ^ 64 : Int) / 2 ≤ first.toInt - 1 := by omega
    have hhigh : first.toInt - 1 < (2 ^ 64 + 1 : Int) / 2 := by omega
    exact Int.bmod_eq_of_le hlow hhigh

/-- `Direction.trips` begins with the first value, and goes on with those from the next one. -/
theorem trips_of_goesOn (h : direction.goesOn first last = true)
    (hlast : last ≠ direction.extreme) :
    direction.trips first last = first :: direction.trips (direction.next first) last := by
  -- the next number is not past the last one there is, so it does not wrap around
  have hnext := toInt_next h hlast
  cases direction with
  | up =>
    have hnext : (Direction.up.next first).toInt = first.toInt + 1 := hnext
    have hle := Int64.le_iff_toInt_le.mp (of_decide_eq_true h)
    have hcount : (last.toInt - first.toInt + 1).toNat
        = (last.toInt - (Direction.up.next first).toInt + 1).toNat + 1 := by omega
    rw [trips, hcount, List.range_succ_eq_map, List.map_cons, List.map_map, trips]
    congr 1
    · simp
    · refine List.map_congr_left fun k _ => congrArg Int64.ofInt ?_
      rw [hnext]
      push_cast
      omega
  | down =>
    have hnext : (Direction.down.next first).toInt = first.toInt - 1 := hnext
    have hle := Int64.le_iff_toInt_le.mp (of_decide_eq_true h)
    have hcount : (first.toInt - last.toInt + 1).toNat
        = ((Direction.down.next first).toInt - last.toInt + 1).toNat + 1 := by omega
    rw [trips, hcount, List.range_succ_eq_map, List.map_cons, List.map_map, trips]
    congr 1
    · simp
    · refine List.map_congr_left fun k _ => congrArg Int64.ofInt ?_
      rw [hnext]
      push_cast
      omega

end Direction

/-! ## The code of a FOR -/

namespace Emit

variable {s t : Emission} {place : Value} {last : Int64} {direction : Direction}

/-- The code that `forTest` emits. -/
def testCode (place : Value) (last : Int64) (direction : Direction) (temp : Nat) : List Instr :=
  [.load temp .integer place,
    .icmp (temp + 1) (intPredicate (goesOn direction)) (.temp temp .integer) (.integer last)]

/-- The code that `forStep` emits. -/
def stepCode (place : Value) (direction : Direction) (temp : Nat) : List Instr :=
  [.load temp .integer place,
    .binary (temp + 1) (advance direction) (.temp temp .integer) (.int 1 64),
    .store (.temp (temp + 1) .integer) place]

/-- `forTest` emits `testCode`. -/
theorem forTest_adds {c : Value} (h : forTest place 64 (.integer last) direction s = .ok (c, t)) :
    c = .temp (s.stock.temps + 1) .boolean
      ∧ s.Adds (testCode place last direction s.stock.temps) t := by
  obtain ⟨current, r, hload, hcompare⟩ := bind_eq_ok.mp h
  obtain ⟨rfl, rfl⟩ := result_eq_ok.mp hload
  -- both sides are INTEGERs, so nothing is converted
  have hcompare : result .boolean (.icmp · (intPredicate (goesOn direction))
      (.temp s.stock.temps .integer) (.integer last)) _ = .ok (c, t) := hcompare
  obtain ⟨rfl, rfl⟩ := result_eq_ok.mp hcompare
  exact ⟨rfl, (s.adds_defined rfl).trans (Emission.adds_defined _ rfl)⟩

/-- `forStep` emits `stepCode`. -/
theorem forStep_adds {u : Unit} (h : forStep place 64 direction s = .ok (u, t)) :
    s.Adds (stepCode place direction s.stock.temps) t := by
  obtain ⟨current, r, hload, h⟩ := bind_eq_ok.mp h
  obtain ⟨next, r', hnext, hstore⟩ := bind_eq_ok.mp h
  obtain ⟨rfl, rfl⟩ := result_eq_ok.mp hload
  obtain ⟨rfl, rfl⟩ := result_eq_ok.mp hnext
  obtain rfl := push_eq_ok.mp hstore
  exact ((s.adds_defined rfl).trans (Emission.adds_defined _ rfl)).trans
    (Emission.adds_pushed _ rfl)

/-- `forDo` between numbers sets its counter and then counts. -/
theorem forDo_ok {env : Environment} {name : String} {cell : Variable} {first : Int64}
    {body : Loop → Emit Unit} {u : Unit} (hcell : findVariable env name = .ok cell)
    (hty : cell.ty = .integer)
    (h : forDo (emitCounter env name) ((Expr.literal (.integer first)).emit env)
      ((Expr.literal (.integer last)).emit env) direction body s = .ok (u, t)) :
    countTo cell.storage 64 (.integer last) direction body
      (s.pushed (.store (.integer first) cell.storage)) = .ok ((), t) := by
  have hcounter : emitCounter env name = pure (cell.storage, 64) := by
    simp [emitCounter, hcell, hty]
  have hcoerce (n : Int64) : coerce (.integer n) (.int 64) = pure (.integer n) := rfl
  rw [forDo_eq, forHead, hcounter] at h
  simp only [pure_bind, bind_assoc, Expr.emit, literal, hcoerce] at h
  obtain ⟨_, r, hstore, h⟩ := bind_eq_ok.mp h
  obtain rfl := push_eq_ok.mp hstore
  exact h

end Emit

/-! ## The code at work -/

/-- An operand that is no temporary, or one that was drawn before `temp`. -/
def Code.Value.IsBefore (temp : Nat) (v : Value) : Prop :=
  ∀ i ty, v = .temp i ty → i < temp

theorem Code.Value.IsBefore.ne {v : Value} {temp later : Nat} (h : v.IsBefore temp)
    (hle : temp ≤ later) (ty : Ty) : v ≠ .temp later ty := by
  intro heq
  have hlt := h later ty heq
  omega

namespace Machine

/-- The INTEGER `v` in valid memory, where the operand `place` says. -/
def Image.Counts (image : Image) (place : Value) (s : State) (v : Int64) : Prop :=
  ∃ p, image.int s.frame place = .ok p ∧ s.world.memory.Houses (addressOf p) .integer
    ∧ s.world.memory.read .integer (addressOf p) = .ok (.int v)

/-- The state after an instruction that sets a temporary. -/
def State.setting (s : State) (out : Nat) (x : Scalar) (rest : List Instr) : State :=
  { s with frame := ({ s.frame with rest } : Frame).set out x }

/-- The state after an instruction that changes memory. -/
def State.storing (s : State) (memory : Memory) (rest : List Instr) : State :=
  { s with world := { s.world with memory }, frame := { s.frame with rest } }

/-- An INTEGER that memory `Houses` can be written and reads as it was written. -/
theorem Memory.Houses.write_integer {m : Memory} {address : Nat} (h : m.Houses address .integer)
    (v : Int64) :
    ∃ n, m.write .integer address (.int v) = .ok n ∧ n.Houses address .integer
      ∧ n.read .integer address = .ok (.int v) := by
  have hwidth : Ty.integer.width = 8 := rfl
  have hscalar : Ty.integer.IsScalar := ⟨by decide, by decide⟩
  have hfinish : address + 8 ≤ m.size := hwidth ▸ h.finish
  have hwrite := write_eq (x := .int v) hscalar (hwidth ▸ check_eq_ok h.null hfinish)
  rw [hwidth] at hwrite
  have hsize := m.size_writeWord address 8 (Scalar.int v).bits
  refine ⟨_, hwrite, ⟨h.isProper, h.null, hsize.symm ▸ h.finish, h.addressable⟩, ?_⟩
  have hread := read_eq hscalar (hwidth ▸ check_eq_ok h.null (hsize.symm ▸ hfinish))
  rw [hwidth] at hread
  rw [hread, readWord_writeWord _ hfinish]
  exact congrArg (Except.ok ∘ Scalar.int) (wrap_64 v)

section

variable {image : Image} {s : State} {out depth : Nat} {x : Scalar} {rest : List Instr}
  {place : Value} {labels : List Nat} {v : Int64}

theorem Image.value_setting (ty : Ty) :
    image.value (s.setting out x rest).frame (.temp out ty) = .ok x := by
  have htemp : (s.frame.temps.insert out x)[out]? = some x := Std.TreeMap.getElem?_insert_self
  simp only [Image.value, State.setting, Frame.set, htemp]

/-- After `State.setting` other operands stand for what they stood for. -/
theorem Image.value_setting_of_ne {operand : Value} (h : ∀ ty, operand ≠ .temp out ty) :
    image.value (s.setting out x rest).frame operand = image.value s.frame operand := by
  cases operand with
  | temp index ty =>
    have hne : out ≠ index := by
      rintro rfl
      exact h ty rfl
    have htemp : (s.frame.temps.insert out x)[index]? = s.frame.temps[index]? := by
      rw [Std.TreeMap.getElem?_insert, if_neg (by simpa using hne)]
    simp only [Image.value, State.setting, Frame.set, htemp]
  | _ => rfl

theorem Image.int_rest (f : Frame) (operand : Value) :
    image.int { f with rest } operand = image.int f operand := by
  rw [Image.int, Image.int, value_rest]

/-- What the counter has, as `Counts` says, stays when some other temporary is set. -/
theorem Image.Counts.setting (h : image.Counts place s v) (hplace : ∀ ty, place ≠ .temp out ty) :
    image.Counts place (s.setting out x rest) v := by
  obtain ⟨p, hp, hhouse, hread⟩ := h
  refine ⟨p, ?_, hhouse, hread⟩
  rw [Image.int, Image.value_setting_of_ne hplace]
  exact hp

/-- What the counter has, as `Counts` says, stays at the start of another block. -/
theorem Image.Counts.atBlock (h : image.Counts place s v) (block : Block) :
    image.Counts place (s.atBlock block) v := by
  obtain ⟨p, hp, hhouse, hread⟩ := h
  refine ⟨p, ?_, hhouse, hread⟩
  rw [← hp, Image.int, Image.int]
  cases place <;> rfl

/-- An instruction is no jump, so it `Avoids` all blocks. -/
theorem Image.Avoids.instr {t : State} {i : Instr} (hrest : s.frame.rest = i :: rest)
    (hmoves : image.Moves s t) (hcallers : t.callers.length = depth) :
    image.Avoids depth labels s t := by
  refine .single hmoves hcallers.ge fun label _ htarget => ?_
  rw [Image.target?_of_cons hrest] at htarget
  cases htarget

theorem Image.moves_of_execute {t : State} {i : Instr} (hrest : s.frame.rest = i :: rest)
    (h : image.execute { s with frame := { s.frame with rest } } i = .ok t) : image.Moves s t := by
  unfold Image.Moves
  rw [Image.step, hrest]
  simp only [h]
  rfl

theorem Image.moves_load {ty : Ty} {p : Int64}
    (hrest : s.frame.rest = .load out ty place :: rest) (hp : image.int s.frame place = .ok p)
    (hx : s.world.memory.read ty (addressOf p) = .ok x) :
    image.Moves s (s.setting out x rest) := by
  refine Image.moves_of_execute hrest ?_
  simp only [Image.execute, Image.int_rest, hp]
  show (s.world.memory.read ty (addressOf p) >>= _) = _
  rw [hx]
  rfl

theorem Image.moves_icmp {predicate : IntPredicate} {lhs rhs : Value} {a b : Int64}
    (hrest : s.frame.rest = .icmp out predicate lhs rhs :: rest)
    (ha : image.int s.frame lhs = .ok a) (hb : image.int s.frame rhs = .ok b) :
    image.Moves s (s.setting out (.ofBool (intHolds predicate a b)) rest) := by
  refine Image.moves_of_execute hrest ?_
  simp only [Image.execute, Image.int_rest, ha, hb]
  rfl

theorem Image.moves_binary {op : BinOp} {lhs rhs : Value} {a b : Scalar}
    (hrest : s.frame.rest = .binary out op lhs rhs :: rest)
    (ha : image.value s.frame lhs = .ok a) (hb : image.value s.frame rhs = .ok b)
    (hx : binary op (widthOf lhs.ty) a b = .ok x) : image.Moves s (s.setting out x rest) := by
  refine Image.moves_of_execute hrest ?_
  simp only [Image.execute, value_rest, ha, hb]
  show (binary op (widthOf lhs.ty) a b >>= _) = _
  rw [hx]
  rfl

/-- A store of an INTEGER can be done, and sets what the place `Counts`. -/
theorem Image.moves_store {n p : Int64} {operand : Value}
    (hrest : s.frame.rest = .store operand place :: rest) (hty : operand.ty = .integer)
    (hp : image.int s.frame place = .ok p)
    (hhouse : s.world.memory.Houses (addressOf p) .integer)
    (hn : image.value s.frame operand = .ok (.int n)) :
    ∃ m, image.Moves s (s.storing m rest) ∧ image.Counts place (s.storing m rest) n := by
  obtain ⟨m, hwrite, hhouse', hread⟩ := hhouse.write_integer n
  refine ⟨m, Image.moves_of_execute hrest ?_, p, ?_, hhouse', hread⟩
  · simp only [Image.execute, Image.int_rest, value_rest, hp, hn, hty]
    show (s.world.memory.write .integer (addressOf p) (.int n) >>= _) = _
    rw [hwrite]
    rfl
  · exact (Image.int_rest _ _).trans hp

/-- A later state of the same call, in the same block. -/
structure State.Stays (s : State) (rest : List Instr) (t : State) : Prop where
  callers : t.callers = s.callers
  blocks : t.frame.blocks = s.frame.blocks
  block : t.frame.block = s.frame.block
  rest : t.frame.rest = rest

/-- An instruction that sets another temporary leaves the counter as it is, as `Counts` says. -/
theorem Image.Counts.sets {i : Instr} (h : image.Counts place s v)
    (hplace : ∀ ty, place ≠ .temp out ty) (hs : s.callers.length = depth)
    (hrest : s.frame.rest = i :: rest) (hmoves : image.Moves s (s.setting out x rest)) :
    ∃ t, image.Avoids depth labels s t ∧ s.Stays rest t
      ∧ (∀ ty, image.value t.frame (.temp out ty) = .ok x) ∧ image.Counts place t v :=
  ⟨_, .instr hrest hmoves hs, ⟨rfl, rfl, rfl, rfl⟩, image.value_setting, h.setting hplace⟩

/-- The code of the test, `testCode`, decides where the loop goes. -/
theorem Image.run_test {direction : Direction} {last : Int64} {temp inner done : Nat}
    (hv : image.Counts place s v) (hs : s.callers.length = depth)
    (hplace : place.IsBefore temp)
    (hrest : s.frame.rest = testCode place last direction temp)
    (hterm : s.frame.block.terminator
      = some (.branch (.temp (temp + 1) .boolean) inner done)) :
    ∃ t, image.Avoids depth labels s t
      ∧ image.JumpsTo depth (if direction.goesOn v last then inner else done) t
      ∧ image.Counts place t v ∧ t.frame.blocks = s.frame.blocks := by
  have hfound := hv
  obtain ⟨p, hp, -, hread⟩ := hfound
  obtain ⟨s₁, hrun₁, hstays₁, hcurrent, hv₁⟩ :=
    hv.sets (hplace.ne le_rfl) hs hrest (Image.moves_load hrest hp hread)
  have hs₁ : s₁.callers.length = depth := hstays₁.callers ▸ hs
  have hlhs : image.int s₁.frame (.temp temp .integer) = .ok v := by
    rw [Image.int, hcurrent]
  have hrhs : image.int s₁.frame (.integer last) = .ok last := congrArg Except.ok (wrap_64 last)
  obtain ⟨s₂, hrun₂, hstays₂, houtcome, hv₂⟩ :=
    hv₁.sets (hplace.ne (Nat.le_succ temp)) hs₁ hstays₁.rest
      (Image.moves_icmp hstays₁.rest hlhs hrhs)
  have hs₂ : s₂.callers.length = depth := hstays₂.callers ▸ hs₁
  refine ⟨s₂, hrun₁.trans hrun₂, ⟨hs₂, ?_⟩, hv₂, hstays₂.blocks.trans hstays₁.blocks⟩
  -- the branch reads the outcome
  have hchosen : image.int s₂.frame (.temp (temp + 1) .boolean)
      = .ok (if intHolds (intPredicate (goesOn direction)) v last then -1 else 0) := by
    rw [Image.int, houtcome]
    rfl
  rw [← hstays₁.block, ← hstays₂.block] at hterm
  rw [Image.target?_branch hstays₂.rest hterm hchosen, intHolds_eq, holds_goesOn]
  cases direction.goesOn v last <;> rfl

/-- The code of the step, `stepCode`, takes the counter to its next value. -/
theorem Image.run_step {direction : Direction} {temp label : Nat}
    (hv : image.Counts place s v) (hs : s.callers.length = depth)
    (hplace : place.IsBefore temp)
    (hrest : s.frame.rest = stepCode place direction temp)
    (hterm : s.frame.block.terminator = some (.jump label)) :
    ∃ t, image.Avoids depth labels s t ∧ image.JumpsTo depth label t
      ∧ image.Counts place t (direction.next v) ∧ t.frame.blocks = s.frame.blocks := by
  have hfound := hv
  obtain ⟨p, hp, -, hread⟩ := hfound
  obtain ⟨s₁, hrun₁, hstays₁, hcurrent, hv₁⟩ :=
    hv.sets (hplace.ne le_rfl) hs hrest (Image.moves_load hrest hp hread)
  have hs₁ : s₁.callers.length = depth := hstays₁.callers ▸ hs
  obtain ⟨s₂, hrun₂, hstays₂, hnext, hv₂⟩ :=
    hv₁.sets (hplace.ne (Nat.le_succ temp)) hs₁ hstays₁.rest
      (Image.moves_binary hstays₁.rest (hcurrent _) rfl (binary_advance direction v))
  have hs₂ : s₂.callers.length = depth := hstays₂.callers ▸ hs₁
  -- two temporaries were set, but the counter is still where it was
  obtain ⟨p', hp', hhouse, -⟩ := hv₂
  obtain ⟨m, hstore, hv₃⟩ := Image.moves_store hstays₂.rest rfl hp' hhouse (hnext _)
  refine ⟨_, (hrun₁.trans hrun₂).trans (Avoids.instr hstays₂.rest hstore hs₂), ⟨hs₂, ?_⟩, hv₃,
    hstays₂.blocks.trans hstays₁.blocks⟩
  rw [← hstays₁.block, ← hstays₂.block] at hterm
  exact Image.target?_jump rfl hterm

end

end Machine

/-! ## Loops -/

/-- Blocks in which a FOR loop stands, from `label` on: its test, its body, its step and what comes
after it. The body begins in the second one and has others of its own. -/
structure IsForLoop (blocks : Array Block) (place : Value) (last : Int64) (direction : Direction)
    (label : Nat) : Prop where
  test : ∃ block temp, blocks[label]? = some block ∧ place.IsBefore temp
    ∧ block.instrs = testCode place last direction temp
    ∧ block.terminator = some (.branch (.temp (temp + 1) .boolean) (label + 1) (label + 3))
  body : ∃ block, blocks[label + 1]? = some block
  inside : ∃ own : Nat → Prop, ¬ own (label + 1) ∧ ∀ source target,
    source = label + 1 ∨ own source → HasEdge blocks source target →
      own target ∨ target ∈ [label + 2, label + 3]
  step : ∃ block temp, blocks[label + 2]? = some block ∧ place.IsBefore temp
    ∧ block.instrs = stepCode place direction temp ∧ block.terminator = some (.jump label)
  done : ∃ block, blocks[label + 3]? = some block

namespace Machine

/-- The call at `depth` is at the start of the block `label`. -/
structure State.Begins (depth : Nat) (blocks : Array Block) (label : Nat) (s : State) : Prop where
  call : s.callers.length = depth
  same : s.frame.blocks = blocks
  here : blocks[label]? = some s.frame.block
  start : s.frame.rest = s.frame.block.instrs

/-- From a state on, whenever the call at `depth` begins the body of a FOR loop, it comes to its
end, which is the step of the loop, with the counter as it was: there is no fault, and until then it
neither returns nor leaves the loop. -/
def Image.CompletesBody (image : Image) (place : Value) (depth label : Nat) (s : State) : Prop :=
  ∀ visits t u v, image.Visits depth [label + 1, label + 3] s visits t →
    image.JumpsTo depth (label + 1) t → image.Counts place t v → image.Moves t u →
    ∃ w, image.Avoids depth [label + 2, label + 3] u w
      ∧ image.JumpsTo depth (label + 2) w ∧ image.Counts place w v

section

variable {image : Image} {place : Value} {last v : Int64} {direction : Direction}
  {depth label : Nat} {blocks : Array Block} {s t : State}

theorem Image.CompletesBody.visits {visits : List State}
    (h : image.CompletesBody place depth label s)
    (hvisits : image.Visits depth [label + 1, label + 3] s visits t) :
    image.CompletesBody place depth label t :=
  fun more _ _ _ hmore => h (visits ++ more) _ _ _ (hvisits.trans hmore)

/-- A call that `JumpsTo` another block of its function `Begins` it. -/
theorem Image.JumpsTo.begins {target : Nat} {block : Block} (h : image.JumpsTo depth target s)
    (hblocks : s.frame.blocks = blocks) (hblock : blocks[target]? = some block) :
    image.Moves s (s.atBlock block) ∧ (s.atBlock block).Begins depth blocks target :=
  ⟨h.moves (hblocks ▸ hblock), h.depth, hblocks, hblock, rfl⟩

/-- A call that `Avoids` the way out of its own blocks jumps to no others. -/
theorem Image.Avoids.inside {own : Nat → Prop} {labels others : List Nat}
    (hown : ∀ source target, source = label ∨ own source → HasEdge blocks source target →
      own target ∨ target ∈ labels)
    (hothers : ∀ target ∈ others, ¬ own target) (hs : s.Begins depth blocks label)
    (h : image.Avoids depth labels s t) : image.Avoids depth (others ++ labels) s t := by
  -- the call stands in one of its own blocks all the time
  suffices hall : image.Avoids depth (others ++ labels) s t
      ∧ ∃ f l, t.callAt? depth = some f ∧ f.blocks = blocks ∧ blocks[l]? = some f.block
        ∧ (l = label ∨ own l) from hall.1
  induction h with
  | refl => exact ⟨.refl, s.frame, label, hs.call ▸ s.callAt?_self, hs.same, hs.here, .inl rfl⟩
  | @tail t u _ hstep ih =>
    obtain ⟨hrun, f, l, hf, hblocks, hl, hinside⟩ := ih
    obtain ⟨hmoves, hlive, havoids⟩ := hstep
    have hnext {target : Nat} (hjump : image.JumpsTo depth target t) : own target := by
      rw [← hjump.depth, State.callAt?_self] at hf
      obtain rfl := Option.some.inj hf
      obtain ⟨-, term, hterm, hmem⟩ := Image.exists_of_target? hjump.target
      rcases hown l target hinside ⟨t.frame.block, term, hl, hterm, hmem⟩ with htarget | htarget
      · exact htarget
      · exact absurd hjump (havoids target htarget)
    refine ⟨hrun.tail ⟨hmoves, hlive, fun target htarget hjump => ?_⟩, ?_⟩
    · rcases List.mem_append.mp htarget with htarget | htarget
      · exact hothers target htarget (hnext hjump)
      · exact havoids target htarget hjump
    · obtain ⟨g, hg, hgoes⟩ := hmoves.goes_of_callAt? hf hlive
      have hsame : g.blocks = blocks := hgoes.blocks.trans hblocks
      generalize htarget : t.jumped image depth = target at hgoes
      generalize t.performed depth = code at hgoes
      cases hgoes with
      | waits out x => exact ⟨_, l, hg, hsame, by rw [Frame.block_set?, hl], hinside⟩
      | performs hrest out x => exact ⟨_, l, hg, hsame, by rw [Frame.block_set?, hl], hinside⟩
      | @jumps target g term hjump hrest hterm hlabel =>
        obtain ⟨block, hblock, rfl⟩ := Frame.jump_eq_ok hjump
        exact ⟨_, target, hg, hsame, hblocks ▸ hblock,
          .inr (hnext (Image.jumpsTo_of_jumped htarget))⟩

end

end Machine

namespace IsForLoop

variable {image : Image} {place : Value} {last v : Int64} {direction : Direction}
  {depth label : Nat} {blocks : Array Block} {s : State}
  (h : IsForLoop blocks place last direction label)
include h

/-- A state that `Begins` the test goes to the body or to the end, as `Direction.goesOn` decides. -/
theorem test_begun (hs : s.Begins depth blocks label) (hv : image.Counts place s v)
    (labels : List Nat) :
    ∃ t, image.Avoids depth labels s t
      ∧ image.JumpsTo depth (if direction.goesOn v last then label + 1 else label + 3) t
      ∧ image.Counts place t v ∧ t.frame.blocks = blocks := by
  obtain ⟨block, temp, hblock, hplace, hcode, hterm⟩ := h.test
  obtain rfl := Option.some.inj (hs.here.symm.trans hblock)
  obtain ⟨t, hrun, hjump, hv', hsame⟩ :=
    Image.run_test hv hs.call hplace (hs.start.trans hcode) hterm
  exact ⟨t, hrun, hjump, hv', hsame.trans hs.same⟩

/-- A state that `Begins` the step leads back to the test. -/
theorem step_begun (hs : s.Begins depth blocks (label + 2)) (hv : image.Counts place s v)
    (labels : List Nat) :
    ∃ t, image.Avoids depth labels s t ∧ image.JumpsTo depth label t
      ∧ image.Counts place t (direction.next v) ∧ t.frame.blocks = blocks := by
  obtain ⟨block, temp, hblock, hplace, hcode, hterm⟩ := h.step
  obtain rfl := Option.some.inj (hs.here.symm.trans hblock)
  obtain ⟨t, hrun, hjump, hv', hsame⟩ :=
    Image.run_step hv hs.call hplace (hs.start.trans hcode) hterm
  exact ⟨t, hrun, hjump, hv', hsame.trans hs.same⟩

/-- One round, from a state that `Begins` the test: the body is begun once, and the test is made
again with the next value. -/
theorem round (hs : s.Begins depth blocks label) (hv : image.Counts place s v)
    (hmore : direction.goesOn v last = true) (hbody : image.CompletesBody place depth label s) :
    ∃ t u, image.Visits depth [label + 1, label + 3] s [t] u
      ∧ image.JumpsTo depth (label + 1) t ∧ image.Counts place t v
      ∧ u.Begins depth blocks label ∧ image.Counts place u (direction.next v) := by
  obtain ⟨t, hrun, hjump, hv', hsame⟩ := h.test_begun hs hv [label + 1, label + 3]
  rw [if_pos hmore] at hjump
  -- into the body, and to its end
  obtain ⟨body, hblock⟩ := h.body
  obtain ⟨hmoves, hbegins⟩ := hjump.begins hsame hblock
  obtain ⟨w, hrun', hjump', hw⟩ := hbody [] t _ v (.avoids hrun) hjump hv' hmoves
  obtain ⟨own, hfirst, hinside⟩ := h.inside
  have hrun' := hrun'.inside hinside (List.forall_mem_singleton.mpr hfirst) hbegins
  have hsame' : w.frame.blocks = blocks :=
    (hrun'.blocks hbegins.call hjump'.depth).trans hbegins.same
  -- to the step
  obtain ⟨step, _, hblock', -⟩ := h.step
  obtain ⟨hmoves', hbegins'⟩ := hjump'.begins hsame' hblock'
  obtain ⟨x, hrun'', hjump'', hx, hsame''⟩ :=
    h.step_begun hbegins' (hw.atBlock step) [label + 1, label + 3]
  -- and back to the test
  obtain ⟨test, _, hblock'', -⟩ := h.test
  obtain ⟨hmoves'', hbegins''⟩ := hjump''.begins hsame'' hblock''
  have hbetween : image.Avoids depth [label + 1, label + 3] (t.atBlock body) (x.atBlock test) := by
    refine (hrun'.mono ?_).trans ((hjump'.avoids hmoves' hbegins'.call.ge ?_).trans
      (hrun''.trans (hjump''.avoids hmoves'' hbegins''.call.ge ?_)))
    · simp
    · simp
    · simp
  exact ⟨t, _, .jumps hrun List.mem_cons_self hjump hmoves (.avoids hbetween), hjump, hv',
    hbegins'', hx.atBlock test⟩

/-- Unless the limit is `Direction.extreme`, the body is begun with each value of the range, and
then the loop is left. -/
theorem trips (hlast : last ≠ direction.extreme) (hs : s.Begins depth blocks label)
    (hv : image.Counts place s v) (hbody : image.CompletesBody place depth label s) :
    ∃ visits t, image.Visits depth [label + 1, label + 3] s visits t
      ∧ image.JumpsTo depth (label + 3) t ∧ t.frame.blocks = blocks
      ∧ List.Forall₂ (fun t v => image.JumpsTo depth (label + 1) t ∧ image.Counts place t v)
        visits (direction.trips v last) := by
  -- by the numbers that are left to count
  induction hvalues : direction.trips v last generalizing s v with
  | nil =>
    have hend : direction.goesOn v last = false := by
      cases hmore : direction.goesOn v last with
      | false => rfl
      | true =>
        rw [Direction.trips_of_goesOn hmore hlast] at hvalues
        cases hvalues
    obtain ⟨t, hrun, hjump, -, hsame⟩ := h.test_begun hs hv [label + 1, label + 3]
    rw [if_neg (by simp [hend])] at hjump
    exact ⟨[], t, .avoids hrun, hjump, hsame, .nil⟩
  | cons first others ih =>
    have hmore : direction.goesOn v last = true := by
      cases hmore : direction.goesOn v last with
      | true => rfl
      | false =>
        rw [Direction.trips_of_not_goesOn hmore] at hvalues
        cases hvalues
    rw [Direction.trips_of_goesOn hmore hlast] at hvalues
    obtain ⟨rfl, hothers⟩ := List.cons.inj hvalues
    obtain ⟨t, u, hround, hjump, ht, hu, hnext⟩ := h.round hs hv hmore hbody
    obtain ⟨visits, w, hvisits, hdone, hsame, hall⟩ := ih hu hnext (hbody.visits hround) hothers
    exact ⟨t :: visits, w, hround.trans hvisits, hdone, hsame, .cons ⟨hjump, ht⟩ hall⟩

/-- If the limit is `Direction.extreme`, the body is begun again and again. -/
theorem endless (hlast : last = direction.extreme) (hs : s.Begins depth blocks label)
    (hv : image.Counts place s v) (hbody : image.CompletesBody place depth label s) (n : Nat) :
    ∃ visits t, image.Visits depth [label + 1, label + 3] s visits t ∧ visits.length = n
      ∧ ∀ t ∈ visits, image.JumpsTo depth (label + 1) t := by
  induction n generalizing s v with
  | zero => exact ⟨[], s, .avoids .refl, rfl, List.forall_mem_nil _⟩
  | succ n ih =>
    have hmore : direction.goesOn v last = true := hlast ▸ direction.goesOn_extreme v
    obtain ⟨t, u, hround, hjump, -, hu, hnext⟩ := h.round hs hv hmore hbody
    obtain ⟨visits, w, hvisits, hlength, hall⟩ := ih hu hnext (hbody.visits hround)
    refine ⟨t :: visits, w, hround.trans hvisits, congrArg (· + 1) hlength, ?_⟩
    exact List.forall_mem_cons.mpr ⟨hjump, hall⟩

end IsForLoop

end Oberon
