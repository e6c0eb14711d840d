import Oberon.Machine.Run

/-!
# Where faults come from

Which faults a run can end with, for programs of any kind. Operations on values and memory have
faults of their own, which say nothing of functions, blocks or fuel (`Fault.OfData`). An access to
memory adds the crash on a value that is too wide (`Fault.OfAccess`), a call the faults of the
function it looks for (`Fault.OfCall`), and a step those of the block where it stands
(`Fault.OfStep`). Each fault that is added comes with what is wrong with the program, so that a
program without that defect cannot have it.
-/

namespace Oberon

open Code

/-- The type of the value that an instruction takes out of memory, or puts there. -/
def Code.Instr.access? : Instr → Option Ty
  | .load _ ty _ => some ty
  | .store value _ => some value.ty
  | _ => none

/-- A program with an instruction that takes a value of `count` bytes out of memory, or puts one
there. -/
def Code.Program.Accesses (p : Program) (count : Nat) : Prop :=
  ∃ g ∈ p.functions, ∃ b ∈ g.blocks, ∃ i ∈ b.instrs, ∃ ty,
    i.access? = some ty ∧ ty.size? = some count

namespace Machine

/-! ## Computations and their faults -/

/-- A computation that fails, if it fails, with a fault of the kind `P`. -/
def FaultsIn {α : Type} (P : Fault → Prop) (x : Except Fault α) : Prop :=
  ∀ ⦃e⦄, x = .error e → P e

namespace FaultsIn

variable {α β : Type} {P Q : Fault → Prop} {x : Except Fault α}

/-- A result is no fault, so `FaultsIn` holds of it for any `P`. -/
theorem ok (a : α) : FaultsIn P (.ok a) :=
  nofun

theorem error {e : Fault} (h : P e) : FaultsIn P (.error e : Except Fault α) := by
  intro e' he
  obtain rfl := Except.error.inj he
  exact h

/-- `FaultsIn P` of a sequence follows from that of its parts. -/
theorem bind {f : α → Except Fault β} (hx : FaultsIn P x) (hf : ∀ a, FaultsIn P (f a)) :
    FaultsIn P (x >>= f) := by
  intro e he
  cases hval : x with
  | error e' =>
    rw [hval] at he
    obtain rfl := Except.error.inj he
    exact hx hval
  | ok a =>
    rw [hval] at he
    exact hf a he

/-- A wider class than `P` contains the same faults. -/
theorem mono (hx : FaultsIn P x) (h : ∀ {e}, P e → Q e) : FaultsIn Q x := by
  intro e he
  exact h (hx he)

end FaultsIn

/-! ## Data -/

/-- A fault that has to do with values and memory only. What has no meaning is reported in words;
the reports about blocks are those that begin with this letter. -/
inductive Fault.OfData : Fault → Prop
  | divisionByZero : OfData .divisionByZero
  | indexOutOfRange (index : Int64) : OfData (.indexOutOfRange index)
  | badAddress (address : Nat) : OfData (.badAddress address)
  | outOfMemory (limit : Nat) : OfData (.outOfMemory limit)
  | malformed {reason : String} (h : reason.toList.head? ≠ some 'b') : OfData (.malformed reason)

/-- A fault of reading or writing a value of type `ty`: one of data, or that it has more bytes than
the machine puts into a word. -/
inductive Fault.OfAccess (ty : Ty) : Fault → Prop
  | data {e : Fault} (h : e.OfData) : OfAccess ty e
  | crash {count : Nat} (hty : ty.size? = some count) (hcount : 8 < count) :
    OfAccess ty (.crash count)

/-- A value of at most eight bytes is accessed without a crash: what is left of `Fault.OfAccess` are
the faults of data. -/
theorem Fault.OfAccess.ofData {ty : Ty} {e : Fault} (h : e.OfAccess ty) {count : Nat}
    (hty : ty.size? = some count) (hcount : count ≤ 8) : e.OfData := by
  cases h with
  | data h => exact h
  | @crash more hmore hlt =>
    obtain rfl := Option.some.inj (hty.symm.trans hmore)
    omega

namespace Memory

variable (m : Memory)

/-- `Memory.check` finds an address outside of memory, and nothing else. -/
theorem check_faults (address count : Nat) : FaultsIn Fault.OfData (m.check address count) := by
  unfold check
  split
  · exact .ok _
  · exact .error (.badAddress _)

/-- `Memory.allocate` fails for a type without a size or where memory ends. -/
theorem allocate_faults (ty : Ty) : FaultsIn Fault.OfData (m.allocate ty) := by
  unfold allocate
  dsimp only
  split
  · exact .error (.outOfMemory _)
  · split
    · exact .ok _
    · exact .error (.outOfMemory _)

/-- `Memory.checkWord` is the only part of an access that can crash, and only if the type has
`count` bytes. -/
theorem checkWord_faults {ty : Ty} {count : Nat} (h : ty.size? = some count) (address : Nat) :
    FaultsIn (Fault.OfAccess ty) (m.checkWord address count) := by
  refine .bind ((m.check_faults address count).mono .data) fun _ => ?_
  split
  · exact .ok _
  · exact .error (.crash h (by omega))

/-- `Memory.read` has the faults of an access of its type. -/
theorem read_faults (ty : Ty) (address : Nat) :
    FaultsIn (Fault.OfAccess ty) (m.read ty address) := by
  have hword : FaultsIn (Fault.OfAccess ty) (m.check address 8) :=
    (m.check_faults address 8).mono .data
  cases ty with
  | void => exact .error (.data (.malformed (by simp [Ty.text])))
  | int bits => exact .bind (m.checkWord_faults rfl address) fun _ => .ok _
  | real => exact .bind hword fun _ => .ok _
  | ptr => exact .bind hword fun _ => .ok _
  | array length element => exact .error (.data (.malformed (by simp)))

/-- `Memory.write` has the faults of an access of its type, whatever the value. -/
theorem write_faults (ty : Ty) (address : Nat) (value : Scalar) :
    FaultsIn (Fault.OfAccess ty) (m.write ty address value) := by
  unfold write
  cases hty : ty.size? with
  | none => exact .error (.data (.badAddress _))
  | some count => exact .bind (m.checkWord_faults hty address) fun _ => .ok _

theorem copy_faults (destination source count : Nat) :
    FaultsIn Fault.OfData (m.copy destination source count) :=
  .bind (m.check_faults _ _) fun _ => .bind (m.check_faults _ _) fun _ => .ok _

/-- `Memory.string` fails where no byte 0 ends the text. -/
theorem string_faults (address : Nat) : FaultsIn Fault.OfData (m.string address) := by
  refine .bind (m.check_faults _ _) fun _ => ?_
  split
  · exact .ok _
  · exact .error (.badAddress _)

end Memory

theorem integerOp_faults (op : BinOp) (lhs rhs : Int64) :
    FaultsIn Fault.OfData (integerOp op lhs rhs) := by
  have hdivided (value : Int64) : FaultsIn Fault.OfData
      (if rhs = 0 then .error .divisionByZero else .ok value) := by
    split
    · exact .error .divisionByZero
    · exact .ok _
  cases op with
  | sdiv => exact hdivided _
  | srem => exact hdivided _
  | fadd => exact .error (.malformed (by simp))
  | fsub => exact .error (.malformed (by simp))
  | fmul => exact .error (.malformed (by simp))
  | fdiv => exact .error (.malformed (by simp))
  | _ => exact .ok _

theorem realOp_faults (op : BinOp) (lhs rhs : Double) :
    FaultsIn Fault.OfData (realOp op lhs rhs) := by
  unfold realOp
  split
  case h_5 => exact .error (.malformed (by simp))
  all_goals exact .ok _

/-- `binary` fails by a division by zero, or for operands of the wrong kind. -/
theorem binary_faults (op : BinOp) (bits : Nat) (lhs rhs : Scalar) :
    FaultsIn Fault.OfData (binary op bits lhs rhs) := by
  cases lhs with
  | int a =>
    cases rhs with
    | int b => exact .bind (integerOp_faults op a b) fun _ => .ok _
    | real b => exact .error (.malformed (by simp))
  | real a =>
    cases rhs with
    | int b => exact .error (.malformed (by simp))
    | real b => exact .bind (realOp_faults op a b) fun _ => .ok _

/-- `stride` fails for a type without a size. -/
theorem stride_faults (ty : Ty) : FaultsIn Fault.OfData (stride ty) := by
  unfold stride
  split
  · exact .ok _
  · exact .error (.malformed (by simp))

theorem elementOffset_faults (ty : Ty) (indices : List Int64) :
    FaultsIn Fault.OfData (elementOffset ty indices) := by
  fun_induction elementOffset ty indices with
  | case1 => exact .ok _
  | case2 => exact .error (.indexOutOfRange _)
  | case3 length element index rest _ ih =>
    exact .bind (stride_faults element) fun _ => .bind ih fun _ => .ok _
  | case4 => exact .error (.malformed (by simp))

/-- `elementAddress` fails as `stride` and `elementOffset` do; an address out of bounds is found
when it is accessed. -/
theorem elementAddress_faults (ty : Ty) (base : Int64) (indices : List Int64) :
    FaultsIn Fault.OfData (elementAddress ty base indices) := by
  cases indices with
  | nil => exact .ok _
  | cons first rest =>
    exact .bind (stride_faults ty) fun _ => .bind (elementOffset_faults ty rest) fun _ => .ok _

/-! ## Printing and reading -/

/-- `convert` may miss its argument or find one of another kind. -/
theorem convert_faults (m : Memory) (conversion : UInt8) (argument : Option Scalar) :
    FaultsIn Fault.OfData (convert m conversion argument) := by
  have hmismatch : FaultsIn Fault.OfData
      (.error (.malformed "printf argument does not match its format") : Except Fault String) :=
    .error (.malformed (by simp))
  unfold convert
  split
  · split
    · exact .ok _
    · split
      · exact .bind (m.string_faults _) fun _ => .ok _
      · exact hmismatch
  · split
    · exact .ok _
    · exact hmismatch
  · exact hmismatch

/-- `format` has the faults of its conversions. -/
theorem format_faults (m : Memory) (printed : ByteArray) (pending : Bool) (text : List UInt8)
    (arguments : List Scalar) :
    FaultsIn Fault.OfData (format m printed pending text arguments) := by
  induction text generalizing printed pending arguments with
  | nil => exact .ok _
  | cons b rest ih =>
    rw [format]
    repeat' split
    · exact ih _ _ _
    · exact ih _ _ _
    · exact ih _ _ _
    · exact ih _ _ _
    · exact .bind (convert_faults _ _ _) fun _ => ih _ _ _

/-- All that `parse?` reads takes eight bytes, so storing it does not crash. -/
theorem size?_of_parse? {conversion : Option UInt8} {word : String} {ty : Ty} {x : Scalar}
    (h : parse? conversion word = some (ty, x)) : ty.size? = some 8 := by
  unfold parse? at h
  split at h
  · obtain ⟨n, -, hn⟩ := Option.map_eq_some_iff.mp h
    obtain ⟨rfl, -⟩ := Prod.mk.inj hn
    rfl
  · split at h
    · obtain ⟨r, -, hr⟩ := Option.map_eq_some_iff.mp h
      obtain ⟨rfl, -⟩ := Prod.mk.inj hr
      rfl
    · exact nomatch h

/-- `readOne` stores what it has parsed, by `size?_of_parse?` without a crash. -/
theorem readOne_faults (w : World) (assigned : Nat) (conversion : Option UInt8)
    (argument : Option Scalar) :
    FaultsIn Fault.OfData (readOne w assigned conversion argument) := by
  unfold readOne
  split
  · split
    · exact .ok _
    · split
      · exact .ok _
      · rename_i ty value hparse
        refine .bind ((w.memory.write_faults ty _ value).mono fun h => ?_) fun _ => .ok _
        exact h.ofData (size?_of_parse? hparse) (Nat.le_refl 8)
  · exact .error (.malformed (by simp))

theorem readFormat_faults (w : World) (assigned : Nat) (pending : Bool) (text : List UInt8)
    (arguments : List Scalar) :
    FaultsIn Fault.OfData (readFormat w assigned pending text arguments) := by
  induction text generalizing w assigned pending arguments with
  | nil =>
    rw [readFormat]
    split
    · refine .bind (readOne_faults _ _ _ _) fun reading => ?_
      cases reading <;> exact .ok _
    · exact .ok _
  | cons b rest ih =>
    rw [readFormat]
    repeat' split
    · exact ih _ _ _ _
    · exact ih _ _ _ _
    · refine .bind (readOne_faults _ _ _ _) fun reading => ?_
      cases reading with
      | stop result w => exact .ok _
      | stored w => exact ih _ _ _ _

/-- The functions that the machine provides. -/
def provided : List String := [printfName, scanfName, putsName]

/-- `primitive` does not know a function that the machine does not provide; any other one has faults
of data. -/
theorem primitive_faults (w : World) (name : String) (arguments : List Scalar) :
    FaultsIn (fun e => e.OfData ∨ e = .unknownFunction name ∧ name ∉ provided)
      (primitive w name arguments) := by
  have hdata {α : Type} {x : Except Fault α} (h : FaultsIn Fault.OfData x) :
      FaultsIn (fun e => e.OfData ∨ e = .unknownFunction name ∧ name ∉ provided) x :=
    h.mono .inl
  -- the names are tried in the order of the definition; what is left is none of the provided ones
  unfold primitive
  split
  · refine .bind (hdata (w.memory.string_faults _)) fun text => ?_
    by_cases hprintf : name = printfName
    · rw [if_pos hprintf]
      exact hdata (.bind (format_faults _ _ _ _ _) fun _ => .ok _)
    · rw [if_neg hprintf]
      by_cases hscanf : name = scanfName
      · rw [if_pos hscanf]
        exact hdata (.bind (readFormat_faults _ _ _ _ _) fun _ => .ok _)
      · rw [if_neg hscanf]
        by_cases hputs : name = putsName
        · rw [if_pos hputs]
          exact .ok _
        · rw [if_neg hputs]
          refine .error (.inr ⟨rfl, ?_⟩)
          simp [provided, hprintf, hscanf, hputs]
  · exact hdata (.error (.malformed (by simp [toString])))

/-! ## Operands -/

namespace Image

variable (image : Image) (f : Frame)

/-- `Image.value` fails for a temporary, parameter, global or string constant that is not there. -/
theorem value_faults (operand : Value) : FaultsIn Fault.OfData (image.value f operand) := by
  unfold value
  split
  · exact .ok _
  · exact .ok _
  · exact .ok _
  · split
    · exact .ok _
    · exact .error (.malformed (by simp [toString]))
  · split
    · exact .ok _
    · exact .error (.malformed (by simp [toString]))
  all_goals
    split
    · exact .ok _
    · exact .error (.malformed (by simp [toString]))

theorem int_faults (operand : Value) : FaultsIn Fault.OfData (image.int f operand) := by
  unfold int
  split
  · exact .ok _
  · exact .error (.malformed (by simp))
  · rename_i e he
    exact .error (image.value_faults f operand he)

theorem real_faults (operand : Value) : FaultsIn Fault.OfData (image.real f operand) := by
  unfold real
  split
  · exact .ok _
  · exact .error (.malformed (by simp))
  · rename_i e he
    exact .error (image.value_faults f operand he)

theorem values_faults (operands : List Value) :
    FaultsIn Fault.OfData (image.values f operands) := by
  induction operands with
  | nil => exact .ok _
  | cons operand rest ih =>
    exact .bind (image.value_faults f operand) fun _ => .bind ih fun _ => .ok _

theorem ints_faults (operands : List Value) : FaultsIn Fault.OfData (image.ints f operands) := by
  induction operands with
  | nil => exact .ok _
  | cons operand rest ih =>
    exact .bind (image.int_faults f operand) fun _ => .bind ih fun _ => .ok _

/-- `Image.cast` fails for an operand of the wrong kind. -/
theorem cast_faults (op : CastOp) (operand : Value) (into : Ty) :
    FaultsIn Fault.OfData (image.cast f op operand into) := by
  cases op with
  | fptosi => exact .bind (image.real_faults f operand) fun _ => .ok _
  | _ => exact .bind (image.int_faults f operand) fun _ => .ok _

end Image

/-! ## Calls -/

/-- A fault of a call of `target`, with what is wrong about the function that it asks for. -/
inductive Fault.OfCall (p : Program) (target : String) : Fault → Prop
  | data {e : Fault} (h : e.OfData) : OfCall p target e
  | tooDeep : OfCall p target (.stackOverflow maxDepth)
  /-- The program has no such function. -/
  | unknown (h : p.function? target = none) : OfCall p target (.unknownFunction target)
  /-- The function is only declared, and the machine does not provide it. -/
  | missing {g : Function} (h : p.function? target = some g) (hbody : g.body = .external)
    (hname : g.name ∉ provided) : OfCall p target (.unknownFunction g.name)
  /-- The function has no block to start at. -/
  | empty {g : Function} {blocks : Array Block} (h : p.function? target = some g)
    (hbody : g.body = .blocks blocks) (hempty : blocks.size = 0) :
    OfCall p target (Frame.missingBlock g.name)

/-- `Frame.enter` finds a function without blocks; its fault names the function that was called. -/
theorem Frame.enter_faults {p : Program} {target : String} {g : Function} {blocks : Array Block}
    (h : p.function? target = some g) (hbody : g.body = .blocks blocks) (arguments : List Scalar)
    (base : Nat) (out : Option Nat) :
    FaultsIn (Fault.OfCall p target) (Frame.enter g.name blocks arguments base out) := by
  unfold Frame.enter
  split
  · exact .ok _
  · rename_i hnone
    refine .error (.empty h hbody ?_)
    have hsize := Array.getElem?_eq_none_iff.mp hnone
    omega

/-- `Image.call` fails as the evaluation of its arguments does, as a primitive does, or because
there is no such function. -/
theorem Image.call_faults (image : Image) (s : State) (out : Option Nat) (target : String)
    (arguments : List Value) :
    FaultsIn (Fault.OfCall image.program target) (image.call s out target arguments) := by
  unfold Image.call
  cases hfound : image.program.function? target with
  | none => exact .error (.unknown hfound)
  | some g =>
    refine .bind ((image.values_faults s.frame arguments).mono .data) fun xs => ?_
    cases hbody : g.body with
    | external =>
      refine .bind ((primitive_faults s.world g.name xs).mono ?_) fun _ => .ok _
      rintro e (hdata | ⟨rfl, hname⟩)
      · exact .data hdata
      · exact .missing hfound hbody hname
    | blocks blocks =>
      dsimp only
      split
      · exact .error .tooDeep
      · exact .bind (Frame.enter_faults hfound hbody _ _ _) fun _ => .ok _

/-! ## Instructions -/

/-- A fault of an instruction: one of data, of its access to memory, `access?`, or of its call. -/
inductive Fault.OfInstr (p : Program) (i : Instr) : Fault → Prop
  | data {e : Fault} (h : e.OfData) : OfInstr p i e
  | access {e : Fault} {ty : Ty} (hi : i.access? = some ty) (h : e.OfAccess ty) : OfInstr p i e
  | call {e : Fault} {out : Option Nat} {target : String} {result : Ty} {arguments : List Value}
    (hi : i = .call out target result arguments) (h : e.OfCall p target) : OfInstr p i e

/-- The faults of `Image.execute` are those of its instruction, `Fault.OfInstr`. -/
theorem Image.execute_faults (image : Image) (s : State) (i : Instr) :
    FaultsIn (Fault.OfInstr image.program i) (image.execute s i) := by
  have hdata {α : Type} {x : Except Fault α} (h : FaultsIn Fault.OfData x) :
      FaultsIn (Fault.OfInstr image.program i) x :=
    h.mono .data
  have hvalue := image.value_faults s.frame
  have hint := image.int_faults s.frame
  have hreal := image.real_faults s.frame
  cases i with
  | alloca out ty => exact hdata (.bind (s.world.memory.allocate_faults ty) fun _ => .ok _)
  | load out ty address =>
    exact .bind (hdata (hint _)) fun _ =>
      .bind ((s.world.memory.read_faults ty _).mono (.access rfl)) fun _ => .ok _
  | store value address =>
    exact .bind (hdata (hint _)) fun _ => .bind (hdata (hvalue _)) fun _ =>
      .bind ((s.world.memory.write_faults value.ty _ _).mono (.access rfl)) fun _ => .ok _
  | binary out op lhs rhs =>
    exact hdata (.bind (hvalue _) fun _ => .bind (hvalue _) fun _ =>
      .bind (binary_faults _ _ _ _) fun _ => .ok _)
  | fneg out value => exact hdata (.bind (hreal _) fun _ => .ok _)
  | icmp out predicate lhs rhs =>
    exact hdata (.bind (hint _) fun _ => .bind (hint _) fun _ => .ok _)
  | fcmp out predicate lhs rhs =>
    exact hdata (.bind (hreal _) fun _ => .bind (hreal _) fun _ => .ok _)
  | cast out op value into => exact hdata (.bind (image.cast_faults _ _ _ _) fun _ => .ok _)
  | element out base address indices =>
    exact hdata (.bind (hint _) fun _ => .bind (image.ints_faults _ _) fun _ =>
      .bind (elementAddress_faults _ _ _) fun _ => .ok _)
  | call out target result arguments =>
    exact (image.call_faults s out target arguments).mono (.call rfl)
  | copy destination source bytes =>
    exact hdata (.bind (hint _) fun _ => .bind (hint _) fun _ =>
      .bind (s.world.memory.copy_faults _ _ _) fun _ => .ok _)

/-! ## Steps -/

/-- A fault of `Image.step`, with what is wrong about the code where the frame stands. -/
inductive Fault.OfStep (p : Program) (f : Frame) : Fault → Prop
  | data {e : Fault} (h : e.OfData) : OfStep p f e
  | instr {e : Fault} {i : Instr} {rest : List Instr} (hrest : f.rest = i :: rest)
    (h : e.OfInstr p i) : OfStep p f e
  | unterminated (h : f.block.terminator = none) :
    OfStep p f (.malformed ("block `" ++ f.block.name ++ "` has no terminator"))
  | dangling {t : Terminator} {label : Nat} (h : f.block.terminator = some t)
    (htarget : label ∈ t.successors) (hlabel : f.blocks.size ≤ label) :
    OfStep p f (Frame.missingBlock f.function)

/-- `Frame.jump` fails only if the block to which the terminator leads is missing. -/
theorem Frame.jump_faults {p : Program} {f : Frame} {t : Terminator} {label : Nat}
    (h : f.block.terminator = some t) (htarget : label ∈ t.successors) :
    FaultsIn (Fault.OfStep p f) (f.jump label) := by
  unfold Frame.jump
  split
  · exact .ok _
  · rename_i hnone
    exact .error (.dangling h htarget (Array.getElem?_eq_none_iff.mp hnone))

/-- `Image.leave` fails only by a value that the caller expects and does not get. -/
theorem Image.leave_faults (s : State) (value : Option Scalar) :
    FaultsIn Fault.OfData (Image.leave s value) := by
  unfold Image.leave
  dsimp only
  split
  · exact .ok _
  · split
    · exact .ok _
    · exact .ok _
    · exact .error (.malformed (by simp))

/-- `Image.terminate` fails where the block has no terminator, or as its terminator does. -/
theorem Image.terminate_faults (image : Image) (s : State) :
    FaultsIn (Fault.OfStep image.program s.frame) (image.terminate s) := by
  unfold Image.terminate
  split
  · rename_i hnone
    exact .error (.unterminated hnone)
  · rename_i target hterm
    exact .bind (Frame.jump_faults hterm (by simp [Terminator.successors])) fun _ => .ok _
  · rename_i condition onTrue onFalse hterm
    refine .bind ((image.int_faults _ _).mono .data) fun n => ?_
    refine .bind (Frame.jump_faults hterm ?_) fun _ => .ok _
    split <;> simp [Terminator.successors]
  · exact (Image.leave_faults s none).mono .data
  · exact .bind ((image.value_faults _ _).mono .data) fun x => (Image.leave_faults s x).mono .data

/-- Every fault of `Image.step` is one of the instruction that it runs, or of the end of its
block. -/
theorem Image.step_faults (image : Image) (s : State) :
    FaultsIn (Fault.OfStep image.program s.frame) (image.step s) := by
  unfold Image.step
  cases hrest : s.frame.rest with
  | nil => exact image.terminate_faults s
  | cons i rest =>
    exact .bind ((image.execute_faults _ i).mono (.instr hrest)) fun _ => .ok _

/-! ## The start of a run -/

theorem loadGlobals_faults (globals : List Global) (loaded : Memory × List (String × Nat)) :
    FaultsIn Fault.OfData (loadGlobals globals loaded) := by
  induction globals generalizing loaded with
  | nil => exact .ok _
  | cons g rest ih =>
    exact .bind (loaded.1.allocate_faults g.ty) fun _ => ih _

/-- `load` fails if a global has no size or memory is too small, before any step. -/
theorem load_faults (p : Program) : FaultsIn Fault.OfData (load p) :=
  .bind (loadGlobals_faults _ _) fun _ => .ok _

/-- `start` is a call of the entry function, and has the faults of one. -/
theorem start_faults (p : Program) (w : World) :
    FaultsIn (Fault.OfCall p entryName) (start p w) := by
  unfold start
  cases hfound : p.function? entryName with
  | none => exact .error (.unknown hfound)
  | some g =>
    dsimp only
    cases hbody : g.body with
    | external =>
      refine .bind ((primitive_faults w g.name []).mono ?_) fun _ => .ok _
      rintro e (hdata | ⟨rfl, hname⟩)
      · exact .data hdata
      · exact .missing hfound hbody hname
    | blocks blocks => exact .bind (Frame.enter_faults hfound hbody _ _ _) fun _ => .ok _

/-! ## Fuel -/

/-- No fault of data says that fuel has run out; `outOfFuel` comes from the loop around the
steps. -/
theorem Fault.OfData.ne_outOfFuel {e : Fault} (h : e.OfData) (budget : Nat) :
    e ≠ .outOfFuel budget := by
  rintro rfl
  cases h

theorem Fault.OfCall.ne_outOfFuel {p : Program} {target : String} {e : Fault}
    (h : e.OfCall p target) (budget : Nat) : e ≠ .outOfFuel budget := by
  cases h with
  | data h => exact h.ne_outOfFuel budget
  | tooDeep => exact nofun
  | unknown => exact nofun
  | missing => exact nofun
  | empty => exact nofun

theorem Fault.OfInstr.ne_outOfFuel {p : Program} {i : Instr} {e : Fault} (h : e.OfInstr p i)
    (budget : Nat) : e ≠ .outOfFuel budget := by
  cases h with
  | data h => exact h.ne_outOfFuel budget
  | access _ h =>
    cases h with
    | data h => exact h.ne_outOfFuel budget
    | crash => exact nofun
  | call _ h => exact h.ne_outOfFuel budget

/-- No step runs out of fuel: `outOfFuel` is not among the faults `OfStep`. -/
theorem Fault.OfStep.ne_outOfFuel {p : Program} {f : Frame} {e : Fault} (h : e.OfStep p f)
    (budget : Nat) : e ≠ .outOfFuel budget := by
  cases h with
  | data h => exact h.ne_outOfFuel budget
  | instr _ h => exact h.ne_outOfFuel budget
  | unterminated => exact nofun
  | dangling => exact nofun

/-! ## Crashes -/

/-- A call never ends in `crash`: what the machine provides stores eight bytes at a time. -/
theorem Fault.OfCall.ne_crash {p : Program} {target : String} {e : Fault} (h : e.OfCall p target)
    (count : Nat) : e ≠ .crash count := by
  rintro rfl
  cases h with
  | data h => cases h

/-- A step ends in `crash` only at an instruction that loads or stores more than eight bytes. -/
theorem Fault.OfStep.exists_access {p : Program} {f : Frame} {count : Nat}
    (h : (Fault.crash count).OfStep p f) :
    8 < count ∧ ∃ i rest ty, f.rest = i :: rest ∧ i.access? = some ty ∧ ty.size? = some count := by
  cases h with
  | data h => cases h
  | instr hrest h =>
    cases h with
    | data h => cases h
    | call _ h => exact absurd rfl (h.ne_crash count)
    | access hi h =>
      cases h with
      | data h => cases h
      | crash hty hcount => exact ⟨hcount, _, _, _, hrest, hi, hty⟩

end Machine
end Oberon
