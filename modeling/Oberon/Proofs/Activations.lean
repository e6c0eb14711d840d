import Oberon.Proofs.Confinement

/-!
# Calls under way

What a step does to each call that is under way. A call is told from the others by its depth, the
number of calls that wait for it. A step has it perform an instruction, jump or take a result, or it
leaves it as it is (`Frame.Goes`). So what holds of a call when it is entered and is kept by these
three holds of all calls of a run. What one call does from its start on is a list of instructions
(`Image.Performs`), and a list of the jumps that it makes to some blocks (`Image.Visits`).
-/

namespace Oberon.Machine

open Code Relation

section

variable (f : Frame) (out : Option Nat) (x : Scalar)

@[simp] theorem Frame.block_set? : (f.set? out x).block = f.block := by
  cases out <;> rfl

@[simp] theorem Frame.rest_set? : (f.set? out x).rest = f.rest := by
  cases out <;> rfl

end

/-- `Frame.jump` goes to the start of a block of the same function. -/
theorem Frame.jump_eq_ok {f g : Frame} {label : Nat} (h : f.jump label = .ok g) :
    ∃ block, f.blocks[label]? = some block ∧ g = { f with block, rest := block.instrs } := by
  unfold Frame.jump at h
  split at h
  · rename_i block hblock
    exact ⟨block, hblock, (Except.ok.inj h).symm⟩
  · cases h

/-- `Frame.enter` goes to the start of the first block, with no temporaries. -/
theorem Frame.enter_eq_ok {function : String} {blocks : Array Block} {arguments : List Scalar}
    {base : Nat} {out : Option Nat} {f : Frame}
    (h : Frame.enter function blocks arguments base out = .ok f) :
    ∃ block, blocks[0]? = some block
      ∧ f = { function, blocks, arguments, base, out, block, rest := block.instrs } := by
  unfold Frame.enter at h
  split at h
  · rename_i block hblock
    exact ⟨block, hblock, (Except.ok.inj h).symm⟩
  · cases h

/-! ## Jumps -/

/-- The block to which the next step jumps, by a `jump` or a `branch`, if it does. -/
def Image.target? (image : Image) (s : State) : Option Nat :=
  match s.frame.rest, s.frame.block.terminator with
  | [], some (.jump label) => some label
  | [], some (.branch condition onTrue onFalse) =>
    match image.int s.frame condition with
    | .ok n => some (if n = 0 then onFalse else onTrue)
    | .error _ => none
  | _, _ => none

section

variable {image : Image} {s t : State} {label : Nat}

/-- A call with code left does not jump: it has no `target?`. -/
theorem Image.target?_of_cons {i : Instr} {rest : List Instr} (h : s.frame.rest = i :: rest) :
    image.target? s = none := by
  rw [Image.target?, h]

theorem Image.target?_jump (hrest : s.frame.rest = [])
    (hterm : s.frame.block.terminator = some (.jump label)) : image.target? s = some label := by
  rw [Image.target?, hrest, hterm]

/-- The `target?` of a branch depends on its condition. -/
theorem Image.target?_branch {condition : Value} {onTrue onFalse : Nat} {n : Int64}
    (hrest : s.frame.rest = [])
    (hterm : s.frame.block.terminator = some (.branch condition onTrue onFalse))
    (hn : image.int s.frame condition = .ok n) :
    image.target? s = some (if n = 0 then onFalse else onTrue) := by
  rw [Image.target?, hrest, hterm]
  simp only [hn]

/-- A step with a `target?` takes the call to the start of the block. -/
theorem Image.step_of_target? (h : image.target? s = some label) :
    image.step s = (s.frame.jump label).map fun frame => .running { s with frame } := by
  unfold Image.target? at h
  split at h
  · rename_i label' hrest hterm
    obtain rfl := Option.some.inj h
    rw [Image.step, hrest]
    simp only [Image.terminate, hterm]
    cases s.frame.jump label' <;> rfl
  · rename_i condition onTrue onFalse hrest hterm
    cases hn : image.int s.frame condition with
    | error e =>
      rw [hn] at h
      cases h
    | ok n =>
      rw [hn] at h
      obtain rfl := Option.some.inj h
      rw [Image.step, hrest]
      simp only [Image.terminate, hterm, hn]
      show (s.frame.jump _ >>= _) = _
      cases s.frame.jump (if n = 0 then onFalse else onTrue) <;> rfl
  · cases h

/-- A call with a `target?` stands at the end of a block that leads to the other one. -/
theorem Image.exists_of_target? (h : image.target? s = some label) :
    s.frame.rest = [] ∧ ∃ term, s.frame.block.terminator = some term ∧ label ∈ term.successors := by
  unfold Image.target? at h
  split at h
  · rename_i hrest hterm
    exact ⟨hrest, _, hterm, List.mem_singleton.mpr (Option.some.inj h).symm⟩
  · rename_i condition onTrue onFalse hrest hterm
    refine ⟨hrest, _, hterm, ?_⟩
    split at h
    · obtain rfl := Option.some.inj h
      split <;> simp [Terminator.successors]
    · cases h
  · cases h

/-- At the end of a block that leads to others, a step of `Image.Moves` is a jump. -/
theorem Image.Moves.exists_target? (h : image.Moves s t) {term : Terminator}
    (hrest : s.frame.rest = []) (hterm : s.frame.block.terminator = some term)
    (hlabel : label ∈ term.successors) : ∃ target, image.target? s = some target := by
  cases term with
  | ret value => cases hlabel
  | jump target => exact ⟨target, Image.target?_jump hrest hterm⟩
  | branch condition onTrue onFalse =>
    cases hn : image.int s.frame condition with
    | ok n => exact ⟨_, Image.target?_branch hrest hterm hn⟩
    | error e =>
      unfold Image.Moves at h
      rw [Image.step, hrest] at h
      simp only [Image.terminate, hterm, hn] at h
      cases h

/-- A step with a `target?` changes nothing but the place in the current call. -/
theorem Image.Moves.jump_eq_ok (h : image.Moves s t) (htarget : image.target? s = some label) :
    s.frame.jump label = .ok t.frame ∧ t = { s with frame := t.frame } := by
  unfold Image.Moves at h
  rw [Image.step_of_target? htarget] at h
  cases hjump : s.frame.jump label with
  | error e =>
    rw [hjump] at h
    cases h
  | ok frame =>
    rw [hjump] at h
    obtain rfl := Progress.running.inj (Except.ok.inj h)
    exact ⟨rfl, rfl⟩

end

/-! ## Steps of a call -/

/-- A call that begins: it is what `Frame.enter` makes of a function of the program. -/
def Frame.IsEntered (p : Program) (f : Frame) : Prop :=
  ∃ g ∈ p.functions, ∃ blocks arguments base out, g.body = .blocks blocks
    ∧ Frame.enter g.name blocks arguments base out = .ok f

/-- A step of one call, with the instruction that it performs or the block to which it jumps, if
any. -/
inductive Frame.Goes (f : Frame) : List Instr → Option Nat → Frame → Prop
  /-- It waits, and takes the result if a call that it made returns. -/
  | waits (out : Option Nat) (x : Scalar) : Goes f [] none (f.set? out x)
  | performs {i : Instr} {rest : List Instr} (hrest : f.rest = i :: rest) (out : Option Nat)
    (x : Scalar) : Goes f [i] none (({ f with rest } : Frame).set? out x)
  | jumps {label : Nat} {g : Frame} {term : Terminator} (hjump : f.jump label = .ok g)
    (hrest : f.rest = []) (hterm : f.block.terminator = some term)
    (hlabel : label ∈ term.successors) : Goes f [] (some label) g

/-- A call that `Goes` on stays in its function. -/
theorem Frame.Goes.blocks {f g : Frame} {code : List Instr} {target : Option Nat}
    (h : f.Goes code target g) : g.blocks = f.blocks := by
  cases h with
  | waits out x => exact f.blocks_set? out x
  | performs hrest out x => exact Frame.blocks_set? _ out x
  | jumps hjump hrest hterm hlabel =>
    obtain ⟨block, -, rfl⟩ := Frame.jump_eq_ok hjump
    rfl

namespace State

/-- The call for which `depth` others wait below. -/
def callAt? (s : State) (depth : Nat) : Option Frame :=
  (s.frame :: s.callers).reverse[depth]?

/-- The instruction that the next step performs, if it is one of the call at this `depth`. -/
def performed (s : State) (depth : Nat) : List Instr :=
  if depth = s.callers.length then s.frame.rest.take 1 else []

/-- The block to which the next step jumps, if it is one of the call at this `depth`. -/
def jumped (image : Image) (s : State) (depth : Nat) : Option Nat :=
  if depth = s.callers.length then image.target? s else none

theorem getElem?_reverse_cons (f : Frame) (callers : List Frame) (depth : Nat) :
    (f :: callers).reverse[depth]?
      = if depth = callers.length then some f else callers.reverse[depth]? := by
  rw [List.reverse_cons]
  split
  · rename_i hdepth
    have hlength : callers.reverse.length = callers.length := List.length_reverse
    rw [hdepth, ← hlength]
    exact List.getElem?_concat_length
  · rename_i hdepth
    rcases Nat.lt_or_gt_of_ne hdepth with hlt | hgt
    · exact List.getElem?_append_left (by simpa using hlt)
    · rw [List.getElem?_eq_none (by simp; omega), List.getElem?_eq_none (by simp; omega)]

/-- `callAt?` counts from the entry call; the current call is the deepest one. -/
theorem callAt?_eq (s : State) (depth : Nat) :
    s.callAt? depth
      = if depth = s.callers.length then some s.frame else s.callers.reverse[depth]? :=
  getElem?_reverse_cons s.frame s.callers depth

theorem callAt?_self (s : State) : s.callAt? s.callers.length = some s.frame := by
  rw [callAt?_eq, if_pos rfl]

/-- `callAt?` of any other depth is a call that waits. -/
theorem callAt?_of_ne {s : State} {depth : Nat} (h : depth ≠ s.callers.length) :
    s.callAt? depth = s.callers.reverse[depth]? := by
  rw [callAt?_eq, if_neg h]

/-- A call that waits does nothing, which `Goes` allows for. -/
theorem waits_of_ne {s : State} {depth : Nat} (h : depth ≠ s.callers.length) (image : Image)
    (f : Frame) (out : Option Nat) (x : Scalar) :
    f.Goes (s.performed depth) (s.jumped image depth) (f.set? out x) := by
  rw [performed, jumped, if_neg h, if_neg h]
  exact .waits out x

theorem mem_callers_of_callAt? {s : State} {depth : Nat} {f : Frame}
    (h : s.callAt? depth = some f) : f ∈ s.frame :: s.callers :=
  List.mem_reverse.mp (List.mem_of_getElem? h)

end State

section

variable {image : Image} {s t : State} {depth : Nat} {f : Frame}

/-- A step in which the current call `Goes` on and no other call does anything. -/
theorem goes_of_current {g : Frame}
    (hgoes : s.frame.Goes (s.frame.rest.take 1) (image.target? s) g)
    (h : (g :: s.callers).reverse[depth]? = some f) :
    ∃ e, s.callAt? depth = some e ∧ e.Goes (s.performed depth) (s.jumped image depth) f := by
  rw [State.getElem?_reverse_cons] at h
  by_cases hdepth : depth = s.callers.length
  · subst hdepth
    rw [if_pos rfl] at h
    obtain rfl := Option.some.inj h
    refine ⟨s.frame, s.callAt?_self, ?_⟩
    rw [State.performed, State.jumped, if_pos rfl, if_pos rfl]
    exact hgoes
  · rw [if_neg hdepth] at h
    exact ⟨f, (State.callAt?_of_ne hdepth).trans h,
      State.waits_of_ne hdepth image f none (.int 0)⟩

theorem goes_of_cons {i : Instr} {rest : List Instr} (hrest : s.frame.rest = i :: rest)
    (out : Option Nat) (x : Scalar) :
    s.frame.Goes (s.frame.rest.take 1) (image.target? s)
      (({ s.frame with rest } : Frame).set? out x) := by
  rw [Image.target?_of_cons hrest, hrest]
  exact .performs hrest out x

/-- Whatever call is under way after a step of `Image.Moves` has gone on by it, or was entered. -/
theorem Image.Moves.goes (hmoves : image.Moves s t) (h : t.callAt? depth = some f) :
    (∃ e, s.callAt? depth = some e ∧ e.Goes (s.performed depth) (s.jumped image depth) f)
      ∨ (s.callers.length < depth ∧ f.IsEntered image.program) := by
  cases hmoves.advance with
  | executes hrest hcall hexec =>
    obtain ⟨w, x, rfl, -⟩ := Image.execute_eq hexec hcall
    exact .inl (goes_of_current (goes_of_cons hrest _ _) h)
  | answers hrest hfound hbody hxs hx =>
    exact .inl (goes_of_current (goes_of_cons hrest _ _) h)
  | jumps hjump hrest hterm hlabel =>
    obtain ⟨target, htarget⟩ := hmoves.exists_target? hrest hterm hlabel
    obtain ⟨-, term, hterm, hlabel⟩ := Image.exists_of_target? htarget
    refine .inl (goes_of_current ?_ h)
    rw [htarget, hrest]
    exact .jumps (hmoves.jump_eq_ok htarget).1 hrest hterm hlabel
  | @enters out target result arguments rest g blocks xs f' hrest hfound hbody hxs henter =>
    have h : (f' :: { s.frame with rest } :: s.callers).reverse[depth]? = some f := h
    rw [State.getElem?_reverse_cons, List.length_cons] at h
    by_cases hnew : depth = s.callers.length + 1
    · right
      rw [if_pos hnew] at h
      obtain rfl := Option.some.inj h
      exact ⟨by omega, g, List.mem_of_find?_eq_some hfound, blocks, xs, _, out, hbody, henter⟩
    · left
      rw [if_neg hnew] at h
      -- the call that was the current one waits for the new one
      exact goes_of_current (goes_of_cons hrest none (.int 0)) h
  | @returns value result x caller callers hrest hterm hresult hcallers hx =>
    left
    rw [State.callAt?_eq] at h
    have hlength : s.callers.length = callers.length + 1 := by rw [hcallers, List.length_cons]
    split at h
    · -- the caller goes on
      rename_i hdepth
      obtain rfl := Option.some.inj h
      have hdepth : depth = callers.length := hdepth
      have hne : depth ≠ s.callers.length := by omega
      refine ⟨caller, ?_, State.waits_of_ne hne image caller _ _⟩
      rw [State.callAt?_of_ne hne, hcallers, State.getElem?_reverse_cons, if_pos hdepth]
    · rename_i hdepth
      have hdepth : depth ≠ callers.length := hdepth
      have hlt : depth < callers.length := by
        have hbound := (List.getElem?_eq_some_iff.mp h).1
        rwa [List.length_reverse] at hbound
      have hne : depth ≠ s.callers.length := by omega
      refine ⟨f, ?_, State.waits_of_ne hne image f none (.int 0)⟩
      rw [State.callAt?_of_ne hne, hcallers, State.getElem?_reverse_cons, if_neg hdepth]
      exact h

end

/-- One call more is under way after a step: the current one begins, as `IsEntered` says. -/
theorem Image.Moves.isEntered {image : Image} {s t : State} (h : image.Moves s t)
    (hlt : s.callers.length < t.callers.length) : t.frame.IsEntered image.program := by
  rcases h.goes t.callAt?_self with ⟨e, he, -⟩ | ⟨-, hentered⟩
  · have hbound := (List.getElem?_eq_some_iff.mp he).1
    rw [List.length_reverse, List.length_cons] at hbound
    omega
  · exact hentered

/-! ## What all calls keep -/

/-- What is true of a call when it `IsEntered`, and kept when it `Goes` on. -/
structure Frame.IsKept (p : Program) (P : Frame → Prop) : Prop where
  entered : ∀ f, f.IsEntered p → P f
  goes : ∀ f code target g, P f → f.Goes code target g → P g

/-- What `IsKept` by calls is kept by each step, for all calls under way. -/
theorem Frame.IsKept.moves {P : Frame → Prop} {image : Image} {s t : State}
    (h : Frame.IsKept image.program P) (hs : ∀ f ∈ s.frame :: s.callers, P f)
    (hmoves : image.Moves s t) : ∀ f ∈ t.frame :: t.callers, P f := by
  intro f hf
  obtain ⟨depth, hdepth⟩ := List.mem_iff_getElem?.mp (List.mem_reverse.mpr hf)
  rcases hmoves.goes hdepth with ⟨e, he, hgoes⟩ | ⟨-, hentered⟩
  · exact h.goes e _ _ f (hs e (State.mem_callers_of_callAt? he)) hgoes
  · exact h.entered f hentered

/-- At any time of a run, what `IsKept` is true of all calls under way. -/
theorem Frame.IsKept.of_reaches {p : Program} {P : Frame → Prop} (h : Frame.IsKept p P)
    {input : String} {image : Image} {s : State} (hs : Reaches p input image s) :
    ∀ f ∈ s.frame :: s.callers, P f := by
  obtain ⟨m, first, hload, hstart, hmoves⟩ := hs
  obtain rfl := load_program hload
  induction hmoves with
  | refl =>
    obtain ⟨g, hfound, ⟨-, x, w, -, hhalted⟩ | ⟨blocks, f, hbody, henter, hprogress⟩⟩ :=
      start_ok hstart
    · cases hhalted
    · obtain rfl := Progress.running.inj hprogress
      refine List.forall_mem_singleton.mpr (h.entered f ?_)
      exact ⟨g, List.mem_of_find?_eq_some hfound, blocks, [], _, none, hbody, henter⟩
  | tail _ hstep ih => exact h.moves ih hstep

/-! ## What one call does -/

/-- A run during which the call at `depth` does not return, with the instructions that this call
performs. -/
inductive Image.Performs (image : Image) (depth : Nat) (s : State) : List Instr → State → Prop
  | refl : Performs image depth s [] s
  | tail {code : List Instr} {t u : State} (h : Performs image depth s code t)
    (hmoves : image.Moves t u) (hlive : depth ≤ u.callers.length) :
    Performs image depth s (code ++ t.performed depth) u

theorem State.exists_callAt? {s : State} {depth : Nat} (h : depth ≤ s.callers.length) :
    ∃ f, s.callAt? depth = some f := by
  refine ⟨_, List.getElem?_eq_getElem ?_⟩
  rw [List.length_reverse, List.length_cons]
  omega

/-- A call that is under way and does not return `Goes` on by a step. -/
theorem Image.Moves.goes_of_callAt? {image : Image} {s t : State} {depth : Nat} {e : Frame}
    (h : image.Moves s t) (he : s.callAt? depth = some e) (hlive : depth ≤ t.callers.length) :
    ∃ f, t.callAt? depth = some f ∧ e.Goes (s.performed depth) (s.jumped image depth) f := by
  obtain ⟨f, hf⟩ := State.exists_callAt? hlive
  rcases h.goes hf with ⟨e', he', hgoes⟩ | ⟨hlt, -⟩
  · obtain rfl := Option.some.inj (he.symm.trans he')
    exact ⟨f, hf, hgoes⟩
  · -- the call was there before, so it is not the one that was entered
    have hbound := (List.getElem?_eq_some_iff.mp he).1
    rw [List.length_reverse, List.length_cons] at hbound
    omega

/-- What holds of a call and of the instructions that it has performed is kept while it lasts, if it
is kept by what a call can do by `Goes`. -/
theorem Image.Performs.keeps {image : Image} {s t : State} {code : List Instr}
    {P : List Instr → Frame → Prop} (h : image.Performs s.callers.length s code t)
    (hs : P [] s.frame)
    (hgoes : ∀ code f i target g, P code f → f.Goes i target g → P (code ++ i) g) :
    ∃ f, t.callAt? s.callers.length = some f ∧ P code f := by
  induction h with
  | refl => exact ⟨s.frame, s.callAt?_self, hs⟩
  | tail _ hmoves hlive ih =>
    obtain ⟨e, he, hP⟩ := ih
    obtain ⟨f, hf, hgone⟩ := hmoves.goes_of_callAt? he hlive
    exact ⟨f, hf, hgoes _ e _ _ f hP hgone⟩

/-! ## Where one call jumps -/

/-- The call at `depth` is about to jump to a block, its `target?`. -/
structure Image.JumpsTo (image : Image) (depth label : Nat) (s : State) : Prop where
  depth : s.callers.length = depth
  target : image.target? s = some label

theorem Image.jumpsTo_of_jumped {image : Image} {s : State} {depth label : Nat}
    (h : s.jumped image depth = some label) : image.JumpsTo depth label s := by
  unfold State.jumped at h
  split at h
  · rename_i hdepth
    exact ⟨hdepth.symm, h⟩
  · cases h

/-- A run during which the call at `depth` neither returns nor `JumpsTo` one of the given blocks. -/
def Image.Avoids (image : Image) (depth : Nat) (labels : List Nat) : State → State → Prop :=
  ReflTransGen fun s t => image.Moves s t ∧ depth ≤ t.callers.length
    ∧ ∀ label ∈ labels, ¬ image.JumpsTo depth label s

/-- A run during which the call at `depth` does not return, with the states in which it `JumpsTo`
one of the given blocks. -/
inductive Image.Visits (image : Image) (depth : Nat) (labels : List Nat) :
    State → List State → State → Prop
  | avoids {s t : State} (h : image.Avoids depth labels s t) : Visits image depth labels s [] t
  | jumps {s t u v : State} {label : Nat} {visits : List State}
    (h : image.Avoids depth labels s t) (hlabel : label ∈ labels)
    (hjump : image.JumpsTo depth label t) (hmoves : image.Moves t u)
    (hrest : Visits image depth labels u visits v) : Visits image depth labels s (t :: visits) v

section

variable {image : Image} {s t u : State} {depth label : Nat} {labels : List Nat}

/-- The state in which the call has come to the start of a block. -/
def State.atBlock (s : State) (block : Block) : State :=
  { s with frame := { s.frame with block, rest := block.instrs } }

/-- A call that `JumpsTo` a block comes to its start by one step. -/
theorem Image.JumpsTo.moves (h : image.JumpsTo depth label s) {block : Block}
    (hblock : s.frame.blocks[label]? = some block) : image.Moves s (s.atBlock block) := by
  unfold Image.Moves
  rw [Image.step_of_target? h.target, Frame.jump, hblock]
  rfl

theorem Image.JumpsTo.eq_atBlock (h : image.JumpsTo depth label s) (hmoves : image.Moves s t) :
    ∃ block, s.frame.blocks[label]? = some block ∧ t = s.atBlock block := by
  obtain ⟨hjump, heq⟩ := hmoves.jump_eq_ok h.target
  obtain ⟨block, hblock, hframe⟩ := Frame.jump_eq_ok hjump
  rw [hframe] at heq
  exact ⟨block, hblock, heq⟩

/-- A step `Avoids` the blocks if it is no jump to one of them. -/
theorem Image.Avoids.single (hmoves : image.Moves s t) (hlive : depth ≤ t.callers.length)
    (h : ∀ label ∈ labels, image.target? s ≠ some label) : image.Avoids depth labels s t :=
  ReflTransGen.single ⟨hmoves, hlive, fun label hlabel hjump => h label hlabel hjump.target⟩

/-- A jump to some other block `Avoids` the given ones. -/
theorem Image.JumpsTo.avoids (h : image.JumpsTo depth label s) (hmoves : image.Moves s t)
    (hlive : depth ≤ t.callers.length) (hlabel : label ∉ labels) :
    image.Avoids depth labels s t := by
  refine .single hmoves hlive fun other hother heq => hlabel ?_
  obtain rfl := Option.some.inj (h.target.symm.trans heq)
  exact hother

/-- A way that `Avoids` some blocks avoids each part of them. -/
theorem Image.Avoids.mono {others : List Nat} (h : image.Avoids depth labels s t)
    (hsub : others ⊆ labels) : image.Avoids depth others s t := by
  induction h with
  | refl => exact .refl
  | tail _ hstep ih =>
    exact ih.tail ⟨hstep.1, hstep.2.1, fun label hlabel => hstep.2.2 label (hsub hlabel)⟩

theorem Image.Avoids.exists_performs (h : image.Avoids depth labels s t) :
    ∃ code, image.Performs depth s code t := by
  induction h with
  | refl => exact ⟨[], .refl⟩
  | tail _ hstep ih =>
    obtain ⟨code, hcode⟩ := ih
    exact ⟨_, hcode.tail hstep.1 hstep.2.1⟩

/-- A call that `Avoids` blocks and has not returned is still in the same function. -/
theorem Image.Avoids.blocks (h : image.Avoids depth labels s t) (hs : s.callers.length = depth)
    (ht : t.callers.length = depth) : t.frame.blocks = s.frame.blocks := by
  subst hs
  obtain ⟨code, hcode⟩ := h.exists_performs
  obtain ⟨f, hf, hblocks⟩ := hcode.keeps (P := fun _ f => f.blocks = s.frame.blocks) rfl
    fun _ _ _ _ _ hf hgoes => hgoes.blocks.trans hf
  rw [← ht, State.callAt?_self] at hf
  obtain rfl := Option.some.inj hf
  exact hblocks

theorem Image.Visits.head {visits : List State} (h : image.Avoids depth labels s t)
    (hvisits : image.Visits depth labels t visits u) : image.Visits depth labels s visits u := by
  cases hvisits with
  | avoids h' => exact .avoids (h.trans h')
  | jumps h' hlabel hjump hmoves hrest => exact .jumps (h.trans h') hlabel hjump hmoves hrest

/-- `Visits` composes: the states at which blocks are visited come in a row. -/
theorem Image.Visits.trans {first second : List State} (h : image.Visits depth labels s first t)
    (h' : image.Visits depth labels t second u) :
    image.Visits depth labels s (first ++ second) u := by
  induction h with
  | avoids h => exact h'.head h
  | jumps h hlabel hjump hmoves _ ih => exact .jumps h hlabel hjump hmoves (ih h')

theorem Image.Visits.blocks {visits : List State} (h : image.Visits depth labels s visits t)
    (hs : s.callers.length = depth) (ht : t.callers.length = depth) :
    t.frame.blocks = s.frame.blocks := by
  induction h with
  | avoids h => exact h.blocks hs ht
  | jumps h hlabel hjump hmoves _ ih =>
    obtain ⟨block, -, rfl⟩ := hjump.eq_atBlock hmoves
    exact (ih hjump.depth ht).trans (h.blocks hs hjump.depth)

end

end Oberon.Machine
