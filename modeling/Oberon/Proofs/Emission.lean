import Oberon.Generate.Module

/-!
# Successful emissions

A successful emission is a chain of successful parts: `bind_eq_ok` and the lemmas beside it
take such a chain apart, and one lemma for each control structure says which parts it has.
-/

namespace Oberon

open Code

section

variable {σ ε α β : Type} {s t : σ}

/-- A sequence in `Except` succeeds if both parts do. -/
theorem Except.bind_eq_ok {x : Except ε α} {f : α → Except ε β} {b : β} :
    x >>= f = .ok b ↔ ∃ a, x = .ok a ∧ f a = .ok b := by
  cases x with
  | error e => exact ⟨fun h => (nomatch h), fun ⟨_, h, _⟩ => (nomatch h)⟩
  | ok a =>
    constructor
    · exact fun h => ⟨a, rfl, h⟩
    · rintro ⟨_, h, hf⟩
      exact Except.ok.inj h ▸ hf

/-- What `isOk` decides, as an equation. -/
theorem Except.exists_of_isOk {x : Except ε α} (h : x.isOk = true) : ∃ a, x = .ok a := by
  cases x with
  | error e => cases h
  | ok a => exact ⟨a, rfl⟩

/-- An action `x >>= f` that succeeds consists of parts that succeed. -/
theorem bind_eq_ok {x : StateT σ (Except ε) α} {f : α → StateT σ (Except ε) β} {r : β × σ} :
    (x >>= f) s = .ok r ↔ ∃ a t, x s = .ok (a, t) ∧ f a t = .ok r := by
  show (x s >>= fun p => f p.1 p.2) = .ok r ↔ _
  rw [Except.bind_eq_ok, Prod.exists]

theorem pure_eq_ok {a b : α} :
    (pure a : StateT σ (Except ε) α) s = .ok (b, t) ↔ b = a ∧ t = s := by
  show Except.ok (a, s) = .ok (b, t) ↔ _
  simp only [Except.ok.injEq, Prod.mk.injEq, eq_comm]

end

namespace Emission

/-- The emission with one more edit. -/
def edited (s : Emission) (e : Edit) : Emission :=
  { s with draft := { s.draft with script := s.draft.script.push e } }

/-- The emission after a temporary was drawn. -/
def drawn (s : Emission) : Emission :=
  { s with stock := { s.stock with temps := s.stock.temps + 1 } }

/-- The emission with one more instruction in the current block, by `Edit.push`. -/
def pushed (s : Emission) (i : Instr) : Emission :=
  s.edited (.push i)

/-- The emission with one more instruction in the current block, which defines the temporary just
`drawn`. -/
def defined (s : Emission) (i : Instr) : Emission :=
  s.drawn.pushed i

/-- The emission with one more cell, by `Edit.pushEntry`. -/
def reserved (s : Emission) (ty : Ty) : Emission :=
  s.drawn.edited (.pushEntry (.alloca s.stock.temps ty))

/-- The emission whose current block has ended, by `Edit.terminate`. -/
def terminated (s : Emission) (t : Terminator) : Emission :=
  s.edited (.terminate t)

/-- The emission with another current block, by `Edit.switchTo`. -/
def moved (s : Emission) (label : Nat) : Emission :=
  s.edited (.switchTo label)

/-- The emission with one more block, by `Edit.addBlock`. -/
def withBlock (s : Emission) (name : String) : Emission where
  stock := { s.stock with labels := s.stock.labels + 1 }
  draft :=
    { blocks := s.draft.blocks + 1
      script := s.draft.script.push (.addBlock (name ++ "." ++ toString s.stock.labels)) }

/-- The emission whose stock has a string, by `Stock.intern`. -/
def withString (s : Emission) (text : String) : Emission :=
  { s with stock := (s.stock.intern (Text.utf8Bytes text)).2 }

end Emission

namespace Emit

variable {α β : Type} {s t : Emission}

/-! ## Taking emissions apart -/

/-- `fail` never succeeds. -/
theorem fail_eq_ok {e : CompileError} {r : α × Emission} : fail e s = .ok r ↔ False := by
  simp [fail]

/-- `edit` always succeeds, and adds its edit to the script. -/
theorem edit_eq_ok {e : Edit} {u : Unit} : edit e s = .ok (u, t) ↔ t = s.edited e := by
  show Except.ok ((), s.edited e) = .ok (u, t) ↔ _
  simp [eq_comm]

/-- `push` is the edit that adds an instruction to the current block. -/
theorem push_eq_ok {i : Instr} {u : Unit} : push i s = .ok (u, t) ↔ t = s.pushed i :=
  edit_eq_ok

theorem switchTo_eq_ok {label : Nat} {u : Unit} :
    switchTo label s = .ok (u, t) ↔ t = s.moved label :=
  edit_eq_ok

/-- `terminate` is the edit that ends the current block, if it is open. -/
theorem terminate_eq_ok {terminator : Terminator} {u : Unit} :
    terminate terminator s = .ok (u, t) ↔ t = s.terminated terminator :=
  edit_eq_ok

theorem jump_eq_ok {label : Nat} {u : Unit} :
    jump label s = .ok (u, t) ↔ t = s.terminated (.jump label) :=
  edit_eq_ok

theorem branch_eq_ok {condition : Value} {onTrue onFalse : Nat} {u : Unit} :
    branch condition onTrue onFalse s = .ok (u, t)
      ↔ t = s.terminated (.branch condition onTrue onFalse) :=
  edit_eq_ok

/-- `newBlock` answers the label of the new block, which is the number of blocks so far. -/
theorem newBlock_eq_ok {name : String} {label : Nat} :
    newBlock name s = .ok (label, t) ↔ label = s.draft.blocks ∧ t = s.withBlock name := by
  show Except.ok (s.draft.blocks, s.withBlock name) = .ok (label, t) ↔ _
  simp only [Except.ok.injEq, Prod.mk.injEq, eq_comm]

/-- `result` answers the temporary that it draws for the instruction. -/
theorem result_eq_ok {ty : Ty} {instr : Nat → Instr} {v : Value} :
    result ty instr s = .ok (v, t)
      ↔ v = .temp s.stock.temps ty ∧ t = s.defined (instr s.stock.temps) := by
  show Except.ok (Value.temp s.stock.temps ty, s.defined (instr s.stock.temps)) = .ok (v, t) ↔ _
  simp only [Except.ok.injEq, Prod.mk.injEq, eq_comm]

/-- `cell` answers the temporary that holds the address of the new cell. -/
theorem cell_eq_ok {ty : Ty} {v : Value} :
    cell ty s = .ok (v, t) ↔ v = .temp s.stock.temps .ptr ∧ t = s.reserved ty := by
  show Except.ok (Value.temp s.stock.temps .ptr, s.reserved ty) = .ok (v, t) ↔ _
  simp only [Except.ok.injEq, Prod.mk.injEq, eq_comm]

/-- `string` answers the name under which the text is interned. -/
theorem string_eq_ok {text : String} {v : Value} :
    string text s = .ok (v, t)
      ↔ v = .string (s.stock.intern (Text.utf8Bytes text)).1 ∧ t = s.withString text := by
  show Except.ok (Value.string (s.stock.intern (Text.utf8Bytes text)).1, s.withString text)
    = .ok (v, t) ↔ _
  simp only [Except.ok.injEq, Prod.mk.injEq, eq_comm]

/-! ## The parts of a control structure

In each of these, the labels of new blocks count from the number of blocks before. -/

/-- After `leave`, the current block is a new one and the one before has ended. -/
theorem leave_ok {terminator : Terminator} {name : String} {u : Unit}
    (h : leave terminator name s = .ok (u, t)) :
    t = ((s.terminated terminator).withBlock name).moved s.draft.blocks := by
  simp only [leave, bind_eq_ok, terminate_eq_ok, newBlock_eq_ok, switchTo_eq_ok] at h
  obtain ⟨_, _, rfl, _, _, ⟨rfl, rfl⟩, rfl⟩ := h
  rfl

/-- The parts of `ifBranch`, in the order in which they are emitted: condition, blocks, body,
jump. -/
theorem ifBranch_ok {condition : Emit Value} {next : Emit Nat} {done : Nat} {body : Emit Unit}
    {u : Unit} (h : ifBranch condition next done body s = .ok (u, t)) :
    ∃ c s₁ l s₂ s₃, condition s = .ok (c, s₁) ∧ next (s₁.withBlock "if.then") = .ok (l, s₂)
      ∧ body ((s₂.terminated (.branch c s₁.draft.blocks l)).moved s₁.draft.blocks)
        = .ok ((), s₃)
      ∧ t = (s₃.terminated (.jump done)).moved l := by
  simp only [ifBranch, bind_eq_ok, newBlock_eq_ok, branch_eq_ok, switchTo_eq_ok, jump_eq_ok,
    and_assoc, exists_and_left, exists_eq_left, exists_const] at h
  obtain ⟨c, s₁, hc, l, s₂, hl, _, s₃, hb, ht⟩ := h
  exact ⟨c, s₁, l, s₂, s₃, hc, hl, hb, ht⟩

theorem elsePart_ok {done : Nat} {body : Emit Unit} {u : Unit}
    (h : elsePart done body s = .ok (u, t)) :
    ∃ s₁, body s = .ok ((), s₁) ∧ t = (s₁.terminated (.jump done)).moved done := by
  simp only [elsePart, bind_eq_ok, switchTo_eq_ok, jump_eq_ok] at h
  obtain ⟨_, s₁, hb, _, _, rfl, rfl⟩ := h
  exact ⟨s₁, hb, rfl⟩

/-- The parts of `whileDo`: three blocks, the condition in the first and the body in the second. -/
theorem whileDo_ok {condition : Emit Value} {body : Loop → Emit Unit} {u : Unit}
    (h : whileDo condition body s = .ok (u, t)) :
    ∃ c s₁ s₂,
      condition (((((s.withBlock "while.cond").withBlock "while.body").withBlock
        "while.end").terminated (.jump s.draft.blocks)).moved s.draft.blocks) = .ok (c, s₁)
      ∧ body ⟨s.draft.blocks, s.draft.blocks + 2⟩
        ((s₁.terminated (.branch c (s.draft.blocks + 1) (s.draft.blocks + 2))).moved
          (s.draft.blocks + 1)) = .ok ((), s₂)
      ∧ t = (s₂.terminated (.jump s.draft.blocks)).moved (s.draft.blocks + 2) := by
  simp only [whileDo, bind_eq_ok, newBlock_eq_ok, branch_eq_ok, switchTo_eq_ok, jump_eq_ok,
    and_assoc, exists_and_left, exists_eq_left, exists_const] at h
  obtain ⟨c, s₁, hc, _, s₂, hb, ht⟩ := h
  exact ⟨c, s₁, s₂, hc, hb, ht⟩

/-- The parts of `repeatUntil`: three blocks, the body in the first and the condition in the
second. -/
theorem repeatUntil_ok {condition : Emit Value} {body : Loop → Emit Unit} {u : Unit}
    (h : repeatUntil body condition s = .ok (u, t)) :
    ∃ s₁ c s₂,
      body ⟨s.draft.blocks + 1, s.draft.blocks + 2⟩
        (((((s.withBlock "repeat.body").withBlock "repeat.cond").withBlock
          "repeat.end").terminated (.jump s.draft.blocks)).moved s.draft.blocks) = .ok ((), s₁)
      ∧ condition ((s₁.terminated (.jump (s.draft.blocks + 1))).moved (s.draft.blocks + 1))
        = .ok (c, s₂)
      ∧ t = (s₂.terminated (.branch c (s.draft.blocks + 2) s.draft.blocks)).moved
        (s.draft.blocks + 2) := by
  simp only [repeatUntil, bind_eq_ok, newBlock_eq_ok, branch_eq_ok, switchTo_eq_ok, jump_eq_ok,
    and_assoc, exists_and_left, exists_eq_left, exists_const] at h
  obtain ⟨_, s₁, hb, c, s₂, hc, ht⟩ := h
  exact ⟨s₁, c, s₂, hb, hc, ht⟩

/-- The parts of `countTo`: four blocks, the comparison in the first, the body in the second and the
step of the counter in the third. -/
theorem countTo_ok {place limit : Value} {bits : Nat} {direction : Direction}
    {body : Loop → Emit Unit} {u : Unit}
    (h : countTo place bits limit direction body s = .ok (u, t)) :
    ∃ more s₁ s₂ next s₃,
      compare (goesOn direction) (.temp s.stock.temps (.int bits)) limit
        ((((((s.withBlock "for.cond").withBlock "for.body").withBlock "for.inc").withBlock
          "for.end").terminated (.jump s.draft.blocks)).moved s.draft.blocks |>.defined
          (.load s.stock.temps (.int bits) place)) = .ok (more, s₁)
      ∧ body ⟨s.draft.blocks + 2, s.draft.blocks + 3⟩
        ((s₁.terminated (.branch more (s.draft.blocks + 1) (s.draft.blocks + 3))).moved
          (s.draft.blocks + 1)) = .ok ((), s₂)
      ∧ binary (advance direction) (.temp s₂.stock.temps (.int bits)) (.int 1 bits)
        (((s₂.terminated (.jump (s.draft.blocks + 2))).moved (s.draft.blocks + 2)).defined
          (.load s₂.stock.temps (.int bits) place)) = .ok (next, s₃)
      ∧ t = ((s₃.pushed (.store next place)).terminated (.jump s.draft.blocks)).moved
        (s.draft.blocks + 3) := by
  simp only [countTo, load, bind_eq_ok, newBlock_eq_ok, branch_eq_ok, switchTo_eq_ok, jump_eq_ok,
    push_eq_ok, result_eq_ok, and_assoc, exists_and_left, exists_eq_left, exists_const] at h
  obtain ⟨more, s₁, hm, _, s₂, hb, next, s₃, hn, ht⟩ := h
  exact ⟨more, s₁, s₂, next, s₃, hm, hb, hn, ht⟩

/-- The parts of `caseHead`: the selector, and the blocks for the end, the ELSE part and the first
test. -/
theorem caseHead_ok {selector : Emit Value} {hasElse : Bool} {v : Value}
    {done fallback test : Nat}
    (h : caseHead selector hasElse s = .ok ((v, done, fallback, test), t)) :
    ∃ s₁ s₂, selector s = .ok (v, s₁) ∧ done = s₁.draft.blocks
      ∧ blockIf hasElse "case.else" done (s₁.withBlock "case.end") = .ok (fallback, s₂)
      ∧ test = s₂.draft.blocks ∧ t = (s₂.withBlock "case.cond").terminated (.jump test) := by
  simp only [caseHead, bind_eq_ok, newBlock_eq_ok, jump_eq_ok, pure_eq_ok, Prod.mk.injEq,
    and_assoc, exists_and_left, exists_eq_left, exists_const] at h
  obtain ⟨_, s₁, hv, _, s₂, hf, rfl, rfl, rfl, rfl, ht⟩ := h
  exact ⟨s₁, s₂, hv, rfl, hf, rfl, ht⟩

/-- The parts of `caseBranch`: labels are matched in the block `test`, and the body stands in a
block of its own. -/
theorem caseBranch_ok {selector : Value} {labels : List Literal} {test done l : Nat}
    {next : Emit Nat} {body : Emit Unit}
    (h : caseBranch selector labels test done next body s = .ok (l, t)) :
    ∃ c s₁ s₂ s₃, matchLabels selector none labels (s.moved test) = .ok (c, s₁)
      ∧ next (s₁.withBlock "case.body") = .ok (l, s₂)
      ∧ body ((s₂.terminated (.branch c s₁.draft.blocks l)).moved s₁.draft.blocks)
        = .ok ((), s₃)
      ∧ t = s₃.terminated (.jump done) := by
  simp only [caseBranch, bind_eq_ok, newBlock_eq_ok, branch_eq_ok, switchTo_eq_ok, jump_eq_ok,
    pure_eq_ok, and_assoc, exists_and_left, exists_eq_left, exists_const] at h
  obtain ⟨c, s₁, hc, _, s₂, hl, _, s₃, hb, rfl, ht⟩ := h
  exact ⟨c, s₁, s₂, s₃, hc, hl, hb, ht⟩

/-- `caseFallback` goes on in the block `fallback`; if there was no branch at all, the test block
jumps there. -/
theorem caseFallback_ok {isEmpty : Bool} {test fallback : Nat} {u : Unit}
    (h : caseFallback isEmpty test fallback s = .ok (u, t)) :
    (isEmpty = true ∧ t = ((s.moved test).terminated (.jump fallback)).moved fallback)
      ∨ (isEmpty = false ∧ t = s.moved fallback) := by
  unfold caseFallback at h
  split at h
  · simp only [bind_eq_ok, switchTo_eq_ok, jump_eq_ok] at h
    obtain ⟨_, _, rfl, _, _, rfl, rfl⟩ := h
    exact .inl ⟨‹_›, rfl⟩
  · rename_i hempty
    exact .inr ⟨by simpa using hempty, switchTo_eq_ok.mp h⟩

end Emit
end Oberon
