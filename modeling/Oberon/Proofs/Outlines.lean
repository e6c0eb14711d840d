import Oberon.Proofs.Orderly

/-!
# Outlines of statements

Statements emit their code by the steps of an outline: each control structure goes to all the
blocks that it adds, one after the other. The one exception is an IF without branches and without
an ELSE part, whose last block is never gone to. So where every IF has a branch, no block that was
added is left over.
-/

namespace Oberon

open Code Relation Emit

/-! ## Trees of statements -/

/-- The statements in the bodies of a statement. -/
def Statement.parts : Statement → List Statement
  | .ifThen branches otherwise => branches.flatMap (·.2) ++ otherwise.getD []
  | .caseOf _ branches otherwise => branches.flatMap (·.2) ++ otherwise.getD []
  | .whileDo _ body | .repeatUntil body _ | .forDo _ _ _ _ body => body
  | .assign .. | .call .. | .breakLoop | .continueLoop | .returnWith _ => []

/-- A test `p` that a statement passes, and all statements inside of it. -/
inductive Statement.Every (p : Statement → Bool) : Statement → Prop
  | mk {s : Statement} (h : p s = true) (hparts : ∀ u ∈ s.parts, Every p u) : Every p s

/-- Statements that pass a test `p`, with all statements inside of them. -/
def Passes (p : Statement → Bool) (body : List Statement) : Prop :=
  ∀ s ∈ body, s.Every p

/-- Whether a statement is no IF without branches. -/
def Statement.hasBranch : Statement → Bool
  | .ifThen [] _ => false
  | _ => true

/-- Whether a statement is no early exit. -/
def Statement.fallsThrough : Statement → Bool
  | .breakLoop | .continueLoop | .returnWith _ => false
  | _ => true

namespace Statement.Every

variable {p : Statement → Bool} {otherwise : Option (List Statement)}

/-- A statement of which `Every` part passes a test passes it itself. -/
theorem test {s : Statement} (h : s.Every p) : p s = true := by
  cases h with
  | mk h hparts => exact h

theorem not_of_false {s : Statement} (h : p s = false) : ¬ s.Every p := by
  intro hs
  rw [hs.test] at h
  cases h

/-- The statements inside pass the test as well, at any depth by `Every`. -/
theorem parts {s : Statement} (h : s.Every p) : Passes p s.parts := by
  cases h with
  | mk h hparts => exact hparts

/-- The test passes in every branch of an IF on which `Every` holds. -/
theorem ifBranch {branches : List (Expr × List Statement)} (h : (ifThen branches otherwise).Every p)
    {branch : Expr × List Statement} (hbranch : branch ∈ branches) : Passes p branch.2 :=
  fun s hs => h.parts s (List.mem_append_left _ (List.mem_flatMap.mpr ⟨branch, hbranch, hs⟩))

/-- The test passes in the ELSE part of an IF on which `Every` holds. -/
theorem ifElse {branches : List (Expr × List Statement)} {body : List Statement}
    (h : (ifThen branches otherwise).Every p) (hbody : body ∈ otherwise) : Passes p body := by
  obtain rfl := Option.mem_def.mp hbody
  exact fun s hs => h.parts s (List.mem_append_right _ hs)

/-- The test passes in every branch of a CASE on which `Every` holds. -/
theorem caseBranch {selector : Expr} {branches : List (List Literal × List Statement)}
    (h : (caseOf selector branches otherwise).Every p) {branch : List Literal × List Statement}
    (hbranch : branch ∈ branches) : Passes p branch.2 :=
  fun s hs => h.parts s (List.mem_append_left _ (List.mem_flatMap.mpr ⟨branch, hbranch, hs⟩))

theorem caseElse {selector : Expr} {branches : List (List Literal × List Statement)}
    {body : List Statement} (h : (caseOf selector branches otherwise).Every p)
    (hbody : body ∈ otherwise) : Passes p body := by
  obtain rfl := Option.mem_def.mp hbody
  exact fun s hs => h.parts s (List.mem_append_right _ hs)

end Statement.Every

/-! ## Chains of steps -/

namespace Outline

/-- Any number of `Step`s of an outline. -/
abbrev Steps (B : Bounds) : Outline → Outline → Prop :=
  ReflTransGen (Step B)

variable {B : Bounds} {x y : Outline} {s t : Emission} {P Q : List Nat}

/-- `Steps` of an outline are steps of `Emission.Changes`. -/
theorem changes_of_steps (h : x.Steps B y) :
    ReflTransGen Emission.Changes x.emission y.emission := by
  induction h with
  | refl => exact .refl
  | tail _ hstep ih => exact ih.trans hstep.changes

theorem script_of_steps (h : x.Steps B y) :
    x.emission.draft.script.toList <+: y.emission.draft.script.toList :=
  Emission.script_of_changes (changes_of_steps h)

/-- `Steps` without early exits make no new tails. -/
theorem tails_of_steps {l : Nat} (h : x.Steps B y) (hl : y.emission.IsTail l) :
    x.emission.IsTail l ∨ B.exits := by
  induction h with
  | refl => exact .inl hl
  | tail _ hstep ih =>
    rcases hstep.tails hl with hl | hexit
    · exact ih hl
    · exact .inr hexit

/-- A `Straight` action stays in the current block, so the blocks to come are the same. -/
theorem steps_straight (B : Bounds) {α : Type} {action : Emit α} [Straight action] {a : α}
    (h : action s = .ok (a, t)) (P : List Nat) : Steps B ⟨s, P⟩ ⟨t, P⟩ := by
  have hextends := Straight.traces h
  clear h
  induction hextends with
  | refl => exact .refl
  | tail _ hstep ih => exact ih.tail (.extend hstep)

end Outline

namespace Emission

open Outline

variable {B : Bounds} {s t : Emission} {loop : Option Loop}

theorem IsAbove.steps {P Q : List Nat} (hs : s.IsAbove B.floor) (h : Steps B ⟨s, P⟩ ⟨t, Q⟩) :
    t.IsAbove B.floor :=
  hs.of_changes (changes_of_steps h)

/-- Blocks in a row, `count` from `first` on, that were added for jumps. -/
def LandsFrom (floor : Nat) (s : Emission) (first count : Nat) : Prop :=
  ∀ i < count, s.Lands floor (first + i)

/-- Blocks on which jumps may land stay such along `Steps`. -/
theorem LandsFrom.steps {first count : Nat} {P Q : List Nat} (hs : s.LandsFrom B.floor first count)
    (h : Steps B ⟨s, P⟩ ⟨t, Q⟩) : t.LandsFrom B.floor first count :=
  fun i hi => (hs i hi).mono (script_of_steps h)

/-- The emission `Admits` the labels of the loop around, if there is one. -/
def AdmitsLoop (B : Bounds) (s : Emission) (loop : Option Loop) : Prop :=
  ∀ l ∈ loop, s.Admits B l.next ∧ s.Admits B l.exit

/-- The blocks of a `Loop` may be jumped to later on as well. -/
theorem AdmitsLoop.mono (hs : s.AdmitsLoop B loop)
    (h : s.draft.script.toList <+: t.draft.script.toList) : t.AdmitsLoop B loop :=
  fun l hl => ⟨(hs l hl).1.mono h, (hs l hl).2.mono h⟩

theorem AdmitsLoop.steps {P Q : List Nat} (hs : s.AdmitsLoop B loop) (h : Steps B ⟨s, P⟩ ⟨t, Q⟩) :
    t.AdmitsLoop B loop :=
  hs.mono (script_of_steps h)

/-- A loop whose blocks were added for jumps satisfies `AdmitsLoop`. -/
theorem admitsLoop_some {next exit : Nat} (hnext : s.Lands B.floor next)
    (hexit : s.Lands B.floor exit) : s.AdmitsLoop B (some ⟨next, exit⟩) := by
  intro l hl
  obtain rfl := Option.mem_some.mp hl
  exact ⟨.inl hnext, .inl hexit⟩

theorem aims_jump {l : Nat} (h : s.Admits B l) : s.Aims B (.jump l) := by
  intro l' hl'
  obtain rfl := List.mem_singleton.mp hl'
  exact h

/-- A branch `Aims` within the bounds if both of its blocks were added for jumps. -/
theorem aims_branch {condition : Value} {onTrue onFalse : Nat} (ht : s.Lands B.floor onTrue)
    (hf : s.Lands B.floor onFalse) : s.Aims B (.branch condition onTrue onFalse) := by
  intro l hl
  rcases List.mem_cons.mp hl with rfl | hl
  · exact .inl ht
  · obtain rfl := List.mem_singleton.mp hl
    exact .inl hf

theorem Targets.steps {l : Nat} {P Q : List Nat} (hs : s.Targets l) (h : Steps B ⟨s, P⟩ ⟨t, Q⟩) :
    t.Targets l :=
  hs.mono (script_of_steps h)

theorem Targets.terminated {l : Nat} (hs : s.Targets l) (term : Terminator) :
    (s.terminated term).Targets l :=
  hs.mono (script_of_changes (.single (.terminate s term)))

end Emission

namespace Outline

open Emission

variable (B : Bounds) {s : Emission} {inner next target l : Nat}

/-- The current block ends with a branch to the block `inner`, which begins now, or to another
one. -/
theorem steps_branch (L R : List Nat) (hinner : s.Lands B.floor inner)
    (hnext : s.Lands B.floor next) (c : Value) :
    Steps B ⟨s, L ++ inner :: R⟩ ⟨(s.terminated (.branch c inner next)).moved inner, L ++ R⟩
      ∧ ((s.terminated (.branch c inner next)).moved inner).Targets next := by
  have htargets : ∀ l ∈ [inner, next], (s.terminated (.branch c inner next)).Targets l :=
    fun l hl => s.targets_terminated (.branch c inner next) hl
  constructor
  · exact .single (.turn List.perm_middle (aims_branch hinner hnext)
      (htargets inner List.mem_cons_self))
  · exact (htargets next (List.mem_cons_of_mem _ List.mem_cons_self)).mono
      (script_of_changes (.single (.move _ _)))

/-- The current block ends with a jump, and the block `l` begins, to which some block leads. -/
theorem steps_jump (L R : List Nat) (htarget : s.Lands B.floor target) (hl : s.Targets l) :
    Steps B ⟨s, L ++ l :: R⟩ ⟨(s.terminated (.jump target)).moved l, L ++ R⟩ :=
  .single (.turn List.perm_middle (aims_jump (.inl htarget)) (hl.terminated _))

/-- The current block ends with a jump to the block `target`, which begins now. -/
theorem steps_enter (L R : List Nat) (htarget : s.Lands B.floor target) :
    Steps B ⟨s, L ++ target :: R⟩ ⟨(s.terminated (.jump target)).moved target, L ++ R⟩ :=
  .single (.turn List.perm_middle (aims_jump (.inl htarget))
    (s.targets_terminated (.jump target) (List.mem_singleton_self target)))

/-- `withBlock` adds a block, which is to come. -/
theorem steps_withBlock (hs : s.IsAbove B.floor) (name : String) (hname : name ∉ tailNames)
    (P : List Nat) :
    Steps B ⟨s, P⟩ ⟨s.withBlock name, s.draft.blocks :: P⟩
      ∧ (s.withBlock name).Lands B.floor s.draft.blocks :=
  ⟨.single (.block s P hname), lands_withBlock hs hname⟩

/-- `withBlocks` adds blocks, all of which are to come. -/
theorem steps_withBlocks (hs : s.IsAbove B.floor) (names : List String)
    (hnames : ∀ name ∈ names, name ∉ tailNames) (P : List Nat) :
    Steps B ⟨s, P⟩ ⟨s.withBlocks names, (List.range' s.draft.blocks names.length).reverse ++ P⟩
      ∧ (s.withBlocks names).LandsFrom B.floor s.draft.blocks names.length := by
  induction names generalizing s P with
  | nil => exact ⟨.refl, fun i hi => absurd hi (Nat.not_lt_zero i)⟩
  | cons name rest ih =>
    obtain ⟨hname, hrest⟩ := List.forall_mem_cons.mp hnames
    obtain ⟨hfirst, hland⟩ := steps_withBlock B hs name hname P
    obtain ⟨hsteps, hlands⟩ := ih (hs.steps hfirst) hrest (s.draft.blocks :: P)
    constructor
    · rw [List.length_cons, List.range'_succ, List.reverse_cons, List.append_assoc]
      exact hfirst.trans hsteps
    · intro i hi
      cases i with
      | zero => exact hland.mono (script_of_steps hsteps)
      | succ i =>
        have hblock := hlands i (Nat.lt_of_succ_lt_succ hi)
        rwa [show (s.withBlock name).draft.blocks + i = s.draft.blocks + (i + 1) from
          Nat.succ_add_eq_add_succ _ _] at hblock

/-- Blocks are added by `withBlocks`, and the emission goes on in the first of them. -/
theorem steps_enters (hs : s.IsAbove B.floor) (names : List String)
    (hnames : ∀ name ∈ names, name ∉ tailNames) {n : Nat} (hlength : names.length = n + 1)
    (P : List Nat) :
    Steps B ⟨s, P⟩ ⟨((s.withBlocks names).terminated (.jump s.draft.blocks)).moved s.draft.blocks,
        (List.range' (s.draft.blocks + 1) n).reverse ++ P⟩
      ∧ (((s.withBlocks names).terminated (.jump s.draft.blocks)).moved
        s.draft.blocks).LandsFrom B.floor s.draft.blocks (n + 1) := by
  obtain ⟨hadded, hlands⟩ := steps_withBlocks B hs names hnames P
  rw [hlength] at hadded hlands
  have hturn := steps_enter B (List.range' (s.draft.blocks + 1) n).reverse P
    (hlands 0 (Nat.succ_pos n))
  rw [List.range'_succ, List.reverse_cons, List.append_assoc] at hadded
  exact ⟨hadded.trans hturn, hlands.steps hturn⟩

end Outline

/-! ## Control structures -/

namespace Emit

open Emission Outline

/-- An action that emits code by the steps of an outline. It goes to all the blocks that it adds,
but for some strays, of which there are none if the action is `whole`. -/
def IsOutlined (B : Bounds) (whole : Prop) (loop : Option Loop) (action : Emit Unit) : Prop :=
  ∀ ⦃s u t⦄, action s = .ok (u, t) → s.IsAbove B.floor → s.AdmitsLoop B loop → ∀ P : List Nat,
    ∃ strays, Steps B ⟨s, P⟩ ⟨t, strays ++ P⟩ ∧ (whole → strays = [])

variable {B : Bounds} {whole : Prop} {loop : Option Loop} {s t : Emission} {P : List Nat}

/-- A `Straight` action is outlined within any bounds. -/
theorem isOutlined_straight (action : Emit Unit) [Straight action] :
    IsOutlined B whole loop action :=
  fun _ _ _ h _ _ P => ⟨[], steps_straight B h P, fun _ => rfl⟩

theorem isOutlined_fail (e : CompileError) : IsOutlined B whole loop (fail e) :=
  fun _ _ _ h => (fail_eq_ok.mp h).elim

/-- `IsOutlined` with bounds that allow more, and with a weaker promise about strays. -/
theorem IsOutlined.weaken {floor : Nat} {outer : Nat → Prop} {exits exits' whole' : Prop}
    {action : Emit Unit} (h : IsOutlined ⟨floor, outer, exits⟩ whole loop action)
    (hexits : exits → exits') (hwhole : whole' → whole) :
    IsOutlined ⟨floor, outer, exits'⟩ whole' loop action := by
  intro s u t hok hs hloop P
  obtain ⟨strays, hsteps, hstrays⟩ := h hok hs hloop P
  exact ⟨strays, ReflTransGen.mono (fun _ _ hstep => hstep.mono hexits) _ _ hsteps,
    fun hw => hstrays (hwhole hw)⟩

/-- `IsOutlined` of two actions in a row. -/
theorem IsOutlined.seq {first second : Emit Unit} (hfirst : IsOutlined B whole loop first)
    (hsecond : IsOutlined B whole loop second) :
    IsOutlined B whole loop (first >>= fun _ => second) := by
  intro s u t h hs hloop P
  obtain ⟨_, r, hr, ht⟩ := bind_eq_ok.mp h
  obtain ⟨strays, hsteps, hnone⟩ := hfirst hr hs hloop P
  obtain ⟨strays', hsteps', hnone'⟩ := hsecond ht (hs.steps hsteps) (hloop.steps hsteps)
    (strays ++ P)
  refine ⟨strays' ++ strays, ?_, fun hw => ?_⟩
  · rw [List.append_assoc]
    exact hsteps.trans hsteps'
  · rw [hnone hw, hnone' hw, List.append_nil]

/-- `IsOutlined` of an action with straight-line code in front. -/
theorem isOutlined_bind {α : Type} {first : Emit α} [Straight first] {rest : α → Emit Unit}
    (hrest : ∀ a, IsOutlined B whole loop (rest a)) : IsOutlined B whole loop (first >>= rest) := by
  intro s u t h hs hloop P
  obtain ⟨a, r, hr, ht⟩ := bind_eq_ok.mp h
  have h₁ := steps_straight B hr P
  obtain ⟨strays, h₂, hnone⟩ := hrest a ht (hs.steps h₁) (hloop.steps h₁) P
  exact ⟨strays, h₁.trans h₂, hnone⟩

/-- `leave` is an early exit: it needs `B.exits`, and a name of `tailNames` for the block behind
it. -/
theorem isOutlined_leave {term : Terminator} {name : String} (hexit : B.exits)
    (hname : name ∈ tailNames)
    (haims : ∀ s : Emission, s.AdmitsLoop B loop → s.Aims B term) :
    IsOutlined B whole loop (leave term name) := by
  intro s u t h hs hloop P
  obtain rfl := leave_ok h
  exact ⟨[], .single (.leave hexit hname (haims s hloop)), fun _ => rfl⟩

/-- `whileDo` is outlined if its body is: the body lies between a test and an end that were added
for jumps. -/
theorem isOutlined_whileDo {condition : Emit Value} [Straight condition]
    {body : Loop → Emit Unit} (hbody : ∀ l, IsOutlined B whole (some l) (body l)) :
    IsOutlined B whole loop (whileDo condition body) := by
  intro s u t h hs _ P
  obtain ⟨c, s₁, s₂, hc, hb, rfl⟩ := whileDo_ok h
  obtain ⟨h₁, hl⟩ := steps_enters B hs ["while.cond", "while.body", "while.end"] (by decide) rfl P
  -- the condition stands in the first block
  have h₂ := steps_straight B hc ([s.draft.blocks + 2, s.draft.blocks + 1] ++ P)
  have hl := hl.steps h₂
  obtain ⟨h₃, hdone⟩ :=
    steps_branch B [s.draft.blocks + 2] P (hl 1 (by decide)) (hl 2 (by decide)) c
  have hl := hl.steps h₃
  -- and the body in the second
  obtain ⟨strays, h₄, hnone⟩ := hbody _ hb (((hs.steps h₁).steps h₂).steps h₃)
    (admitsLoop_some (hl 0 (by decide)) (hl 2 (by decide))) ([s.draft.blocks + 2] ++ P)
  have h₅ := steps_jump B strays P ((hl.steps h₄) 0 (by decide)) (hdone.steps h₄)
  exact ⟨strays, h₁.trans (h₂.trans (h₃.trans (h₄.trans h₅))), hnone⟩

/-- `repeatUntil` is outlined if its body is; the body comes before the test. -/
theorem isOutlined_repeatUntil {condition : Emit Value} [Straight condition]
    {body : Loop → Emit Unit} (hbody : ∀ l, IsOutlined B whole (some l) (body l)) :
    IsOutlined B whole loop (repeatUntil body condition) := by
  intro s u t h hs _ P
  obtain ⟨s₁, c, s₂, hb, hc, rfl⟩ := repeatUntil_ok h
  obtain ⟨h₁, hl⟩ :=
    steps_enters B hs ["repeat.body", "repeat.cond", "repeat.end"] (by decide) rfl P
  -- the body stands in the first block
  obtain ⟨strays, h₂, hnone⟩ := hbody _ hb (hs.steps h₁)
    (admitsLoop_some (hl 1 (by decide)) (hl 2 (by decide)))
    ([s.draft.blocks + 2, s.draft.blocks + 1] ++ P)
  have hl := hl.steps h₂
  have h₃ := steps_enter B (strays ++ [s.draft.blocks + 2]) P (hl 1 (by decide))
  rw [List.append_assoc, List.append_assoc] at h₃
  -- and the condition in the second
  have h₄ := steps_straight B hc (strays ++ ([s.draft.blocks + 2] ++ P))
  have hl := (hl.steps h₃).steps h₄
  obtain ⟨h₅, -⟩ := steps_branch B strays P (hl 2 (by decide)) (hl 0 (by decide)) c
  exact ⟨strays, h₁.trans (h₂.trans (h₃.trans (h₄.trans h₅))), hnone⟩

/-- `countTo` is outlined if its body is; CONTINUE leads to the step of the counter. -/
theorem isOutlined_countTo {place limit : Value} {bits : Nat} {direction : Direction}
    {body : Loop → Emit Unit} (hbody : ∀ l, IsOutlined B whole (some l) (body l)) :
    IsOutlined B whole loop (countTo place bits limit direction body) := by
  intro s u t h hs _ P
  obtain ⟨c, s₂, s₄, s₆, hc, hb, hstep, rfl⟩ := countTo_parts h
  obtain ⟨h₁, hl⟩ :=
    steps_enters B hs ["for.cond", "for.body", "for.inc", "for.end"] (by decide) rfl P
  -- the test stands in the first block
  have h₂ := steps_straight B hc
    ([s.draft.blocks + 3, s.draft.blocks + 2, s.draft.blocks + 1] ++ P)
  have hl := hl.steps h₂
  obtain ⟨h₃, hdone⟩ := steps_branch B [s.draft.blocks + 3, s.draft.blocks + 2] P
    (hl 1 (by decide)) (hl 3 (by decide)) c
  have hl := hl.steps h₃
  -- the body in the second
  obtain ⟨strays, h₄, hnone⟩ := hbody _ hb (((hs.steps h₁).steps h₂).steps h₃)
    (admitsLoop_some (hl 2 (by decide)) (hl 3 (by decide)))
    ([s.draft.blocks + 3, s.draft.blocks + 2] ++ P)
  have hl := hl.steps h₄
  have h₅ := steps_enter B (strays ++ [s.draft.blocks + 3]) P (hl 2 (by decide))
  rw [List.append_assoc, List.append_assoc] at h₅
  -- and the step in the third
  have h₆ := steps_straight B hstep (strays ++ ([s.draft.blocks + 3] ++ P))
  have hl := (hl.steps h₅).steps h₆
  have h₇ := steps_jump B strays P (hl 0 (by decide)) (((hdone.steps h₄).steps h₅).steps h₆)
  exact ⟨strays, h₁.trans (h₂.trans (h₃.trans (h₄.trans (h₅.trans (h₆.trans h₇))))), hnone⟩

/-! ## IF -/

/-- `afterBranch` adds a block, but behind the last branch of an IF without ELSE. -/
theorem afterBranch_ok {isLast hasElse : Bool} {done next : Nat}
    (h : afterBranch isLast hasElse done s = .ok (next, t)) :
    (isLast = true ∧ hasElse = false ∧ next = done ∧ t = s)
      ∨ (¬ (isLast = true ∧ hasElse = false) ∧ next = s.draft.blocks
        ∧ ∃ name, name ∉ tailNames ∧ t = s.withBlock name) := by
  unfold afterBranch blockIf at h
  cases isLast with
  | false =>
    obtain ⟨rfl, rfl⟩ := newBlock_eq_ok.mp h
    exact .inr ⟨by simp, rfl, "elsif.cond", by decide, rfl⟩
  | true =>
    cases hasElse with
    | true =>
      obtain ⟨rfl, rfl⟩ := newBlock_eq_ok.mp h
      exact .inr ⟨by simp, rfl, "if.else", by decide, rfl⟩
    | false =>
      obtain ⟨rfl, rfl⟩ := pure_eq_ok.mp h
      exact .inl ⟨rfl, rfl, rfl, rfl⟩

/-- The last block of an IF is still to come after an `ifBranch`, unless that is the last part. -/
theorem ifBranch_outlined {condition : Emit Value} [Straight condition] {isLast hasElse : Bool}
    {done : Nat} {body : Emit Unit} (hbody : IsOutlined B whole loop body)
    (h : ifBranch condition (afterBranch isLast hasElse done) done body s = .ok ((), t))
    (hs : s.IsAbove B.floor) (hloop : s.AdmitsLoop B loop) (hdone : s.Lands B.floor done)
    (L R : List Nat) :
    ∃ strays, (whole → strays = [])
      ∧ (isLast = true ∧ hasElse = false → Steps B ⟨s, L ++ done :: R⟩ ⟨t, strays ++ (L ++ R)⟩)
      ∧ (¬ (isLast = true ∧ hasElse = false) →
        Steps B ⟨s, L ++ done :: R⟩ ⟨t, strays ++ (L ++ done :: R)⟩) := by
  obtain ⟨c, s₁, next, r, s₃, hc, hnext, hb, rfl⟩ := ifBranch_ok h
  have h₁ := steps_straight B hc (L ++ done :: R)
  obtain ⟨h₂, hinner⟩ := steps_withBlock B (hs.steps h₁) "if.then" (by decide) (L ++ done :: R)
  have hs₂ := (hs.steps h₁).steps h₂
  have hloop₂ := (hloop.steps h₁).steps h₂
  have hdone₂ := hdone.mono (script_of_steps (h₁.trans h₂))
  rcases afterBranch_ok hnext with ⟨hlast, helse, rfl, rfl⟩ | ⟨hmore, rfl, name, hname, rfl⟩
  · -- what comes next is the end
    obtain ⟨h₃, -⟩ := steps_branch B [] (L ++ next :: R) hinner hdone₂ c
    obtain ⟨strays, h₄, hnone⟩ := hbody hb (hs₂.steps h₃) (hloop₂.steps h₃) (L ++ next :: R)
    have h₅ := steps_enter B (strays ++ L) R (hdone₂.mono (script_of_steps (h₃.trans h₄)))
    rw [List.append_assoc, List.append_assoc] at h₅
    refine ⟨strays, hnone, fun _ => ?_, fun hmore => absurd ⟨hlast, helse⟩ hmore⟩
    exact h₁.trans (h₂.trans (h₃.trans (h₄.trans h₅)))
  · -- what comes next is a block of its own
    obtain ⟨h₃, hnext⟩ := steps_withBlock B hs₂ name hname (s₁.draft.blocks :: (L ++ done :: R))
    obtain ⟨h₄, htarget⟩ := steps_branch B [s₁.draft.blocks + 1] (L ++ done :: R)
      (hinner.mono (script_of_steps h₃)) hnext c
    obtain ⟨strays, h₅, hnone⟩ := hbody hb ((hs₂.steps h₃).steps h₄)
      ((hloop₂.steps h₃).steps h₄) ([s₁.draft.blocks + 1] ++ (L ++ done :: R))
    have h₆ := steps_jump B strays (L ++ done :: R)
      (hdone₂.mono (script_of_steps (h₃.trans (h₄.trans h₅)))) (htarget.steps h₅)
    refine ⟨strays, hnone, fun hlast => absurd hlast hmore, fun _ => ?_⟩
    exact h₁.trans (h₂.trans (h₃.trans (h₄.trans (h₅.trans h₆))))

/-- After an `elsePart` the last block of the IF is the current one. -/
theorem elsePart_outlined {done : Nat} {body : Emit Unit} (hbody : IsOutlined B whole loop body)
    (h : elsePart done body s = .ok ((), t)) (hs : s.IsAbove B.floor) (hloop : s.AdmitsLoop B loop)
    (hdone : s.Lands B.floor done) (L R : List Nat) :
    ∃ strays, Steps B ⟨s, L ++ done :: R⟩ ⟨t, strays ++ (L ++ R)⟩ ∧ (whole → strays = []) := by
  obtain ⟨s₁, hb, rfl⟩ := elsePart_ok h
  obtain ⟨strays, h₁, hnone⟩ := hbody hb hs hloop (L ++ done :: R)
  have h₂ := steps_enter B (strays ++ L) R (hdone.mono (script_of_steps h₁))
  rw [List.append_assoc, List.append_assoc] at h₂
  exact ⟨strays, h₁.trans h₂, hnone⟩

/-! ## CASE -/

/-- `blockIf` adds a block if it is wanted, and does nothing otherwise. -/
theorem blockIf_ok {wanted : Bool} {name : String} {label l : Nat}
    (h : blockIf wanted name label s = .ok (l, t)) :
    (wanted = true ∧ l = s.draft.blocks ∧ t = s.withBlock name)
      ∨ (wanted = false ∧ l = label ∧ t = s) := by
  unfold blockIf at h
  cases wanted with
  | true =>
    obtain ⟨rfl, rfl⟩ := newBlock_eq_ok.mp h
    exact .inl ⟨rfl, rfl, rfl⟩
  | false =>
    obtain ⟨rfl, rfl⟩ := pure_eq_ok.mp h
    exact .inr ⟨rfl, rfl, rfl⟩

/-- After a `caseBranch` comes the next test, or the block for any other value. -/
theorem caseBranch_outlined {selector : Value} {labels : List Literal} {isLast : Bool}
    {test done fallback next : Nat} {body : Emit Unit} (hbody : IsOutlined B whole loop body)
    (h : caseBranch selector labels test done (blockIf (!isLast) "case.cond" fallback) body s
      = .ok (next, t))
    (hs : s.IsAbove B.floor) (hloop : s.AdmitsLoop B loop) (hdone : s.Lands B.floor done)
    (hfallback : s.Lands B.floor fallback) (L R : List Nat) :
    ∃ strays, (whole → strays = [])
      ∧ (isLast = true → next = fallback
        ∧ Steps B ⟨s.moved test, L ++ fallback :: R⟩ ⟨t.moved fallback, strays ++ (L ++ R)⟩)
      ∧ (isLast = false → Steps B ⟨s.moved test, L ++ fallback :: R⟩
        ⟨t.moved next, strays ++ (L ++ fallback :: R)⟩) := by
  obtain ⟨c, s₁, s₂, s₃, hc, hnext, hb, rfl⟩ := caseBranch_ok h
  have hmove : ReflTransGen Changes s (s.moved test) := .single (.move s test)
  have h₁ := steps_straight B hc (L ++ fallback :: R)
  have hs₁ := (hs.of_changes hmove).steps h₁
  obtain ⟨h₂, hinner⟩ := steps_withBlock B hs₁ "case.body" (by decide) (L ++ fallback :: R)
  have hscript := (script_of_changes hmove).trans (script_of_steps (h₁.trans h₂))
  have hs₂ := hs₁.steps h₂
  have hloop₂ := hloop.mono hscript
  have hdone₂ := hdone.mono hscript
  rcases blockIf_ok hnext with ⟨hmore, rfl, rfl⟩ | ⟨hlast, rfl, rfl⟩
  · -- the next test gets a block of its own
    obtain ⟨h₃, hnext⟩ := steps_withBlock B hs₂ "case.cond" (by decide)
      (s₁.draft.blocks :: (L ++ fallback :: R))
    obtain ⟨h₄, htarget⟩ := steps_branch B [s₁.draft.blocks + 1] (L ++ fallback :: R)
      (hinner.mono (script_of_steps h₃)) hnext c
    obtain ⟨strays, h₅, hnone⟩ := hbody hb ((hs₂.steps h₃).steps h₄)
      ((hloop₂.steps h₃).steps h₄) ([s₁.draft.blocks + 1] ++ (L ++ fallback :: R))
    have h₆ := steps_jump B strays (L ++ fallback :: R)
      (hdone₂.mono (script_of_steps (h₃.trans (h₄.trans h₅)))) (htarget.steps h₅)
    refine ⟨strays, hnone, fun hlast => ?_, fun _ => ?_⟩
    · rw [hlast] at hmore
      cases hmore
    · exact h₁.trans (h₂.trans (h₃.trans (h₄.trans (h₅.trans h₆))))
  · obtain ⟨h₃, htarget⟩ := steps_branch B [] (L ++ next :: R) hinner (hfallback.mono hscript) c
    obtain ⟨strays, h₄, hnone⟩ := hbody hb (hs₂.steps h₃) (hloop₂.steps h₃) (L ++ next :: R)
    have h₅ := steps_jump B (strays ++ L) R (hdone₂.mono (script_of_steps (h₃.trans h₄)))
      (htarget.steps h₄)
    rw [List.append_assoc, List.append_assoc] at h₅
    refine ⟨strays, hnone, fun _ => ⟨rfl, ?_⟩, fun hmore => ?_⟩
    · exact h₁.trans (h₂.trans (h₃.trans (h₄.trans h₅)))
    · rw [hmore] at hlast
      cases hlast

end Emit

open Emission Outline

/-! ## Statements -/

section

variable {B : Bounds} {whole : Prop} {scene : Scene} {loop : Option Loop} {s t : Emission}

/-- `emitStatements` is outlined if each statement is. -/
theorem isOutlined_emitStatements_of {body : List Statement}
    (h : ∀ s ∈ body, ∀ loop, IsOutlined B whole loop (s.emit scene loop)) :
    IsOutlined B whole loop (emitStatements scene loop body) := by
  induction body with
  | nil => exact isOutlined_straight (pure ())
  | cons s rest ih =>
    rw [emitStatements]
    exact (h s List.mem_cons_self loop).seq (ih fun s hs => h s (List.mem_cons_of_mem _ hs))

/-- `emitElse` leads to the last block, whether there is an ELSE part or not. -/
theorem emitElse_outlined {otherwise : Option (List Statement)} {done : Nat}
    (ho : ∀ body ∈ otherwise, ∀ s ∈ body, ∀ loop, IsOutlined B whole loop (s.emit scene loop))
    (h : emitElse scene loop done otherwise s = .ok ((), t)) (hs : s.IsAbove B.floor)
    (hloop : s.AdmitsLoop B loop) (hdone : s.Lands B.floor done) (L R : List Nat) :
    ∃ strays, (whole → strays = []) ∧ Steps B
      ⟨s, L ++ (if otherwise.isSome then [done] else []) ++ R⟩ ⟨t, strays ++ (L ++ R)⟩ := by
  cases otherwise with
  | none =>
    obtain ⟨-, rfl⟩ := pure_eq_ok.mp h
    refine ⟨[], fun _ => rfl, ?_⟩
    rw [List.append_assoc]
    exact .refl
  | some body =>
    obtain ⟨strays, hsteps, hnone⟩ :=
      elsePart_outlined (isOutlined_emitStatements_of (ho body rfl)) h hs hloop hdone L R
    refine ⟨strays, hnone, ?_⟩
    rw [List.append_assoc]
    exact hsteps

/-- `emitBranches` leads from test to test; there has to be a branch. -/
theorem emitBranches_outlined {branches : List (Expr × List Statement)} {done : Nat}
    {hasElse : Bool} (hne : branches ≠ [])
    (hb : ∀ branch ∈ branches, ∀ s ∈ branch.2, ∀ loop, IsOutlined B whole loop (s.emit scene loop))
    (h : emitBranches scene loop done hasElse branches s = .ok ((), t)) (hs : s.IsAbove B.floor)
    (hloop : s.AdmitsLoop B loop) (hdone : s.Lands B.floor done) (L R : List Nat) :
    ∃ strays, (whole → strays = []) ∧ Steps B ⟨s, L ++ done :: R⟩
      ⟨t, strays ++ L ++ (if hasElse then [done] else []) ++ R⟩ := by
  induction branches generalizing s L with
  | nil => exact absurd rfl hne
  | cons branch rest ih =>
    obtain ⟨condition, body⟩ := branch
    rw [emitBranches] at h
    obtain ⟨_, r, hr, hrest⟩ := bind_eq_ok.mp h
    obtain ⟨strays, hnone, hlast, hmore⟩ := ifBranch_outlined
      (isOutlined_emitStatements_of (hb _ List.mem_cons_self)) hr hs hloop hdone L R
    cases rest with
    | nil =>
      obtain ⟨-, rfl⟩ := pure_eq_ok.mp hrest
      refine ⟨strays, hnone, ?_⟩
      cases hasElse with
      | false => simpa using hlast ⟨rfl, rfl⟩
      | true => simpa using hmore (by simp)
    | cons branch' rest =>
      have hsteps := hmore (by simp)
      obtain ⟨strays', hnone', hsteps'⟩ := ih (List.cons_ne_nil _ _)
        (fun branch hbranch => hb branch (List.mem_cons_of_mem _ hbranch)) hrest
        (hs.steps hsteps) (hloop.steps hsteps) (hdone.mono (script_of_steps hsteps)) (strays ++ L)
      -- what one branch leaves behind stands before what the next one leaves
      rw [← List.append_assoc] at hsteps
      refine ⟨strays' ++ strays, fun hw => by rw [hnone hw, hnone' hw]; rfl, ?_⟩
      rw [List.append_assoc strays' strays L]
      exact hsteps.trans hsteps'

/-- `emitCases` leads from test to test, and at last to the block for any other value. -/
theorem emitCases_outlined {branches : List (List Literal × List Statement)} {selector : Value}
    {done fallback test : Nat} (hne : branches ≠ [])
    (hb : ∀ branch ∈ branches, ∀ s ∈ branch.2, ∀ loop, IsOutlined B whole loop (s.emit scene loop))
    (h : emitCases scene loop selector done fallback test branches s = .ok ((), t))
    (hs : s.IsAbove B.floor) (hloop : s.AdmitsLoop B loop) (hdone : s.Lands B.floor done)
    (hfallback : s.Lands B.floor fallback) (L R : List Nat) :
    ∃ strays, (whole → strays = []) ∧ Steps B ⟨s.moved test, L ++ fallback :: R⟩
      ⟨t.moved fallback, strays ++ (L ++ R)⟩ := by
  induction branches generalizing s test L with
  | nil => exact absurd rfl hne
  | cons branch rest ih =>
    obtain ⟨labels, body⟩ := branch
    rw [emitCases] at h
    obtain ⟨next, r, hr, hrest⟩ := bind_eq_ok.mp h
    obtain ⟨strays, hnone, hlast, hmore⟩ := caseBranch_outlined
      (isOutlined_emitStatements_of (hb _ List.mem_cons_self)) hr hs hloop hdone hfallback L R
    cases rest with
    | nil =>
      obtain ⟨-, rfl⟩ := pure_eq_ok.mp hrest
      exact ⟨strays, hnone, (hlast rfl).2⟩
    | cons branch' rest =>
      have hsteps := hmore rfl
      -- the steps start at the block of the test, the script where the branch before has ended
      have hchanges :=
        traces_caseBranch (traces_blockIf _ _ _) (traces_emitStatements _ _ _) hr
      have hscript : s.draft.script.toList <+: r.draft.script.toList := script_of_changes hchanges
      have hcounted := hs.of_changes hchanges
      obtain ⟨strays', hnone', hsteps'⟩ := ih (List.cons_ne_nil _ _)
        (fun branch hbranch => hb branch (List.mem_cons_of_mem _ hbranch)) hrest hcounted
        (hloop.mono hscript) (hdone.mono hscript) (hfallback.mono hscript) (strays ++ L)
      rw [← List.append_assoc] at hsteps
      refine ⟨strays' ++ strays, fun hw => by rw [hnone hw, hnone' hw]; rfl, ?_⟩
      rw [List.append_assoc strays' strays (L ++ R), ← List.append_assoc strays L R]
      exact hsteps.trans hsteps'

/-- `ifThen` goes to its last block, unless it has neither a branch nor an ELSE part: `whole`
excludes that. -/
theorem isOutlined_ifThen {branches : List (Expr × List Statement)}
    {otherwise : Option (List Statement)} (hwhole : whole → branches ≠ [])
    (hb : ∀ branch ∈ branches, ∀ s ∈ branch.2, ∀ loop, IsOutlined B whole loop (s.emit scene loop))
    (ho : ∀ body ∈ otherwise, ∀ s ∈ body, ∀ loop, IsOutlined B whole loop (s.emit scene loop)) :
    IsOutlined B whole loop ((Statement.ifThen branches otherwise).emit scene loop) := by
  intro s u t h hs hloop P
  rw [Statement.emit] at h
  obtain ⟨done, r, hr, h⟩ := bind_eq_ok.mp h
  obtain ⟨rfl, rfl⟩ := newBlock_eq_ok.mp hr
  obtain ⟨_, r, hbranches, helse⟩ := bind_eq_ok.mp h
  obtain ⟨h₁, hdone⟩ := steps_withBlock B hs "if.end" (by decide) P
  have hs₁ := hs.steps h₁
  have hloop₁ := hloop.steps h₁
  cases hempty : branches with
  | cons branch rest =>
    have hne : branches ≠ [] := by simp [hempty]
    obtain ⟨strays, hnone, h₂⟩ := emitBranches_outlined hne hb hbranches hs₁ hloop₁ hdone [] P
    rw [List.append_nil] at h₂
    obtain ⟨strays', hnone', h₃⟩ := emitElse_outlined ho helse (hs₁.steps h₂) (hloop₁.steps h₂)
      (hdone.mono (script_of_steps h₂)) strays P
    refine ⟨strays' ++ strays, ?_, fun hw => by rw [hnone hw, hnone' hw]; rfl⟩
    rw [List.append_assoc]
    exact h₁.trans (h₂.trans h₃)
  | nil =>
    -- an IF without branches may leave its last block unused
    have hnot : ¬ whole := fun hw => hwhole hw hempty
    rw [hempty] at hbranches
    obtain ⟨-, rfl⟩ := pure_eq_ok.mp hbranches
    cases otherwise with
    | none =>
      obtain ⟨-, rfl⟩ := pure_eq_ok.mp helse
      exact ⟨[s.draft.blocks], h₁, fun hw => absurd hw hnot⟩
    | some body =>
      obtain ⟨strays, -, h₂⟩ := emitElse_outlined ho helse hs₁ hloop₁ hdone [] P
      exact ⟨strays, h₁.trans h₂, fun hw => absurd hw hnot⟩

/-- `caseHead` adds the blocks that all branches share, and the emission goes on at the first
test. -/
theorem caseHead_outlined {selector : Emit Value} [Straight selector] {hasElse : Bool} {v : Value}
    {done fallback test : Nat}
    (h : caseHead selector hasElse s = .ok ((v, done, fallback, test), t)) (hs : s.IsAbove B.floor)
    (P : List Nat) :
    Steps B ⟨s, P⟩ ⟨t.moved test, fallback :: ((if hasElse then [done] else []) ++ P)⟩
      ∧ t.Lands B.floor done ∧ t.Lands B.floor fallback := by
  obtain ⟨s₁, s₂, hv, rfl, hblock, rfl, rfl⟩ := caseHead_ok h
  have h₁ := steps_straight B hv P
  have hs₁ := hs.steps h₁
  obtain ⟨h₂, hdone⟩ := steps_withBlock B hs₁ "case.end" (by decide) P
  have hs₂ := hs₁.steps h₂
  -- the block for any other value is one of its own, or the end
  have hother : Steps B ⟨s₁.withBlock "case.end", s₁.draft.blocks :: P⟩
        ⟨s₂, fallback :: ((if hasElse then [s₁.draft.blocks] else []) ++ P)⟩
      ∧ s₂.Lands B.floor fallback := by
    rcases blockIf_ok hblock with ⟨rfl, rfl, rfl⟩ | ⟨rfl, rfl, rfl⟩
    · exact steps_withBlock B hs₂ "case.else" (by decide) (s₁.draft.blocks :: P)
    · exact ⟨.refl, hdone⟩
  obtain ⟨h₃, hfallback⟩ := hother
  obtain ⟨h₄, htest⟩ := steps_withBlock B (hs₂.steps h₃) "case.cond" (by decide)
    (fallback :: ((if hasElse then [s₁.draft.blocks] else []) ++ P))
  have h₅ := steps_enter B [] (fallback :: ((if hasElse then [s₁.draft.blocks] else []) ++ P)) htest
  have hend : ReflTransGen Changes (s₂.withBlock "case.cond")
      ((s₂.withBlock "case.cond").terminated (.jump s₂.draft.blocks)) := .single (.terminate _ _)
  have hscript := (script_of_steps h₄).trans (script_of_changes hend)
  refine ⟨h₁.trans (h₂.trans (h₃.trans (h₄.trans h₅))), ?_, hfallback.mono hscript⟩
  exact (hdone.mono (script_of_steps h₃)).mono hscript

/-- The tests of a CASE by `emitCases`, one after the other, and then the block for any other
value. -/
theorem emitCases_caseFallback_outlined {branches : List (List Literal × List Statement)}
    {selector : Value} {done fallback test : Nat} {r : Emission}
    (hb : ∀ branch ∈ branches, ∀ s ∈ branch.2, ∀ loop, IsOutlined B whole loop (s.emit scene loop))
    (h : emitCases scene loop selector done fallback test branches s = .ok ((), r))
    (hf : caseFallback branches.isEmpty test fallback r = .ok ((), t))
    (hs : s.IsAbove B.floor) (hloop : s.AdmitsLoop B loop) (hdone : s.Lands B.floor done)
    (hfallback : s.Lands B.floor fallback) (Q : List Nat) :
    ∃ strays, (whole → strays = []) ∧ Steps B ⟨s.moved test, fallback :: Q⟩ ⟨t, strays ++ Q⟩ := by
  cases hempty : branches with
  | nil =>
    rw [hempty] at h hf
    obtain ⟨-, rfl⟩ := pure_eq_ok.mp h
    rcases caseFallback_ok hf with ⟨-, rfl⟩ | ⟨hfalse, -⟩
    · have hmoved := hfallback.mono (script_of_changes (.single (.move r test)))
      exact ⟨[], fun _ => rfl, steps_enter B [] Q hmoved⟩
    · cases hfalse
  | cons branch rest =>
    rcases caseFallback_ok hf with ⟨htrue, -⟩ | ⟨-, rfl⟩
    · rw [hempty] at htrue
      cases htrue
    · exact emitCases_outlined (by simp [hempty]) hb h hs hloop hdone hfallback [] Q

theorem isOutlined_caseOf {selector : Expr} {branches : List (List Literal × List Statement)}
    {otherwise : Option (List Statement)}
    (hb : ∀ branch ∈ branches, ∀ s ∈ branch.2, ∀ loop, IsOutlined B whole loop (s.emit scene loop))
    (ho : ∀ body ∈ otherwise, ∀ s ∈ body, ∀ loop, IsOutlined B whole loop (s.emit scene loop)) :
    IsOutlined B whole loop ((Statement.caseOf selector branches otherwise).emit scene loop) := by
  intro s u t h hs hloop P
  rw [Statement.emit] at h
  obtain ⟨⟨v, done, fallback, test⟩, s₁, hhead, h⟩ := bind_eq_ok.mp h
  obtain ⟨_, s₂, hcases, h⟩ := bind_eq_ok.mp h
  obtain ⟨_, s₃, hother, helse⟩ := bind_eq_ok.mp h
  obtain ⟨h₁, hdone, hfallback⟩ := caseHead_outlined hhead hs P
  have hchanges := traces_caseHead (selector.traces_emit _) hhead
  have hscript := script_of_changes hchanges
  obtain ⟨strays, hnone, h₂⟩ := emitCases_caseFallback_outlined hb hcases hother
    (hs.of_changes hchanges) (hloop.mono hscript) hdone hfallback
    ((if otherwise.isSome then [done] else []) ++ P)
  have hmoved : ReflTransGen Changes s₁ (s₁.moved test) := .single (.move s₁ test)
  have hlater := (script_of_changes hmoved).trans (script_of_steps h₂)
  obtain ⟨strays', hnone', h₃⟩ := emitElse_outlined ho helse
    (((hs.of_changes hchanges).of_changes hmoved).steps h₂)
    ((hloop.mono hscript).mono hlater) (hdone.mono hlater) strays P
  rw [List.append_assoc] at h₃
  refine ⟨strays' ++ strays, ?_, fun hw => by rw [hnone hw, hnone' hw]; rfl⟩
  rw [List.append_assoc]
  exact h₁.trans (h₂.trans h₃)

end

/-- What the statements inside of a statement do by `IsOutlined`, it does. -/
theorem Emit.IsOutlined.part {floor : Nat} {outer : Nat → Prop} {scene : Scene} {loop : Option Loop}
    {s u : Statement} (h : IsOutlined ⟨floor, outer, ¬ u.Every Statement.fallsThrough⟩
      (u.Every Statement.hasBranch) loop (u.emit scene loop))
    (hpart : ∀ p, s.Every p → u.Every p) :
    IsOutlined ⟨floor, outer, ¬ s.Every Statement.fallsThrough⟩ (s.Every Statement.hasBranch) loop
      (u.emit scene loop) :=
  h.weaken (fun hexit hs => hexit (hpart _ hs)) (hpart _)

/-- `Statement.emit` takes the steps of an outline. There are early exits only where RETURN, BREAK
or CONTINUE stands, and no strays if every IF has a branch. -/
theorem Statement.isOutlined_emit (floor : Nat) (outer : Nat → Prop) (scene : Scene) (s : Statement)
    (loop : Option Loop) :
    IsOutlined ⟨floor, outer, ¬ s.Every Statement.fallsThrough⟩ (s.Every Statement.hasBranch) loop
      (s.emit scene loop) := by
  induction s using Statement.induction generalizing loop with
  | assign target value =>
    have : Straight (emitAssign scene.env target value) := ⟨traces_emitAssign _ target value⟩
    exact isOutlined_straight (emitAssign scene.env target value)
  | call name arguments =>
    have : Straight (emitCallStatement scene.env name arguments) :=
      ⟨traces_emitCallStatement _ name arguments⟩
    exact isOutlined_straight (emitCallStatement scene.env name arguments)
  | ifThen branches otherwise ihb iho =>
    refine isOutlined_ifThen (fun hw hempty => ?_) ?_ ?_
    · have htest := hw.test
      rw [hempty] at htest
      cases htest
    · intro branch hbranch s hs loop
      exact (ihb branch hbranch s hs loop).part fun p hp => hp.ifBranch hbranch s hs
    · intro body hbody s hs loop
      exact (iho body hbody s hs loop).part fun p hp => hp.ifElse hbody s hs
  | whileDo condition body ih =>
    rw [Statement.emit]
    refine isOutlined_whileDo fun l => isOutlined_emitStatements_of fun s hs loop => ?_
    exact (ih s hs loop).part fun p hp => hp.parts s hs
  | repeatUntil body condition ih =>
    rw [Statement.emit]
    refine isOutlined_repeatUntil fun l => isOutlined_emitStatements_of fun s hs loop => ?_
    exact (ih s hs loop).part fun p hp => hp.parts s hs
  | forDo counter start limit direction body ih =>
    rw [Statement.emit, forDo_eq]
    refine isOutlined_bind fun _ => isOutlined_countTo fun l =>
      isOutlined_emitStatements_of fun s hs loop => ?_
    exact (ih s hs loop).part fun p hp => hp.parts s hs
  | caseOf selector branches otherwise ihb iho =>
    refine isOutlined_caseOf ?_ ?_
    · intro branch hbranch s hs loop
      exact (ihb branch hbranch s hs loop).part fun p hp => hp.caseBranch hbranch s hs
    · intro body hbody s hs loop
      exact (iho body hbody s hs loop).part fun p hp => hp.caseElse hbody s hs
  | breakLoop =>
    cases loop with
    | none => exact isOutlined_fail _
    | some l =>
      exact isOutlined_leave (Every.not_of_false rfl) (by decide) fun s hs =>
        aims_jump (hs l rfl).2
  | continueLoop =>
    cases loop with
    | none => exact isOutlined_fail _
    | some l =>
      exact isOutlined_leave (Every.not_of_false rfl) (by decide) fun s hs =>
        aims_jump (hs l rfl).1
  | returnWith value =>
    refine isOutlined_bind fun _ => isOutlined_leave (Every.not_of_false rfl) (by decide) ?_
    intro s _ l hl
    cases hl

/-- `emitStatements` of any body takes the steps of an outline, with the bounds of
`Statement.isOutlined_emit`. -/
theorem isOutlined_emitStatements (floor : Nat) (outer : Nat → Prop) (scene : Scene)
    (loop : Option Loop) (body : List Statement) :
    IsOutlined ⟨floor, outer, ¬ Passes Statement.fallsThrough body⟩
      (Passes Statement.hasBranch body) loop (emitStatements scene loop body) := by
  refine isOutlined_emitStatements_of fun s hs loop => ?_
  exact (s.isOutlined_emit floor outer scene loop).weaken (fun hexit hbody => hexit (hbody s hs))
    fun hbody => hbody s hs

end Oberon
