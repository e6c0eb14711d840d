import Oberon.Proofs.Blocks
import Oberon.Proofs.ControlParts

/-!
# How control structures are laid out

One lemma for each control structure says how its parts hang together: in which blocks they stand,
and how these end. It follows that every statement works on the current block and on new ones only.
-/

namespace Oberon

open Code

/-! ## Control structures -/

namespace Emit

open Emission

/-- An action that does what a statement does: in an open block, it `Weaves`. -/
def IsWoven {α : Type} (x : Emit α) : Prop :=
  ∀ ⦃s a t⦄, x s = .ok (a, t) → s.IsOpen → s.Weaves t

variable {α : Type} {s t : Emission}

theorem isWoven_straight (x : Emit α) [Straight x] : IsWoven x := by
  intro s a t h hs
  obtain ⟨code, hcode⟩ := Straight.exists_adds h
  exact hs.weaves_adds hcode

theorem IsWoven.bind {β : Type} {x : Emit α} {f : α → Emit β} (hx : IsWoven x)
    (hf : ∀ a, IsWoven (f a)) : IsWoven (x >>= f) := by
  intro s b t h hs
  obtain ⟨a, r, hr, ht⟩ := bind_eq_ok.mp h
  have hfirst := hx hr hs
  exact hfirst.trans (hf a ht hfirst.isOpen)

theorem leave_flow {term : Terminator} {name : String} (h : leave term name s = .ok ((), t))
    (hs : s.IsOpen) : s.Turns term s.draft.blocks t := by
  obtain rfl := leave_ok h
  exact hs.turns_leave term name

/-- The parts of `whileDo`: the test leads to the body and behind the loop, the body back to the
test. -/
theorem whileDo_flow {condition : Emit Value} [Straight condition] {body : Loop → Emit Unit}
    (hbody : ∀ loop, IsWoven (body loop)) (h : whileDo condition body s = .ok ((), t))
    (hs : s.IsOpen) :
    ∃ test inner done c s₁ s₂ s₃ s₄, s.Turns (.jump test) test s₁ ∧ condition s₁ = .ok (c, s₂)
      ∧ s₂.Turns (.branch c inner done) inner s₃ ∧ body ⟨test, done⟩ s₃ = .ok ((), s₄)
      ∧ s₄.Turns (.jump test) done t ∧ s.Weaves t := by
  obtain ⟨c, s₂, s₄, hc, hb, rfl⟩ := whileDo_ok h
  obtain ⟨hjump, hawaits⟩ := hs.enters ["while.cond", "while.body", "while.end"] (by decide)
  have hinner := hawaits 1 (by decide) (by decide)
  have hdone := hawaits 2 (by decide) (by decide)
  -- the condition stands in the first block
  obtain ⟨code, hcode⟩ := Straight.exists_adds hc
  have hweave := hjump.isOpen.weaves_adds hcode
  have hinner := hinner.weaves hjump.isOpen hweave
  have hdone := hdone.weaves hjump.isOpen hweave
  have hbranch := hinner.turns hweave.isOpen (.branch c (s.draft.blocks + 1) (s.draft.blocks + 2))
  have hdone := hdone.turned hweave.isOpen
    (show s.draft.blocks + 2 ≠ s.draft.blocks + 1 by omega)
    (.branch c (s.draft.blocks + 1) (s.draft.blocks + 2))
  -- and the body in the second
  have hweave' := hbody _ hb hbranch.isOpen
  have hback := (hdone.weaves hbranch.isOpen hweave').turns hweave'.isOpen (.jump s.draft.blocks)
  refine ⟨s.draft.blocks, s.draft.blocks + 1, s.draft.blocks + 2, c, _, s₂, _, s₄, hjump, hc,
    hbranch, hb, hback, ?_⟩
  exact (((((Weaves.refl hs).turns hjump le_rfl).trans hweave).turns hbranch
    (Nat.le_add_right _ 1)).trans hweave').turns hback (Nat.le_add_right _ 2)

/-- The parts of `repeatUntil`: the body leads to the test, the test back to the body and behind the
loop. -/
theorem repeatUntil_flow {condition : Emit Value} [Straight condition] {body : Loop → Emit Unit}
    (hbody : ∀ loop, IsWoven (body loop)) (h : repeatUntil body condition s = .ok ((), t))
    (hs : s.IsOpen) :
    ∃ inner test done c s₁ s₂ s₃ s₄, s.Turns (.jump inner) inner s₁
      ∧ body ⟨test, done⟩ s₁ = .ok ((), s₂) ∧ s₂.Turns (.jump test) test s₃
      ∧ condition s₃ = .ok (c, s₄) ∧ s₄.Turns (.branch c done inner) done t ∧ s.Weaves t := by
  obtain ⟨s₂, c, s₄, hb, hc, rfl⟩ := repeatUntil_ok h
  obtain ⟨hjump, hawaits⟩ := hs.enters ["repeat.body", "repeat.cond", "repeat.end"] (by decide)
  have htest := hawaits 1 (by decide) (by decide)
  have hdone := hawaits 2 (by decide) (by decide)
  -- the body stands in the first block
  have hweave := hbody _ hb hjump.isOpen
  have htest := htest.weaves hjump.isOpen hweave
  have hdone := hdone.weaves hjump.isOpen hweave
  have hnext := htest.turns hweave.isOpen (.jump (s.draft.blocks + 1))
  have hdone := hdone.turned hweave.isOpen
    (show s.draft.blocks + 2 ≠ s.draft.blocks + 1 by omega) (.jump (s.draft.blocks + 1))
  -- and the condition in the second
  obtain ⟨code, hcode⟩ := Straight.exists_adds hc
  have hweave' := hnext.isOpen.weaves_adds hcode
  have hback := (hdone.weaves hnext.isOpen hweave').turns hweave'.isOpen
    (.branch c (s.draft.blocks + 2) s.draft.blocks)
  refine ⟨s.draft.blocks, s.draft.blocks + 1, s.draft.blocks + 2, c, _, s₂, _, s₄, hjump, hb,
    hnext, hc, hback, ?_⟩
  exact (((((Weaves.refl hs).turns hjump le_rfl).trans hweave).turns hnext
    (Nat.le_add_right _ 1)).trans hweave').turns hback (Nat.le_add_right _ 2)

/-- The parts of `countTo`, whose four blocks are new. -/
theorem countTo_parts {place limit : Value} {bits : Nat} {direction : Direction}
    {body : Loop → Emit Unit} {u : Unit}
    (h : countTo place bits limit direction body s = .ok (u, t)) :
    ∃ c s₂ s₄ s₆, forTest place bits limit direction (((((((s.withBlock
        "for.cond").withBlock "for.body").withBlock "for.inc").withBlock "for.end").terminated
        (.jump s.draft.blocks)).moved s.draft.blocks)) = .ok (c, s₂)
      ∧ body ⟨s.draft.blocks + 2, s.draft.blocks + 3⟩
        ((s₂.terminated (.branch c (s.draft.blocks + 1) (s.draft.blocks + 3))).moved
          (s.draft.blocks + 1)) = .ok ((), s₄)
      ∧ forStep place bits direction ((s₄.terminated (.jump (s.draft.blocks + 2))).moved
          (s.draft.blocks + 2)) = .ok ((), s₆)
      ∧ t = (s₆.terminated (.jump s.draft.blocks)).moved (s.draft.blocks + 3) := by
  simp only [countTo, bind_eq_ok, newBlock_eq_ok, branch_eq_ok, switchTo_eq_ok, jump_eq_ok,
    and_assoc, exists_and_left, exists_eq_left, exists_const] at h
  obtain ⟨current, r, hload, c, s₂, hc, _, s₄, hb, current', r', hload', next, r'', hnext, _,
    s₆, hstore, ht⟩ := h
  refine ⟨c, s₂, s₄, s₆, bind_eq_ok.mpr ⟨current, r, hload, hc⟩, hb, ?_, ht⟩
  exact bind_eq_ok.mpr ⟨current', r', hload', bind_eq_ok.mpr ⟨next, r'', hnext, hstore⟩⟩

/-- How the four blocks of `countTo` end, and from where the code `Turns` to each of them. -/
theorem countTo_turns {place limit : Value} {bits : Nat} {direction : Direction}
    {body : Loop → Emit Unit} (hbody : ∀ loop, IsWoven (body loop))
    (h : countTo place bits limit direction body s = .ok ((), t)) (hs : s.IsOpen) :
    ∃ c s₁ s₂ s₃ s₄ s₅ s₆, s.Turns (.jump s.draft.blocks) s.draft.blocks s₁
      ∧ forTest place bits limit direction s₁ = .ok (c, s₂)
      ∧ s₂.Turns (.branch c (s.draft.blocks + 1) (s.draft.blocks + 3)) (s.draft.blocks + 1) s₃
      ∧ body ⟨s.draft.blocks + 2, s.draft.blocks + 3⟩ s₃ = .ok ((), s₄)
      ∧ s₄.Turns (.jump (s.draft.blocks + 2)) (s.draft.blocks + 2) s₅
      ∧ forStep place bits direction s₅ = .ok ((), s₆)
      ∧ s₆.Turns (.jump s.draft.blocks) (s.draft.blocks + 3) t
      ∧ s₃.draft.blocks = s.draft.blocks + 4 := by
  obtain ⟨c, s₂, s₄, s₆, hc, hb, hstep, rfl⟩ := countTo_parts h
  obtain ⟨hjump, hawaits⟩ := hs.enters ["for.cond", "for.body", "for.inc", "for.end"] (by decide)
  have hinner := hawaits 1 (by decide) (by decide)
  have hinc := hawaits 2 (by decide) (by decide)
  have hdone := hawaits 3 (by decide) (by decide)
  -- the test stands in the first block
  obtain ⟨code, hcode⟩ := Straight.exists_adds hc
  have hweave := hjump.isOpen.weaves_adds hcode
  have hinner := hinner.weaves hjump.isOpen hweave
  have hinc := hinc.weaves hjump.isOpen hweave
  have hdone := hdone.weaves hjump.isOpen hweave
  have hbranch := hinner.turns hweave.isOpen (.branch c (s.draft.blocks + 1) (s.draft.blocks + 3))
  have hinc := hinc.turned hweave.isOpen (show s.draft.blocks + 2 ≠ s.draft.blocks + 1 by omega)
    (.branch c (s.draft.blocks + 1) (s.draft.blocks + 3))
  have hdone := hdone.turned hweave.isOpen (show s.draft.blocks + 3 ≠ s.draft.blocks + 1 by omega)
    (.branch c (s.draft.blocks + 1) (s.draft.blocks + 3))
  -- the body in the second
  have hweave' := hbody _ hb hbranch.isOpen
  have hinc := hinc.weaves hbranch.isOpen hweave'
  have hdone := hdone.weaves hbranch.isOpen hweave'
  have hnext := hinc.turns hweave'.isOpen (.jump (s.draft.blocks + 2))
  have hdone := hdone.turned hweave'.isOpen (show s.draft.blocks + 3 ≠ s.draft.blocks + 2 by omega)
    (.jump (s.draft.blocks + 2))
  -- and the step in the third
  obtain ⟨code', hcode'⟩ := Straight.exists_adds hstep
  have hweave'' := hnext.isOpen.weaves_adds hcode'
  have hback := (hdone.weaves hnext.isOpen hweave'').turns hweave''.isOpen (.jump s.draft.blocks)
  exact ⟨c, _, s₂, _, s₄, _, s₆, hjump, hc, hbranch, hb, hnext, hstep, hback, hcode.blocks⟩

/-- The parts of `countTo`: the test leads to the body and behind the loop, the body to the step,
the step back to the test. -/
theorem countTo_flow {place limit : Value} {bits : Nat} {direction : Direction}
    {body : Loop → Emit Unit} (hbody : ∀ loop, IsWoven (body loop))
    (h : countTo place bits limit direction body s = .ok ((), t)) (hs : s.IsOpen) :
    ∃ test inner step done c s₁ s₂ s₃ s₄ s₅ s₆, s.Turns (.jump test) test s₁
      ∧ forTest place bits limit direction s₁ = .ok (c, s₂)
      ∧ s₂.Turns (.branch c inner done) inner s₃ ∧ body ⟨step, done⟩ s₃ = .ok ((), s₄)
      ∧ s₄.Turns (.jump step) step s₅ ∧ forStep place bits direction s₅ = .ok ((), s₆)
      ∧ s₆.Turns (.jump test) done t ∧ s.Weaves t := by
  obtain ⟨c, s₁, s₂, s₃, s₄, s₅, s₆, hjump, hc, hbranch, hb, hnext, hstep, hback, -⟩ :=
    countTo_turns hbody h hs
  refine ⟨_, _, _, _, c, s₁, s₂, s₃, s₄, s₅, s₆, hjump, hc, hbranch, hb, hnext, hstep, hback, ?_⟩
  have hweave := isWoven_straight _ hc hjump.isOpen
  have hweave' := hbody _ hb hbranch.isOpen
  have hweave'' := isWoven_straight _ hstep hnext.isOpen
  exact (((((((Weaves.refl hs).turns hjump le_rfl).trans hweave).turns hbranch
    (Nat.le_add_right _ 1)).trans hweave').turns hnext (Nat.le_add_right _ 2)).trans
    hweave'').turns hback (Nat.le_add_right _ 3)

/-- `elsePart` stands in the current block and leads to the end. -/
theorem elsePart_flow {done : Nat} {body : Emit Unit} (hbody : IsWoven body)
    (h : elsePart done body s = .ok ((), t)) (hs : s.IsOpen) (hdone : s.Awaits done) :
    ∃ s₁, body s = .ok ((), s₁) ∧ s.Weaves s₁ ∧ s₁.Turns (.jump done) done t := by
  obtain ⟨s₁, hb, rfl⟩ := elsePart_ok h
  have hweave := hbody hb hs
  exact ⟨s₁, hb, hweave, (hdone.weaves hs hweave).turns hweave.isOpen _⟩

theorem afterBranch_flow {isLast hasElse : Bool} {done next : Nat}
    (h : afterBranch isLast hasElse done s = .ok (next, t)) (hs : s.IsOpen)
    (hdone : s.Awaits done) :
    s.Prepares t ∧ t.Awaits next
      ∧ ((isLast = true ∧ hasElse = false ∧ next = done)
        ∨ (¬ (isLast = true ∧ hasElse = false) ∧ s.draft.blocks ≤ next)) := by
  have hnew (name : String) : s.Prepares (s.withBlock name)
      ∧ (s.withBlock name).Awaits s.draft.blocks :=
    ⟨hs.prepares_withBlock name, hs.awaits_withBlock name⟩
  unfold afterBranch blockIf at h
  cases isLast with
  | false =>
    obtain ⟨rfl, rfl⟩ := newBlock_eq_ok.mp h
    exact ⟨(hnew _).1, (hnew _).2, .inr ⟨by simp, le_rfl⟩⟩
  | true =>
    cases hasElse with
    | true =>
      obtain ⟨rfl, rfl⟩ := newBlock_eq_ok.mp h
      exact ⟨(hnew _).1, (hnew _).2, .inr ⟨by simp, le_rfl⟩⟩
    | false =>
      obtain ⟨rfl, rfl⟩ := pure_eq_ok.mp h
      exact ⟨.refl hs, hdone, .inl ⟨rfl, rfl, rfl⟩⟩

/-- The parts of `ifBranch`: the condition leads to the body and to what comes next, the body to the
end. -/
theorem ifBranch_flow {condition : Emit Value} [Straight condition] {isLast hasElse : Bool}
    {done : Nat} {body : Emit Unit} (hbody : IsWoven body)
    (h : ifBranch condition (afterBranch isLast hasElse done) done body s = .ok ((), t))
    (hs : s.IsOpen) (hdone : s.Awaits done) :
    ∃ c inner next s₁ s₂ s₃, condition s = .ok (c, s₁)
      ∧ s₁.Turns (.branch c inner next) inner s₂ ∧ body s₂ = .ok ((), s₃)
      ∧ s₃.Turns (.jump done) next t ∧ s.Works t
      ∧ ((isLast = true ∧ hasElse = false ∧ next = done)
        ∨ (¬ (isLast = true ∧ hasElse = false) ∧ s.draft.blocks ≤ next ∧ t.Awaits done)) := by
  obtain ⟨c, s₁, next, r, s₃, hc, hnext, hb, rfl⟩ := ifBranch_ok h
  obtain ⟨code, hcode⟩ := Straight.exists_adds hc
  have hweave := hs.weaves_adds hcode
  have hsize : s.draft.blocks ≤ s₁.draft.blocks := hweave.works.size
  have hdone₁ := hdone.weaves hs hweave
  have hlt := hdone₁.isBlank.lt hweave.isOpen.count
  -- the block of the body comes first
  have hinner := hweave.isOpen.prepares_withBlock "if.then"
  have hopen := hinner.isOpen hweave.isOpen
  obtain ⟨hprepares, hawaits, hcases⟩ := afterBranch_flow hnext hopen
    (hdone₁.prepares hweave.isOpen hinner)
  have hr := hprepares.isOpen hopen
  have hblank := (hweave.isOpen.awaits_withBlock "if.then").prepares hopen hprepares
  have hbranch := (hinner.trans hprepares).turns hweave.isOpen hblank.isBlank
    ((hinner.trans hprepares).cursor ▸ hblank.ne) (.branch c s₁.draft.blocks next)
  have hne : next ≠ s₁.draft.blocks := by
    have hmore : (s₁.withBlock "if.then").draft.blocks = s₁.draft.blocks + 1 := rfl
    rcases hcases with ⟨-, -, rfl⟩ | ⟨-, hle⟩ <;> omega
  -- then the body, after which the end and the next block are still blank
  have hweave' := hbody hb hbranch.isOpen
  have hdone₂ := ((hdone₁.prepares hweave.isOpen (hinner.trans hprepares)).turned hr hlt.ne
    (.branch c s₁.draft.blocks next)).weaves hbranch.isOpen hweave'
  have hback := ((hawaits.turned hr hne (.branch c s₁.draft.blocks next)).weaves hbranch.isOpen
    hweave').turns hweave'.isOpen (.jump done)
  refine ⟨c, _, next, s₁, _, s₃, hc, hbranch, hb, hback, ?_, ?_⟩
  · have hthere := (hweave.turns hbranch hsize).trans hweave'
    exact hthere.works.trans hback.works hthere.cursor
  · rcases hcases with hlast | ⟨hmore, hle⟩
    · exact .inl hlast
    · refine .inr ⟨hmore, hsize.trans ((Nat.le_succ _).trans hle),
        hdone₂.turned hweave'.isOpen ?_ _⟩
      have hmore : (s₁.withBlock "if.then").draft.blocks = s₁.draft.blocks + 1 := rfl
      omega

/-- The parts of `caseBranch`: the test leads to the body and to the next test, the body to the
end. -/
theorem caseBranch_flow {selector : Value} {labels : List Literal} {test done fallback next : Nat}
    {isLast : Bool} {body : Emit Unit} (hbody : IsWoven body)
    (h : caseBranch selector labels test done (blockIf (!isLast) "case.cond" fallback) body s
      = .ok (next, t))
    (hs : (s.moved test).IsOpen) (hdone : (s.moved test).Awaits done)
    (hfallback : (s.moved test).Awaits fallback) :
    ∃ c inner s₁ s₂ s₃, matchLabels selector none labels (s.moved test) = .ok (c, s₁)
      ∧ s₁.Turns (.branch c inner next) inner s₂ ∧ body s₂ = .ok ((), s₃)
      ∧ s₃.Turns (.jump done) next (t.moved next) ∧ (s.moved test).Works (t.moved next)
      ∧ (next ≠ done → (t.moved next).Awaits done)
      ∧ ((isLast = true ∧ next = fallback)
        ∨ (isLast = false ∧ s.draft.blocks ≤ next ∧ (t.moved next).Awaits fallback)) := by
  obtain ⟨c, s₁, r, s₃, hc, hnext, hb, rfl⟩ := caseBranch_ok h
  obtain ⟨code, hcode⟩ := Straight.exists_adds hc
  have hweave := hs.weaves_adds hcode
  have hsize : s.draft.blocks ≤ s₁.draft.blocks := hweave.works.size
  have hdone₁ := hdone.weaves hs hweave
  have hfallback₁ := hfallback.weaves hs hweave
  have hlt := hdone₁.isBlank.lt hweave.isOpen.count
  have hlt' := hfallback₁.isBlank.lt hweave.isOpen.count
  -- the block of the body comes first
  have hinner := hweave.isOpen.prepares_withBlock "case.body"
  have hopen := hinner.isOpen hweave.isOpen
  have hmore : (s₁.withBlock "case.body").draft.blocks = s₁.draft.blocks + 1 := rfl
  obtain ⟨hprepares, hawaits, hcases⟩ : (s₁.withBlock "case.body").Prepares r ∧ r.Awaits next
      ∧ ((isLast = true ∧ next = fallback) ∨ (isLast = false ∧ s₁.draft.blocks < next)) := by
    cases isLast with
    | true =>
      obtain ⟨rfl, rfl⟩ := pure_eq_ok.mp hnext
      exact ⟨.refl hopen, hfallback₁.prepares hweave.isOpen hinner, .inl ⟨rfl, rfl⟩⟩
    | false =>
      obtain ⟨rfl, rfl⟩ := newBlock_eq_ok.mp hnext
      exact ⟨hopen.prepares_withBlock _, hopen.awaits_withBlock _, .inr ⟨rfl, Nat.lt_succ_self _⟩⟩
  have hr := hprepares.isOpen hopen
  have hblank := (hweave.isOpen.awaits_withBlock "case.body").prepares hopen hprepares
  have hbranch := (hinner.trans hprepares).turns hweave.isOpen hblank.isBlank
    ((hinner.trans hprepares).cursor ▸ hblank.ne) (.branch c s₁.draft.blocks next)
  have hne : next ≠ s₁.draft.blocks := by
    rcases hcases with ⟨-, rfl⟩ | ⟨-, hle⟩ <;> omega
  -- then the body, after which the blocks that were awaited are still blank
  have hweave' := hbody hb hbranch.isOpen
  have hlater {l : Nat} (hl : s₁.Awaits l) (hlt : l < s₁.draft.blocks) : s₃.Awaits l :=
    ((hl.prepares hweave.isOpen (hinner.trans hprepares)).turned hr hlt.ne
      (.branch c s₁.draft.blocks next)).weaves hbranch.isOpen hweave'
  have hback := ((hawaits.turned hr hne (.branch c s₁.draft.blocks next)).weaves hbranch.isOpen
    hweave').turns hweave'.isOpen (.jump done)
  refine ⟨c, _, s₁, _, s₃, hc, hbranch, hb, hback, ?_, fun hnot => ?_, ?_⟩
  · have hthere := (hweave.turns hbranch hsize).trans hweave'
    exact hthere.works.trans hback.works hthere.cursor
  · exact (hlater hdone₁ hlt).turned hweave'.isOpen hnot.symm _
  · rcases hcases with hlast | ⟨hnot, hle⟩
    · exact .inl hlast
    · exact .inr ⟨hnot, by omega, (hlater hfallback₁ hlt').turned hweave'.isOpen (by omega) _⟩

/-- `caseHead` goes from its selector to the block of the first test. -/
theorem caseHead_flow {selector : Emit Value} [Straight selector] {hasElse : Bool} {v : Value}
    {done fallback test : Nat}
    (h : caseHead selector hasElse s = .ok ((v, done, fallback, test), t)) (hs : s.IsOpen) :
    ∃ s₁, selector s = .ok (v, s₁) ∧ s.Weaves s₁ ∧ s₁.Turns (.jump test) test (t.moved test)
      ∧ (t.moved test).Awaits done ∧ (t.moved test).Awaits fallback ∧ s.draft.blocks ≤ done
      ∧ s.draft.blocks ≤ fallback ∧ s.draft.blocks ≤ test
      ∧ ((hasElse = true ∧ fallback ≠ done) ∨ (hasElse = false ∧ fallback = done)) := by
  obtain ⟨s₁, r, hv, rfl, hfallback, rfl, rfl⟩ := caseHead_ok h
  obtain ⟨code, hcode⟩ := Straight.exists_adds hv
  have hweave := hs.weaves_adds hcode
  have hsize : s.draft.blocks ≤ s₁.draft.blocks := hweave.works.size
  have hend := hweave.isOpen.prepares_withBlock "case.end"
  have hopen := hend.isOpen hweave.isOpen
  have hdone := hweave.isOpen.awaits_withBlock "case.end"
  -- without an ELSE part other values go straight to the end
  obtain ⟨hprepares, hawaits, hle, hcases⟩ : (s₁.withBlock "case.end").Prepares r
      ∧ r.Awaits fallback ∧ s₁.draft.blocks ≤ fallback
      ∧ ((hasElse = true ∧ fallback ≠ s₁.draft.blocks)
        ∨ (hasElse = false ∧ fallback = s₁.draft.blocks)) := by
    cases hasElse with
    | true =>
      obtain ⟨rfl, rfl⟩ := newBlock_eq_ok.mp hfallback
      exact ⟨hopen.prepares_withBlock _, hopen.awaits_withBlock _, Nat.le_succ _,
        .inl ⟨rfl, Nat.succ_ne_self _⟩⟩
    | false =>
      obtain ⟨rfl, rfl⟩ := pure_eq_ok.mp hfallback
      exact ⟨.refl hopen, hdone, le_rfl, .inr ⟨rfl, rfl⟩⟩
  have hr := hprepares.isOpen hopen
  have hlast := hr.prepares_withBlock "case.cond"
  have hall := (hend.trans hprepares).trans hlast
  have htest := hr.awaits_withBlock "case.cond"
  have hdone := hdone.prepares hopen hprepares
  -- both blocks are older than that of the first test, so moving there leaves them waiting
  have hlt := hdone.isBlank.lt hr.count
  have hlt' := hawaits.isBlank.lt hr.count
  refine ⟨s₁, hv, hweave, hall.turns hweave.isOpen htest.isBlank (hall.cursor ▸ htest.ne) _, ?_, ?_,
    hsize, hsize.trans hle, by omega, hcases⟩
  · exact (hdone.prepares hr hlast).turned (hlast.isOpen hr) hlt.ne _
  · exact (hawaits.prepares hr hlast).turned (hlast.isOpen hr) hlt'.ne _

end Emit

/-! ## Statements -/

open Emit Emission

section

variable {scene : Scene} {loop : Option Loop} {s t : Emission}

theorem isWoven_emitStatements_of {body : List Statement}
    (h : ∀ s ∈ body, ∀ loop, IsWoven (s.emit scene loop)) (loop : Option Loop) :
    IsWoven (emitStatements scene loop body) := by
  induction body with
  | nil =>
    rw [emitStatements]
    exact isWoven_straight _
  | cons s rest ih =>
    rw [emitStatements]
    exact (h s List.mem_cons_self loop).bind fun _ =>
      ih fun s hs => h s (List.mem_cons_of_mem _ hs)

theorem emitElse_flow {done : Nat} {otherwise : Option (List Statement)}
    (hbody : ∀ body ∈ otherwise, IsWoven (emitStatements scene loop body))
    (h : emitElse scene loop done otherwise s = .ok ((), t)) (hs : s.IsOpen)
    (hdone : otherwise.isSome → s.Awaits done) :
    s.Works t ∧ t.IsOpen ∧ (otherwise = none → t = s)
      ∧ (otherwise.isSome → t.build.cursor = done ∧ t.IsBlank done) := by
  cases otherwise with
  | none =>
    obtain ⟨-, rfl⟩ := pure_eq_ok.mp h
    exact ⟨(Weaves.refl hs).works, hs, fun _ => rfl, fun h => (nomatch h)⟩
  | some body =>
    obtain ⟨s₁, -, hweave, hturn⟩ := elsePart_flow (hbody body rfl) h hs (hdone rfl)
    exact ⟨hweave.works.trans hturn.works hweave.cursor, hturn.isOpen, fun h => (nomatch h),
      fun _ => ⟨hturn.cursor, hturn.isBlank⟩⟩

/-- `emitBranches` leads to the ELSE part, or to the end if there is none. -/
theorem emitBranches_flow {done : Nat} {hasElse : Bool}
    {branches : List (Expr × List Statement)}
    (hbody : ∀ branch ∈ branches, IsWoven (emitStatements scene loop branch.2))
    (h : emitBranches scene loop done hasElse branches s = .ok ((), t)) (hs : s.IsOpen)
    (hdone : s.Awaits done) :
    s.Works t ∧ t.IsOpen
      ∧ ((branches ≠ [] ∧ hasElse = false ∧ t.build.cursor = done ∧ t.IsBlank done)
        ∨ (¬ (branches ≠ [] ∧ hasElse = false) ∧ t.Awaits done
          ∧ (t.build.cursor = s.build.cursor ∨ s.draft.blocks ≤ t.build.cursor))) := by
  induction branches generalizing s with
  | nil =>
    obtain ⟨-, rfl⟩ := pure_eq_ok.mp h
    exact ⟨(Weaves.refl hs).works, hs, .inr ⟨by simp, hdone, .inl rfl⟩⟩
  | cons branch rest ih =>
    obtain ⟨condition, body⟩ := branch
    rw [emitBranches] at h
    obtain ⟨_, r, hr, hrest⟩ := bind_eq_ok.mp h
    obtain ⟨hfirst, hothers⟩ := List.forall_mem_cons.mp hbody
    obtain ⟨c, inner, next, s₁, s₂, s₃, -, -, -, hturn, hworks, hcases⟩ :=
      ifBranch_flow hfirst hr hs hdone
    rcases hcases with ⟨hlast, helse, rfl⟩ | ⟨hmore, hle, hawaits⟩
    · -- the last branch, without an ELSE part
      obtain rfl := List.isEmpty_iff.mp hlast
      obtain ⟨-, rfl⟩ := pure_eq_ok.mp hrest
      exact ⟨hworks, hturn.isOpen, .inl ⟨by simp, helse, hturn.cursor, hturn.isBlank⟩⟩
    -- another branch or an ELSE part follows, from the block this test falls through to
    · obtain ⟨hworks', hopen, hcases⟩ := ih hothers hrest hturn.isOpen hawaits
      have hcursor : s.draft.blocks ≤ r.build.cursor := hturn.cursor ▸ hle
      refine ⟨hworks.trans hworks' (.inr hcursor), hopen, ?_⟩
      rcases hcases with ⟨-, helse, hend⟩ | ⟨hnot, hawaits', hwhere⟩
      · exact .inl ⟨by simp, helse, hend⟩
      · refine .inr ⟨fun hboth => ?_, hawaits', .inr ?_⟩
        · by_cases hempty : rest = []
          · exact hmore ⟨List.isEmpty_iff.mpr hempty, hboth.2⟩
          · exact hnot ⟨hempty, hboth.2⟩
        · have hsize := hworks.size
          omega

/-- The tests of `emitCases` lead from one to the next, and from the last one to the block for any
other value. -/
theorem emitCases_flow {selector : Value} {done fallback test : Nat}
    {branches : List (List Literal × List Statement)}
    (hbody : ∀ branch ∈ branches, IsWoven (emitStatements scene loop branch.2))
    (h : emitCases scene loop selector done fallback test branches s = .ok ((), t))
    (hs : (s.moved test).IsOpen) (hdone : (s.moved test).Awaits done)
    (hfallback : (s.moved test).Awaits fallback) (htest : (s.moved test).IsBlank test) :
    ∃ last, (s.moved test).Works (t.moved last) ∧ (t.moved last).IsOpen
      ∧ (t.moved last).IsBlank last ∧ (last ≠ done → (t.moved last).Awaits done)
      ∧ ((branches = [] ∧ last = test ∧ t = s) ∨ (branches ≠ [] ∧ last = fallback)) := by
  induction branches generalizing s test with
  | nil =>
    obtain ⟨-, rfl⟩ := pure_eq_ok.mp h
    exact ⟨test, (Weaves.refl hs).works, hs, htest, fun _ => hdone, .inl ⟨rfl, rfl, rfl⟩⟩
  | cons branch rest ih =>
    obtain ⟨labels, body⟩ := branch
    rw [emitCases] at h
    obtain ⟨next, r, hr, hrest⟩ := bind_eq_ok.mp h
    obtain ⟨hfirst, hothers⟩ := List.forall_mem_cons.mp hbody
    obtain ⟨c, inner, s₁, s₂, s₃, -, -, -, hturn, hworks, hend, hcases⟩ :=
      caseBranch_flow hfirst hr hs hdone hfallback
    rcases hcases with ⟨hlast, rfl⟩ | ⟨hmore, hle, hawaits⟩
    · -- the last branch
      obtain rfl := List.isEmpty_iff.mp hlast
      obtain ⟨-, rfl⟩ := pure_eq_ok.mp hrest
      exact ⟨next, hworks, hturn.isOpen, hturn.isBlank, hend, .inr ⟨by simp, rfl⟩⟩
    · have hdone' : (r.moved next).Awaits done := by
        apply hend
        -- the next test is in a new block, hence not at the end
        have hlt : done < s.draft.blocks := hdone.isBlank.lt hs.count
        omega
      obtain ⟨last, hworks', hopen, hblank, hlater, hwhere⟩ :=
        ih hothers hrest hturn.isOpen hdone' hawaits hturn.isBlank
      have hcursor : (s.moved test).draft.blocks ≤ (r.moved next).build.cursor := by
        rw [cursor_moved]
        exact hle
      refine ⟨last, hworks.trans hworks' (.inr hcursor), hopen, hblank, hlater, .inr ⟨by simp, ?_⟩⟩
      rcases hwhere with ⟨hempty, -, -⟩ | ⟨-, hlast⟩
      · rw [hempty] at hmore
        cases hmore
      · exact hlast

/-- The parts of an IF, `Statement.ifThen`: its branches, the ELSE part, and the end to which they
lead. -/
theorem ifThen_flow {branches : List (Expr × List Statement)} {otherwise : Option (List Statement)}
    (hbody : ∀ branch ∈ branches, IsWoven (emitStatements scene loop branch.2))
    (helse : ∀ body ∈ otherwise, IsWoven (emitStatements scene loop body))
    (h : (Statement.ifThen branches otherwise).emit scene loop s = .ok ((), t)) (hs : s.IsOpen) :
    ∃ done r u, s.Prepares r ∧ r.Awaits done
      ∧ emitBranches scene loop done otherwise.isSome branches r = .ok ((), u)
      ∧ emitElse scene loop done otherwise u = .ok ((), t) ∧ r.Works u ∧ u.IsOpen
      ∧ (otherwise.isSome → u.Awaits done) ∧ u.Works t ∧ s.Weaves t
      ∧ ((branches = [] ∧ otherwise = none) ∨ (t.build.cursor = done ∧ t.IsBlank done)) := by
  rw [Statement.emit] at h
  simp only [bind_eq_ok, newBlock_eq_ok] at h
  obtain ⟨_, _, ⟨rfl, rfl⟩, _, u, hu, ht⟩ := h
  have hprepares := hs.prepares_withBlock "if.end"
  have hr := hprepares.isOpen hs
  have hdone := hs.awaits_withBlock "if.end"
  obtain ⟨hworks, hopen, hcases⟩ := emitBranches_flow hbody hu hr hdone
  refine ⟨_, _, u, hprepares, hdone, hu, ht, hworks, hopen, ?_⟩
  have hbranches : s.Works u := hprepares.works.trans hworks (.inl hprepares.cursor)
  have hsize : (s.withBlock "if.end").draft.blocks = s.draft.blocks + 1 := rfl
  rcases hcases with ⟨hne, hsome, hcursor, hblank⟩ | ⟨hnot, hawaits, hcursor⟩
  -- the last test already falls through to the end
  · obtain rfl : otherwise = none := by simpa using hsome
    obtain ⟨-, rfl⟩ := pure_eq_ok.mp ht
    exact ⟨by rintro ⟨⟩, (Weaves.refl hopen).works, ⟨hbranches, hopen, .inr hcursor.ge⟩,
      .inr ⟨hcursor, hblank⟩⟩
  · obtain ⟨hworks', hopen', hnone, hsome⟩ := emitElse_flow helse ht hopen fun _ => hawaits
    refine ⟨fun _ => hawaits, hworks', ?_⟩
    have hcursor' : u.build.cursor = s.build.cursor ∨ s.draft.blocks ≤ u.build.cursor := by
      have := hprepares.cursor
      omega
    cases otherwise with
    | none =>
      obtain rfl := hnone rfl
      have hempty : branches = [] := by simpa using hnot
      exact ⟨⟨hbranches, hopen, hcursor'⟩, .inl ⟨hempty, rfl⟩⟩
    | some body =>
      obtain ⟨hend, hblank⟩ := hsome rfl
      exact ⟨⟨hbranches.trans hworks' hcursor', hopen', .inr hend.ge⟩, .inr ⟨hend, hblank⟩⟩

/-- The parts of a CASE, `Statement.caseOf`: the selector, the branches, the ELSE part, and the end
to which they lead. -/
theorem caseOf_flow {selector : Expr} {branches : List (List Literal × List Statement)}
    {otherwise : Option (List Statement)}
    (hbody : ∀ branch ∈ branches, IsWoven (emitStatements scene loop branch.2))
    (helse : ∀ body ∈ otherwise, IsWoven (emitStatements scene loop body))
    (h : (Statement.caseOf selector branches otherwise).emit scene loop s = .ok ((), t))
    (hs : s.IsOpen) :
    ∃ v done fallback test s₁ r u w, selector.emit scene.env s = .ok (v, s₁)
      ∧ s₁.Turns (.jump test) test (r.moved test) ∧ (r.moved test).Awaits done
      ∧ (r.moved test).Awaits fallback
      ∧ emitCases scene loop v done fallback test branches r = .ok ((), u)
      ∧ ((branches = [] ∧ (r.moved test).Turns (.jump fallback) fallback w)
        ∨ (branches ≠ [] ∧ w = u.moved fallback))
      ∧ (r.moved test).Works w
      ∧ emitElse scene loop done otherwise w = .ok ((), t) ∧ w.IsOpen ∧ w.IsBlank fallback
      ∧ w.build.cursor = fallback ∧ (otherwise.isSome → w.Awaits done) ∧ w.Works t
      ∧ t.build.cursor = done ∧ t.IsBlank done ∧ s.Weaves t := by
  rw [Statement.emit] at h
  obtain ⟨⟨v, done, fallback, test⟩, r, hhead, h⟩ := bind_eq_ok.mp h
  obtain ⟨_, u, hu, h⟩ := bind_eq_ok.mp h
  obtain ⟨_, w, hw, ht⟩ := bind_eq_ok.mp h
  obtain ⟨s₁, hv, hweave, hturn, hdone, hfallback, hdle, hfle, htle, helseCases⟩ :=
    caseHead_flow hhead hs
  obtain ⟨last, hworks, hopen, hblank, hend, hcases⟩ :=
    emitCases_flow hbody hu hturn.isOpen hdone hfallback hturn.isBlank
  have htest := hweave.turns hturn htle
  -- the tests end in the block for any other value
  obtain ⟨hwcases, hrworks, hwopen, hwblank, hwcursor, hwends⟩ :
      ((branches = [] ∧ (r.moved test).Turns (.jump fallback) fallback w)
        ∨ (branches ≠ [] ∧ w = u.moved fallback)) ∧ (r.moved test).Works w ∧ w.IsOpen
      ∧ w.IsBlank fallback ∧ w.build.cursor = fallback ∧ (fallback ≠ done → w.Awaits done) := by
    rcases caseFallback_ok hw with ⟨hempty, rfl⟩ | ⟨hnot, rfl⟩
    · obtain rfl := List.isEmpty_iff.mp hempty
      obtain ⟨-, rfl⟩ := pure_eq_ok.mp hu
      have hjump := hfallback.turns hturn.isOpen (.jump fallback)
      exact ⟨.inl ⟨rfl, hjump⟩, hjump.works, hjump.isOpen, hjump.isBlank, hjump.cursor,
        fun hne => hdone.turned hturn.isOpen hne.symm _⟩
    · have hnonempty : branches ≠ [] := by
        rintro rfl
        cases hnot
      rcases hcases with ⟨hempty, -, -⟩ | ⟨-, rfl⟩
      · exact absurd hempty hnonempty
      · exact ⟨.inr ⟨hnonempty, rfl⟩, hworks, hopen, hblank, cursor_moved _ _, hend⟩
  have hsome : otherwise.isSome → w.Awaits done := by
    intro hsome
    rcases helseCases with ⟨-, hne⟩ | ⟨hnone, -⟩
    · exact hwends hne
    · cases hsome.symm.trans hnone
  obtain ⟨hworks', hopen', hnone, hfound⟩ := emitElse_flow helse ht hwopen hsome
  have hnone' : otherwise = none → fallback = done := by
    rintro rfl
    rcases helseCases with ⟨hsome, -⟩ | ⟨-, heq⟩
    · cases hsome
    · exact heq
  have hjoin : t.build.cursor = done ∧ t.IsBlank done := by
    cases otherwise with
    | none =>
      obtain rfl := hnone rfl
      obtain rfl := hnone' rfl
      exact ⟨hwcursor, hwblank⟩
    | some body => exact hfound rfl
  refine ⟨v, done, fallback, test, s₁, r, u, w, hv, hturn, hdone, hfallback, hu, hwcases, hrworks,
    ht, hwopen, hwblank, hwcursor, hsome, hworks', hjoin.1, hjoin.2, ?_, hopen', .inr ?_⟩
  · have hwworks := htest.works.trans hrworks htest.cursor
    exact hwworks.trans hworks' (.inr (hwcursor ▸ hfle))
  · exact hjoin.1 ▸ hdle

end

/-- Every statement works on the current block and on new ones: its code `IsWoven`. -/
theorem Statement.isWoven_emit (scene : Scene) (s : Statement) (loop : Option Loop) :
    IsWoven (s.emit scene loop) := by
  induction s using Statement.induction generalizing loop with
  | assign target value =>
    rw [Statement.emit]
    have : Straight (emitAssign scene.env target value) :=
      ⟨traces_emitAssign scene.env target value⟩
    exact isWoven_straight _
  | call name arguments =>
    rw [Statement.emit]
    have : Straight (emitCallStatement scene.env name arguments) :=
      ⟨traces_emitCallStatement scene.env name arguments⟩
    exact isWoven_straight _
  | ifThen branches otherwise ihb ihe =>
    intro s _ t h hs
    obtain ⟨_, _, _, -, -, -, -, -, -, -, -, hweaves, -⟩ := ifThen_flow
      (fun branch hbranch => isWoven_emitStatements_of (ihb branch hbranch) loop)
      (fun body hbody => isWoven_emitStatements_of (ihe body hbody) loop) h hs
    exact hweaves
  | whileDo condition body ih =>
    intro s _ t h hs
    rw [Statement.emit] at h
    obtain ⟨_, _, _, _, _, _, _, _, -, -, -, -, -, hweaves⟩ :=
      whileDo_flow (fun loop => isWoven_emitStatements_of ih (some loop)) h hs
    exact hweaves
  | repeatUntil body condition ih =>
    intro s _ t h hs
    rw [Statement.emit] at h
    obtain ⟨_, _, _, _, _, _, _, _, -, -, -, -, -, hweaves⟩ :=
      repeatUntil_flow (fun loop => isWoven_emitStatements_of ih (some loop)) h hs
    exact hweaves
  | forDo counter start limit direction body ih =>
    rw [Statement.emit, forDo_eq]
    refine (isWoven_straight _).bind fun p => ?_
    intro s _ t h hs
    obtain ⟨_, _, _, _, _, _, _, _, _, _, _, -, -, -, -, -, -, -, hweaves⟩ :=
      countTo_flow (fun loop => isWoven_emitStatements_of ih (some loop)) h hs
    exact hweaves
  | caseOf selector branches otherwise ihb ihe =>
    intro s _ t h hs
    obtain ⟨_, _, _, _, _, _, _, _, hflow⟩ := caseOf_flow
      (fun branch hbranch => isWoven_emitStatements_of (ihb branch hbranch) loop)
      (fun body hbody => isWoven_emitStatements_of (ihe body hbody) loop) h hs
    obtain ⟨-, -, -, -, -, -, -, -, -, -, -, -, -, -, -, hweaves⟩ := hflow
    exact hweaves
  | breakLoop =>
    rw [Statement.emit]
    cases loop with
    | none => rintro _ _ _ ⟨⟩
    | some loop => exact fun _ _ _ h hs => (Weaves.refl hs).turns (leave_flow h hs) le_rfl
  | continueLoop =>
    rw [Statement.emit]
    cases loop with
    | none => rintro _ _ _ ⟨⟩
    | some loop => exact fun _ _ _ h hs => (Weaves.refl hs).turns (leave_flow h hs) le_rfl
  | returnWith value =>
    rw [Statement.emit]
    refine (isWoven_straight _).bind fun v => ?_
    exact fun _ _ _ h hs => (Weaves.refl hs).turns (leave_flow h hs) le_rfl

theorem isWoven_emitStatements (scene : Scene) (loop : Option Loop) (body : List Statement) :
    IsWoven (emitStatements scene loop body) :=
  isWoven_emitStatements_of (fun s _ => s.isWoven_emit scene) loop

end Oberon
