import Oberon.Proofs.Flow

/-!
# Following an outcome

Where statements lead to an outcome, the machine goes to the code behind them, to the blocks where
a loop goes on or ends, to the end of the program, or to a fault. Where they do not end within `n`
rounds of a loop, it takes at least `n` steps. Loops follow from their rounds.
-/

namespace Oberon

open Code Machine Emit Relation

/-! ## Steps -/

namespace Machine

/-- The machine can take at least so many steps of `Image.Moves`. -/
def Image.Lasts (image : Image) : Nat → State → Prop
  | 0, _ => True
  | n + 1, M => ∃ N, image.Moves M N ∧ image.Lasts n N

namespace Image.Lasts

variable {image : Image} {M N : State} {n k : Nat}

theorem pred (h : image.Lasts (n + 1) M) : image.Lasts n M := by
  induction n generalizing M with
  | zero => trivial
  | succ n ih =>
    obtain ⟨N, hN, hlasts⟩ := h
    exact ⟨N, hN, ih hlasts⟩

/-- A machine that `Lasts` some steps lasts fewer. -/
theorem mono (h : image.Lasts n M) (hle : k ≤ n) : image.Lasts k M := by
  induction hle with
  | refl => exact h
  | step _ ih => exact ih h.pred

/-- A machine `Lasts` as long as one to which it moves. -/
theorem after (h : image.Lasts n N) (hmoves : ReflTransGen image.Moves M N) : image.Lasts n M := by
  induction hmoves using ReflTransGen.head_induction_on with
  | refl => exact h
  | head hstep _ ih => exact pred ⟨_, hstep, ih⟩

/-- A machine `Lasts` one step more than one to which it moves by a step or more. -/
theorem succ (h : image.Lasts n N) (hmoves : TransGen image.Moves M N) :
    image.Lasts (n + 1) M := by
  obtain ⟨K, hstep, hrest⟩ := TransGen.head'_iff.mp hmoves
  exact ⟨K, hstep, h.after hrest⟩

/-- A machine that `Lasts` longer than its fuel runs out of it. -/
theorem run_eq (h : image.Lasts n M) (budget : Nat) :
    image.run budget n M = .error (.outOfFuel budget) := by
  induction n generalizing M with
  | zero => rfl
  | succ n ih =>
    obtain ⟨N, hN, hlasts⟩ := h
    rw [Image.run, show image.step M = .ok (.running N) from hN]
    exact ih hlasts

end Image.Lasts

theorem Moment.le_withNext {Γ Δ : Moment} (h : Γ ≤ Δ) {n : Nat} (hn : Γ.next ≤ n) :
    Γ ≤ Δ.withNext n :=
  ⟨hn, h.2⟩

end Machine

namespace Setting

/-! ## Places -/

/-- The machine has come to where an emission was, by `Emission.At`. -/
def IsAt (W : Setting) (s : Emission) (Γ : Moment) (M : State) : Prop :=
  ∃ block rest, s.At W.call.blocks block rest ∧ M = W.call.state Γ block rest

/-- The machine is at the start of a block. -/
def Starts (W : Setting) (label : Nat) (Γ : Moment) (M : State) : Prop :=
  ∃ block, W.call.blocks[label]? = some block ∧ M = W.call.state Γ block block.instrs

variable {W : Setting} {σ : Situation} {Γ Δ : Moment} {M N : State} {s t : Emission} {l : Nat}

/-- A machine that `Starts` a blank block `IsAt` the emission with the cursor there. -/
theorem Starts.isAt (h : W.Starts l Γ M) (hcursor : s.build.cursor = l) (hblank : s.IsBlank l) :
    W.IsAt s Γ M := by
  obtain ⟨block, hfound, rfl⟩ := h
  exact ⟨block, block.instrs, hblank.at_start hcursor hfound, rfl⟩

/-- Where code was prepared, by `Prepares`, the block goes on as before. -/
theorem IsAt.prepares (h : W.IsAt s Γ M) (hprepares : s.Prepares t) : W.IsAt t Γ M := by
  obtain ⟨block, rest, hat, rfl⟩ := h
  obtain ⟨b, hb, hcode⟩ := hat.code
  refine ⟨block, rest, ⟨hprepares.cursor ▸ hat.found, b, ?_, hcode⟩, rfl⟩
  rw [hprepares.cursor, hprepares.here, hb]

/-- A label that the finished body of `Setting.call` has. -/
def HasBlock (W : Setting) (label : Nat) : Prop :=
  ∃ block, W.call.blocks[label]? = some block

theorem hasBlock_of_isBlank (h : s.IsBlank l) (hp : Precede s.build.blocks W.call.blocks) :
    W.HasBlock l := by
  obtain ⟨b, hb, -⟩ := h
  obtain ⟨block, hfound, -⟩ := hp l b hb
  exact ⟨block, hfound⟩

theorem frame_jump (W : Setting) {label : Nat} {target : Block}
    (h : W.call.blocks[label]? = some target) (Γ : Moment) (block : Block) (rest : List Instr) :
    (W.call.state Γ block rest).frame.jump label
      = .ok (W.call.frame Γ target target.instrs) := by
  simp only [Frame.jump, Call.state, Call.frame, h]

/-- A machine that `IsAt` an emission which ends with a jump `Starts` the other block. -/
theorem IsAt.jump (h : W.IsAt s Γ M) (hends : s.Ends W.call.blocks (.jump l))
    (hl : W.HasBlock l) : ∃ N, W.image.Moves M N ∧ W.Starts l Γ N := by
  obtain ⟨block, rest, hat, rfl⟩ := h
  obtain ⟨rfl, hterm⟩ := hat.ends hends
  have hterm : (W.call.state Γ block []).frame.block.terminator = some (.jump l) := hterm
  obtain ⟨target, htarget⟩ := hl
  refine ⟨W.call.state Γ target target.instrs, ?_, target, htarget, rfl⟩
  show W.image.terminate _ = _
  rw [Image.terminate, hterm]
  show ((W.call.state Γ block []).frame.jump l >>= _) = _
  rw [W.frame_jump htarget]
  rfl

/-- A machine that `IsAt` an emission which ends with a branch `Starts` the block that the condition
chooses. -/
theorem IsAt.branch (h : W.IsAt s Γ M) {c : Value} {inner next : Nat}
    (hends : s.Ends W.call.blocks (.branch c inner next)) {b : Bool}
    (hc : Denotes W.image W.call Γ c (.boolean b)) (hinner : W.HasBlock inner)
    (hnext : W.HasBlock next) :
    ∃ N, W.image.Moves M N ∧ W.Starts (if b then inner else next) Γ N := by
  obtain ⟨block, rest, hat, rfl⟩ := h
  obtain ⟨rfl, hterm⟩ := hat.ends hends
  have hterm : (W.call.state Γ block []).frame.block.terminator = some (.branch c inner next) :=
    hterm
  obtain ⟨target, htarget⟩ : W.HasBlock (if b then inner else next) := by
    cases b
    · exact hnext
    · exact hinner
  -- a machine word decides, of which zero is FALSE
  have hlabel : (if Datum.ofTruth b = 0 then next else inner) = if b then inner else next := by
    cases b <;> rfl
  refine ⟨W.call.state Γ target target.instrs, ?_, target, htarget, rfl⟩
  show W.image.terminate _ = _
  have hint : W.image.int (W.call.state Γ block []).frame c = .ok (Datum.ofTruth b) :=
    hc.boolean.int block []
  rw [Image.terminate, hterm]
  show (W.image.int _ c >>= _) = _
  rw [hint]
  show ((W.call.state Γ block []).frame.jump
    (if Datum.ofTruth b = 0 then next else inner) >>= _) = _
  rw [hlabel, W.frame_jump htarget]
  rfl

/-- Straight-line code that `Performs` something leads to where the emission was after it. -/
theorem IsAt.performs {α δ : Type} {x : Emit α} [Straight x] {r : Except Fault δ}
    {Q : Moment → α → δ → Prop} {a : α} (h : W.IsAt s Γ M)
    (hx : Performs W.image W.call Γ x r Q) (hok : x s = .ok (a, t))
    (hp : Precede t.build.blocks W.call.blocks)
    (hstrings : t.stock.strings ⊆ W.image.program.strings) (hnext : Γ.next = s.stock.temps) :
    W.image.Leads M r fun d N => ∃ Δ, Γ ≤ Δ ∧ Δ.next = t.stock.temps ∧ W.IsAt t Δ N ∧ Q Δ a d := by
  obtain ⟨block, rest, hat, rfl⟩ := h
  obtain ⟨code, hcode⟩ := Straight.exists_adds hok
  obtain ⟨more, rfl, hat'⟩ := hat.adds hcode hp
  refine (hx hok hcode hnext.symm hstrings block more).imp ?_
  rintro d N ⟨Δ, hle, hnext', rfl, hQ⟩
  exact ⟨Δ, hle, hnext', ⟨block, more, hat', rfl⟩, hQ⟩

/-! ## Outcomes -/

/-- What the machine does from a state on, where statements lead to an outcome. If they come to
their end, `Q` says where it is then. It keeps the temporaries of an earlier moment. -/
def Follows (W : Setting) (n : Nat) (loop : Option Loop) (Γ : Moment) (M : State) (o : Outcome)
    (Q : Moment → State → Prop) : Prop :=
  match o with
  | .done σ => ∃ Δ N, ReflTransGen W.image.Moves M N ∧ Γ ≤ Δ ∧ W.Agrees σ Δ ∧ Q Δ N
  | .broke σ => ∃ inside Δ N, loop = some inside ∧ ReflTransGen W.image.Moves M N ∧ Γ ≤ Δ
    ∧ W.Agrees σ Δ ∧ W.Starts inside.exit Δ N
  | .continued σ => ∃ inside Δ N, loop = some inside ∧ ReflTransGen W.image.Moves M N ∧ Γ ≤ Δ
    ∧ W.Agrees σ Δ ∧ W.Starts inside.next Δ N
  | .returned status σ => ∃ N result world, ReflTransGen W.image.Moves M N
    ∧ W.image.step N = .ok (.halted result world)
    ∧ Execution.ofResult result world = ⟨status, σ.output⟩
  | .failed e => ∃ N, ReflTransGen W.image.Moves M N ∧ W.image.step N = .error e
  | .pending => W.image.Lasts n M

namespace Follows

variable {n k : Nat} {loop : Option Loop} {o : Outcome} {Q R : Moment → State → Prop}

theorem done (h : W.Agrees σ Δ) (hle : Γ ≤ Δ) (hQ : Q Δ M) : W.Follows n loop Γ M (.done σ) Q :=
  ⟨Δ, M, .refl, hle, h, hQ⟩

/-- `Follows` from a state to which some steps lead. -/
theorem after (h : W.Follows n loop Γ N o Q) (hmoves : ReflTransGen W.image.Moves M N) :
    W.Follows n loop Γ M o Q := by
  cases o with
  | done σ =>
    obtain ⟨Δ, K, hK, hrest⟩ := h
    exact ⟨Δ, K, hmoves.trans hK, hrest⟩
  | broke σ =>
    obtain ⟨inside, Δ, K, hloop, hK, hrest⟩ := h
    exact ⟨inside, Δ, K, hloop, hmoves.trans hK, hrest⟩
  | continued σ =>
    obtain ⟨inside, Δ, K, hloop, hK, hrest⟩ := h
    exact ⟨inside, Δ, K, hloop, hmoves.trans hK, hrest⟩
  | returned status σ =>
    obtain ⟨K, result, world, hK, hrest⟩ := h
    exact ⟨K, result, world, hmoves.trans hK, hrest⟩
  | failed e =>
    obtain ⟨K, hK, hstep⟩ := h
    exact ⟨K, hmoves.trans hK, hstep⟩
  | pending => exact Image.Lasts.after h hmoves

/-- `Follows` with one more round of a loop, which takes a step at least. -/
theorem succ (h : W.Follows n loop Γ N o Q) (hmoves : TransGen W.image.Moves M N) :
    W.Follows (n + 1) loop Γ M o Q := by
  cases o with
  | pending => exact Image.Lasts.succ h hmoves
  | done σ => exact h.after hmoves.to_reflTransGen
  | broke σ => exact h.after hmoves.to_reflTransGen
  | continued σ => exact h.after hmoves.to_reflTransGen
  | returned status σ => exact h.after hmoves.to_reflTransGen
  | failed e => exact h.after hmoves.to_reflTransGen

/-- `Follows` from an earlier moment. -/
theorem weaken (h : W.Follows n loop Δ M o Q) (hle : Γ ≤ Δ) : W.Follows n loop Γ M o Q := by
  cases o with
  | done σ =>
    obtain ⟨Θ, K, hK, hle', hrest⟩ := h
    exact ⟨Θ, K, hK, hle.trans hle', hrest⟩
  | broke σ =>
    obtain ⟨inside, Θ, K, hloop, hK, hle', hrest⟩ := h
    exact ⟨inside, Θ, K, hloop, hK, hle.trans hle', hrest⟩
  | continued σ =>
    obtain ⟨inside, Θ, K, hloop, hK, hle', hrest⟩ := h
    exact ⟨inside, Θ, K, hloop, hK, hle.trans hle', hrest⟩
  | returned status σ => exact h
  | failed e => exact h
  | pending => exact h

/-- `Follows` of statements in a row, by `Outcome.andThen`. -/
theorem andThen (h : W.Follows n loop Γ M o Q) {next : Situation → Outcome}
    (hnext : ∀ {σ Δ N}, Γ ≤ Δ → W.Agrees σ Δ → Q Δ N → W.Follows n loop Γ N (next σ) R) :
    W.Follows n loop Γ M (o.andThen next) R := by
  cases o with
  | done σ =>
    obtain ⟨Δ, K, hK, hle, hagrees, hQ⟩ := h
    exact (hnext hle hagrees hQ).after hK
  | broke σ => exact h
  | continued σ => exact h
  | returned status σ => exact h
  | failed e => exact h
  | pending => exact h

/-- `Follows` when the machine goes on from where the statements end. -/
theorem imp (h : W.Follows n loop Γ M o Q)
    (hQ : ∀ {Δ N}, Γ ≤ Δ → Q Δ N → ∃ K, ReflTransGen W.image.Moves N K ∧ R Δ K) :
    W.Follows n loop Γ M o R := by
  cases o with
  | done σ =>
    obtain ⟨Δ, K, hK, hle, hagrees, hat⟩ := h
    obtain ⟨K', hK', hR⟩ := hQ hle hat
    exact ⟨Δ, K', hK.trans hK', hle, hagrees, hR⟩
  | broke σ => exact h
  | continued σ => exact h
  | returned status σ => exact h
  | failed e => exact h
  | pending => exact h

/-- `Follows` after a computation that `Leads` to a result or a fault, by `Outcome.ofResult`. -/
theorem ofResult {δ : Type} {r : Except Fault δ} {P : δ → State → Prop}
    (h : W.image.Leads M r P) {next : δ → Outcome}
    (hnext : ∀ {d N}, P d N → W.Follows n loop Γ N (next d) Q) :
    W.Follows n loop Γ M (.ofResult r next) Q := by
  obtain ⟨N, hN, hr⟩ := h
  cases r with
  | ok d => exact (hnext hr).after hN
  | error e => exact ⟨N, hN, hr⟩

/-- The body of a loop leads to the next round, or behind the loop, as `Outcome.afterRound` does. -/
theorem afterRound {inside : Loop} (h : W.Follows n (some inside) Γ M o Q)
    {next : Situation → Outcome} (hle : k ≤ n)
    (hnext : ∀ {σ Δ N}, Γ ≤ Δ → W.Agrees σ Δ → Q Δ N → W.Follows k loop Γ N (next σ) R)
    (hcontinue : ∀ {Δ N}, W.Starts inside.next Δ N → Q Δ N)
    (hexit : ∀ {Δ N}, W.Starts inside.exit Δ N → R Δ N) :
    W.Follows k loop Γ M (o.afterRound next) R := by
  cases o with
  | done σ =>
    obtain ⟨Δ, K, hK, hΔ, hagrees, hQ⟩ := h
    exact (hnext hΔ hagrees hQ).after hK
  | broke σ =>
    obtain ⟨_, Δ, K, hloop, hK, hΔ, hagrees, hstarts⟩ := h
    obtain rfl := Option.some.inj hloop
    exact ⟨Δ, K, hK, hΔ, hagrees, hexit hstarts⟩
  | continued σ =>
    obtain ⟨_, Δ, K, hloop, hK, hΔ, hagrees, hstarts⟩ := h
    obtain rfl := Option.some.inj hloop
    exact (hnext hΔ hagrees (hcontinue hstarts)).after hK
  | returned status σ => exact h
  | failed e => exact h
  | pending => exact Image.Lasts.mono h hle

end Follows

/-! ## Loops -/

section

variable {n k : Nat} {loop : Option Loop} {test : Situation → Except Fault Bool}
  {body step : Situation → Outcome} {Exit : Moment → State → Prop}

/-- The test of a loop has come out as `b`, and the machine has gone where it leads. -/
def Tested (W : Setting) (Γ : Moment) (σ : Situation) (OnTrue OnFalse : Moment → State → Prop)
    (b : Bool) (N : State) : Prop :=
  ∃ K Δ, W.image.Moves N K ∧ Γ ≤ Δ ∧ W.Agrees σ Δ ∧ (if b then OnTrue else OnFalse) Δ K

/-- The machine `Follows` a loop that tests before each round, if it does so for its parts. -/
theorem follows_pretested (inside : Loop) (Head Body Next : Moment → State → Prop) (hle : k ≤ n)
    (htest : ∀ {σ Δ N}, Γ ≤ Δ → W.Agrees σ Δ → Head Δ N →
      W.image.Leads N (test σ) (W.Tested Γ σ Body Exit))
    (hbody : ∀ {σ Δ N}, Γ ≤ Δ → W.Agrees σ Δ → Body Δ N →
      W.Follows n (some inside) Γ N (body σ) Next)
    (hstep : ∀ {σ Δ N}, Γ ≤ Δ → W.Agrees σ Δ → Next Δ N → W.Follows n none Γ N (step σ) Head)
    (hcontinue : ∀ {Δ N}, W.Starts inside.next Δ N → Next Δ N)
    (hexit : ∀ {Δ N}, W.Starts inside.exit Δ N → Exit Δ N)
    (hΔ : Γ ≤ Δ) (hagrees : W.Agrees σ Δ) (hhead : Head Δ N) :
    W.Follows k loop Γ N (pretested test body step k σ) Exit := by
  induction k generalizing σ Δ N with
  | zero => trivial
  | succ k ih =>
    obtain ⟨K, hK, hresult⟩ := htest hΔ hagrees hhead
    rw [pretested]
    cases hr : test σ with
    | error e =>
      rw [hr] at hresult
      exact ⟨K, hK, hresult⟩
    | ok more =>
      rw [hr] at hresult
      obtain ⟨K', Θ, hstep', hΘ, hagrees', hwhere⟩ := hresult
      have hmoves : TransGen W.image.Moves N K' := .tail' hK hstep'
      cases more with
      | false => exact ⟨Θ, K', hmoves.to_reflTransGen, hΘ, hagrees', hwhere⟩
      | true =>
        refine Follows.succ ?_ hmoves
        refine (hbody hΘ hagrees' hwhere).afterRound (by omega) ?_ hcontinue hexit
        intro σ' Δ' N' hΔ' hagrees'' hnext
        -- the step is no loop, and has no loop around it
        have hstepped := hstep hΔ' hagrees'' hnext
        cases ho : step σ' with
        | done σ'' =>
          rw [ho] at hstepped
          obtain ⟨Λ, L, hL, hΛ, hagreesΛ, hheadΛ⟩ := hstepped
          exact (ih (by omega) hΛ hagreesΛ hheadΛ).after hL
        | broke σ'' =>
          rw [ho] at hstepped
          obtain ⟨_, _, _, hnone, -⟩ := hstepped
          exact nomatch hnone
        | continued σ'' =>
          rw [ho] at hstepped
          obtain ⟨_, _, _, hnone, -⟩ := hstepped
          exact nomatch hnone
        | returned status σ'' =>
          rw [ho] at hstepped
          exact hstepped
        | failed e =>
          rw [ho] at hstepped
          exact hstepped
        | pending =>
          rw [ho] at hstepped
          exact Image.Lasts.mono hstepped (by omega)

/-- The machine `Follows` a loop that tests after each round, if it does so for its parts. -/
theorem follows_posttested (inside : Loop) (Body Next : Moment → State → Prop) (hle : k ≤ n)
    (hbody : ∀ {σ Δ N}, Γ ≤ Δ → W.Agrees σ Δ → Body Δ N →
      W.Follows n (some inside) Γ N (body σ) Next)
    (htest : ∀ {σ Δ N}, Γ ≤ Δ → W.Agrees σ Δ → Next Δ N →
      W.image.Leads N (test σ) (W.Tested Γ σ Exit Body))
    (hcontinue : ∀ {Δ N}, W.Starts inside.next Δ N → Next Δ N)
    (hexit : ∀ {Δ N}, W.Starts inside.exit Δ N → Exit Δ N)
    (hΔ : Γ ≤ Δ) (hagrees : W.Agrees σ Δ) (hhead : Body Δ N) :
    W.Follows k loop Γ N (posttested body test k σ) Exit := by
  -- on the rounds that may still be made
  induction k generalizing σ Δ N with
  | zero => trivial
  | succ k ih =>
    rw [posttested]
    refine (hbody hΔ hagrees hhead).afterRound hle ?_ hcontinue hexit
    intro σ' Δ' N' hΔ' hagrees' hnext
    obtain ⟨K, hK, hresult⟩ := htest hΔ' hagrees' hnext
    cases hr : test σ' with
    | error e =>
      rw [hr] at hresult
      exact ⟨K, hK, hresult⟩
    | ok enough =>
      rw [hr] at hresult
      obtain ⟨K', Θ, hstep', hΘ, hagrees'', hwhere⟩ := hresult
      have hmoves : TransGen W.image.Moves N' K' := .tail' hK hstep'
      cases enough with
      | true => exact ⟨Θ, K', hmoves.to_reflTransGen, hΘ, hagrees'', hwhere⟩
      | false => exact (ih (by omega) hΘ hagrees'' hwhere).succ hmoves

end

end Setting
end Oberon
