import Oberon.Proofs.Following

/-!
# Statements at work

Where the machine has come to the code of a statement, at a moment that agrees with a situation, it
follows the outcome of the statement. One lemma for each kind of statement, and from them, by
induction over statements, the same for a body.
-/

namespace Oberon

open Code Machine Emit Relation

namespace Setting

variable {W : Setting} {σ : Situation} {Γ Δ : Moment} {M N : State} {s t : Emission}

/-! ## Statements -/

/-- The blocks where a loop goes on and ends are there, by `HasBlock`. -/
def HasLoop (W : Setting) (loop : Option Loop) : Prop :=
  ∀ inside ∈ loop, W.HasBlock inside.next ∧ W.HasBlock inside.exit

/-- The code of an action does what a meaning says: wherever it stands in the finished body, the
machine `Follows` the outcome. -/
def Simulates (W : Setting) (n : Nat) (loop : Option Loop) (x : Emit Unit)
    (meaning : Situation → Outcome) : Prop :=
  ∀ ⦃s t⦄, x s = .ok ((), t) → s.IsOpen → Precede t.build.blocks W.call.blocks →
    t.stock.strings ⊆ W.image.program.strings →
    ∀ ⦃σ Γ M⦄, W.Agrees σ Γ → Γ.next = s.stock.temps → W.IsAt s Γ M →
      W.Follows n loop Γ M (meaning σ) (W.IsAt t)

variable {n : Nat} {loop : Option Loop}

/-- Code that `Simulates` may be run again, when more temporaries have been set. -/
theorem Simulates.later {x : Emit Unit} {meaning : Situation → Outcome}
    (hx : W.Simulates n loop x meaning) (hok : x s = .ok ((), t)) (hs : s.IsOpen)
    (hp : Precede t.build.blocks W.call.blocks)
    (hstrings : t.stock.strings ⊆ W.image.program.strings) (hle : Γ ≤ Δ)
    (hnext : Γ.next ≤ s.stock.temps) (hagrees : W.Agrees σ Δ) (hat : W.IsAt s Δ M) :
    W.Follows n loop Γ M (meaning σ) (W.IsAt t) := by
  have hagrees : W.Agrees σ (Δ.withNext s.stock.temps) := hagrees.congr rfl
  exact (hx hok hs hp hstrings hagrees rfl hat).weaken (Moment.le_withNext hle hnext)

/-- Straight-line code `Simulates` what it performs. -/
theorem simulates_straight {x : Emit Unit} [Straight x]
    {meaning : Situation → Except Fault Situation}
    (h : ∀ {σ Γ}, W.Agrees σ Γ → Performs W.image W.call Γ x (meaning σ) fun Δ _ σ' =>
      W.Agrees σ' Δ) : W.Simulates n loop x fun σ => .ofResult (meaning σ) .done := by
  intro s t hok hs hp hstrings σ Γ M hagrees hnext hat
  refine Follows.ofResult (hat.performs (h hagrees) hok hp hstrings hnext) ?_
  rintro σ' N ⟨Δ, hle, -, hat', hagrees'⟩
  exact .done hagrees' hle hat'

/-- `Simulates` of statements in a row. -/
theorem Simulates.bind {x y : Emit Unit} {first second : Situation → Outcome}
    (hx : W.Simulates n loop x first) (hx' : IsWoven x) (hy : W.Simulates n loop y second)
    (hy' : IsWoven y) :
    W.Simulates n loop (x >>= fun _ => y) fun σ => (first σ).andThen second := by
  intro s t hok hs hp hstrings σ Γ M hagrees hnext hat
  obtain ⟨_, r, hr, ht⟩ := bind_eq_ok.mp hok
  have hweave := hx' hr hs
  have hweave' := hy' ht hweave.isOpen
  refine (hx hr hs (hweave'.works.precede.trans hp)
    (List.Subset.trans hweave'.works.stock.strings.subset hstrings) hagrees hnext hat).andThen ?_
  intro σ' Δ N hle hagrees' hat'
  exact hy.later ht hweave.isOpen hp hstrings hle (hnext ▸ hweave.works.stock.temps) hagrees' hat'

/-- The code of a test, from where the machine `IsAt`, leads to one of two blocks. -/
theorem IsAt.tests {x : Emit Value} [Straight x] {r : Except Fault Bool} {c : Value}
    {inner next : Nat} {u : Emission} (h : W.IsAt s Δ M) (hle : Γ ≤ Δ)
    (hnext : Γ.next ≤ s.stock.temps) (hagrees : W.Agrees σ Δ)
    (hx : ∀ {Δ}, Γ ≤ Δ → W.Agrees σ Δ → Computes W.image W.call Δ x r fun Θ v b =>
      Denotes W.image W.call Θ v (.boolean b))
    (hok : x s = .ok (c, t)) (hturn : t.Turns (.branch c inner next) inner u)
    (hp : Precede u.build.blocks W.call.blocks)
    (hstrings : u.stock.strings ⊆ W.image.program.strings) (hother : W.HasBlock next) :
    W.image.Leads M r (W.Tested Γ σ (W.Starts inner) (W.Starts next)) := by
  have hle : Γ ≤ Δ.withNext s.stock.temps := Moment.le_withNext hle hnext
  have hagrees : W.Agrees σ (Δ.withNext s.stock.temps) := hagrees.congr rfl
  have h : W.IsAt s (Δ.withNext s.stock.temps) M := h
  rw [hturn.strings] at hstrings
  refine (h.performs (hx hle hagrees) hok (hturn.works.precede.trans hp) hstrings rfl).imp ?_
  rintro b N ⟨Θ, hΘ, -, hat, hworld, hc⟩
  obtain ⟨K, hstep, hstarts⟩ := hat.branch (hturn.ends hp) hc
    (hasBlock_of_isBlank hturn.isBlank hp) hother
  refine ⟨K, Θ, hstep, hle.trans hΘ, hagrees.congr hworld, ?_⟩
  cases b
  · exact hstarts
  · exact hstarts

theorem Tested.imp {OnTrue OnFalse OnTrue' OnFalse' : Moment → State → Prop} {b : Bool}
    (h : W.Tested Γ σ OnTrue OnFalse b M) (htrue : ∀ {Δ N}, OnTrue Δ N → OnTrue' Δ N)
    (hfalse : ∀ {Δ N}, OnFalse Δ N → OnFalse' Δ N) : W.Tested Γ σ OnTrue' OnFalse' b M := by
  obtain ⟨K, Δ, hstep, hle, hagrees, hwhere⟩ := h
  refine ⟨K, Δ, hstep, hle, hagrees, ?_⟩
  cases b
  · exact hfalse hwhere
  · exact htrue hwhere

/-- `whileDo` simulates a loop that tests before each round. -/
theorem simulates_whileDo {condition : Emit Value} [Straight condition]
    {test : Situation → Except Fault Bool} {body : Loop → Emit Unit}
    {meaning : Situation → Outcome}
    (hcondition : ∀ {σ Γ}, W.Agrees σ Γ → Computes W.image W.call Γ condition (test σ) fun Δ v b =>
      Denotes W.image W.call Δ v (.boolean b))
    (hbody : ∀ inside, W.HasLoop (some inside) →
      W.Simulates n (some inside) (body inside) meaning)
    (hwoven : ∀ inside, IsWoven (body inside)) :
    W.Simulates n loop (whileDo condition body) fun σ => pretested test meaning .done n σ := by
  intro s t hok hs hp hstrings σ Γ M hagrees hnext hat
  obtain ⟨test, inner, done, c, s₁, s₂, s₃, s₄, hjump, hc, hbranch, hb, hback, -⟩ :=
    whileDo_flow hwoven hok hs
  -- what is finished at the end was so before
  have hweave := hwoven _ hb hbranch.isOpen
  have hweave' := isWoven_straight condition hc hjump.isOpen
  have hp₄ := hback.works.precede.trans hp
  have hp₃ := hweave.works.precede.trans hp₄
  have hp₁ := hweave'.works.precede.trans (hbranch.works.precede.trans hp₃)
  have hstrings₄ : s₄.stock.strings ⊆ W.image.program.strings := hback.strings ▸ hstrings
  have hstrings₃ := List.Subset.trans hweave.works.stock.strings.subset hstrings₄
  have htest := hasBlock_of_isBlank hjump.isBlank hp₁
  have hdone := hasBlock_of_isBlank hback.isBlank hp
  have htemps : Γ.next = s₁.stock.temps := hnext.trans hjump.temps.symm
  have htemps' : Γ.next ≤ s₃.stock.temps :=
    htemps ▸ hweave'.works.stock.temps.trans hbranch.temps.ge
  obtain ⟨N, hstep, hstarts⟩ := hat.jump (hjump.ends hp₁) htest
  refine (follows_pretested ⟨test, done⟩ (W.Starts test) (W.Starts inner) (W.Starts test) le_rfl
    ?_ ?_ ?_ id (fun h => h.isAt hback.cursor hback.isBlank) le_rfl hagrees hstarts).after
    (.single hstep)
  · intro σ Δ N hle hagrees hstarts
    have hat := hstarts.isAt hjump.cursor hjump.isBlank
    refine (hat.tests hle htemps.le hagrees (fun _ hagrees => hcondition hagrees) hc hbranch hp₃
      hstrings₃ hdone).imp fun h => h.imp id ?_
    exact fun hstarts => hstarts.isAt hback.cursor hback.isBlank
  · intro σ Δ N hle hagrees hstarts
    have hat := hstarts.isAt hbranch.cursor hbranch.isBlank
    have hloop : W.HasLoop (some ⟨test, done⟩) := by
      rintro _ ⟨⟩
      exact ⟨htest, hdone⟩
    refine ((hbody _ hloop).later hb hbranch.isOpen hp₄ hstrings₄ hle htemps' hagrees hat).imp ?_
    intro Δ N _ hat
    obtain ⟨K, hstep, hstarts⟩ := hat.jump (hback.ends hp) htest
    exact ⟨K, .single hstep, hstarts⟩
  · intro σ Δ N hle hagrees hstarts
    exact .done hagrees hle hstarts

/-- `repeatUntil` simulates a loop that tests after each round. -/
theorem simulates_repeatUntil {condition : Emit Value} [Straight condition]
    {test : Situation → Except Fault Bool} {body : Loop → Emit Unit}
    {meaning : Situation → Outcome}
    (hcondition : ∀ {σ Γ}, W.Agrees σ Γ → Computes W.image W.call Γ condition (test σ) fun Δ v b =>
      Denotes W.image W.call Δ v (.boolean b))
    (hbody : ∀ inside, W.HasLoop (some inside) →
      W.Simulates n (some inside) (body inside) meaning)
    (hwoven : ∀ inside, IsWoven (body inside)) :
    W.Simulates n loop (repeatUntil body condition) fun σ => posttested meaning test n σ := by
  intro s t hok hs hp hstrings σ Γ M hagrees hnext hat
  obtain ⟨inner, test, done, c, s₁, s₂, s₃, s₄, hjump, hb, hturn, hc, hback, -⟩ :=
    repeatUntil_flow hwoven hok hs
  -- what is finished at the end was so before
  have hweave := hwoven _ hb hjump.isOpen
  have hweave' := isWoven_straight condition hc hturn.isOpen
  have hp₃ := hweave'.works.precede.trans (hback.works.precede.trans hp)
  have hp₂ := hturn.works.precede.trans hp₃
  have hp₁ := hweave.works.precede.trans hp₂
  have hstrings₂ : s₂.stock.strings ⊆ W.image.program.strings := by
    rw [hback.strings] at hstrings
    exact hturn.strings ▸ List.Subset.trans hweave'.works.stock.strings.subset hstrings
  have hinner := hasBlock_of_isBlank hjump.isBlank hp₁
  have htest := hasBlock_of_isBlank hturn.isBlank hp₃
  have hdone := hasBlock_of_isBlank hback.isBlank hp
  have htemps : Γ.next = s₁.stock.temps := hnext.trans hjump.temps.symm
  have htemps' : Γ.next ≤ s₃.stock.temps :=
    htemps ▸ hweave.works.stock.temps.trans hturn.temps.ge
  obtain ⟨N, hstep, hstarts⟩ := hat.jump (hjump.ends hp₁) hinner
  refine (follows_posttested ⟨test, done⟩ (W.Starts inner) (W.Starts test) le_rfl ?_ ?_ id
    (fun h => h.isAt hback.cursor hback.isBlank) le_rfl hagrees hstarts).after (.single hstep)
  · intro σ Δ N hle hagrees hstarts
    have hat := hstarts.isAt hjump.cursor hjump.isBlank
    have hloop : W.HasLoop (some ⟨test, done⟩) := by
      rintro _ ⟨⟩
      exact ⟨htest, hdone⟩
    refine ((hbody _ hloop).later hb hjump.isOpen hp₂ hstrings₂ hle htemps.le hagrees hat).imp ?_
    intro Δ N _ hat
    obtain ⟨K, hstep, hstarts⟩ := hat.jump (hturn.ends hp₃) htest
    exact ⟨K, .single hstep, hstarts⟩
  · intro σ Δ N hle hagrees hstarts
    have hat := hstarts.isAt hturn.cursor hturn.isBlank
    refine (hat.tests hle htemps' hagrees (fun _ hagrees => hcondition hagrees) hc hback hp hstrings
      hinner).imp fun h => h.imp ?_ id
    exact fun hstarts => hstarts.isAt hback.cursor hback.isBlank

theorem countOn_eq (direction : Direction) (name : String) (σ : Situation) :
    countOn direction name σ = .ofResult ((σ.store name []).toInteger.map fun current =>
      σ.write name [] (.integer (direction.next current))) .done := by
  unfold countOn
  cases (σ.store name []).toInteger <;> rfl

/-- `countTo` follows a loop that compares, runs its body and counts on. -/
theorem follows_countTo {place limit : Value} {direction : Direction} {name : String}
    {last : Int64} {body : Loop → Emit Unit} {meaning : Situation → Outcome}
    (hbody : ∀ inside, W.HasLoop (some inside) →
      W.Simulates n (some inside) (body inside) meaning)
    (hwoven : ∀ inside, IsWoven (body inside))
    (hok : countTo place 64 limit direction body s = .ok ((), t)) (hs : s.IsOpen)
    (hp : Precede t.build.blocks W.call.blocks)
    (hstrings : t.stock.strings ⊆ W.image.program.strings) (hagrees : W.Agrees σ Γ)
    (hnext : Γ.next = s.stock.temps) (hat : W.IsAt s Γ M)
    (hplace : IsPlaceOf W.image W.call W.env Γ place name [] .integer)
    (hlimit : Denotes W.image W.call Γ limit (.integer last)) :
    W.Follows n loop Γ M
      (pretested (countsOn direction name last) meaning (countOn direction name) n σ)
      (W.IsAt t) := by
  obtain ⟨test, inner, step, done, c, s₁, s₂, s₃, s₄, s₅, s₆, hjump, hc, hbranch, hb, hturn, hinc,
    hback, -⟩ := countTo_flow hwoven hok hs
  -- what is finished at the end was so before
  have hweave := isWoven_straight _ hc hjump.isOpen
  have hweave' := hwoven _ hb hbranch.isOpen
  have hweave'' := isWoven_straight _ hinc hturn.isOpen
  have hp₆ := hback.works.precede.trans hp
  have hp₅ := hweave''.works.precede.trans hp₆
  have hp₄ := hturn.works.precede.trans hp₅
  have hp₃ := hweave'.works.precede.trans hp₄
  have hp₁ := hweave.works.precede.trans (hbranch.works.precede.trans hp₃)
  have hstrings₆ : s₆.stock.strings ⊆ W.image.program.strings := hback.strings ▸ hstrings
  have hstrings₄ : s₄.stock.strings ⊆ W.image.program.strings :=
    hturn.strings ▸ List.Subset.trans hweave''.works.stock.strings.subset hstrings₆
  have hstrings₃ := List.Subset.trans hweave'.works.stock.strings.subset hstrings₄
  have htest := hasBlock_of_isBlank hjump.isBlank hp₁
  have hstepBlock := hasBlock_of_isBlank hturn.isBlank hp₅
  have hdone := hasBlock_of_isBlank hback.isBlank hp
  have htemps : Γ.next = s₁.stock.temps := hnext.trans hjump.temps.symm
  have htemps₃ : Γ.next ≤ s₃.stock.temps :=
    htemps ▸ hweave.works.stock.temps.trans hbranch.temps.ge
  have htemps₅ : Γ.next ≤ s₅.stock.temps :=
    htemps₃.trans (hweave'.works.stock.temps.trans hturn.temps.ge)
  obtain ⟨N, hstep, hstarts⟩ := hat.jump (hjump.ends hp₁) htest
  refine (follows_pretested ⟨step, done⟩ (W.Starts test) (W.Starts inner) (W.Starts step) le_rfl
    ?_ ?_ ?_ id (fun h => h.isAt hback.cursor hback.isBlank) le_rfl hagrees hstarts).after
    (.single hstep)
  · intro σ Δ N hle hagrees hstarts
    have hat := hstarts.isAt hjump.cursor hjump.isBlank
    refine (hat.tests hle htemps.le hagrees (fun hle hagrees => computes_forTest hagrees
      (hplace.mono hle) (hlimit.mono hle) direction) hc hbranch hp₃ hstrings₃ hdone).imp
      fun h => h.imp id ?_
    exact fun hstarts => hstarts.isAt hback.cursor hback.isBlank
  · intro σ Δ N hle hagrees hstarts
    have hat := hstarts.isAt hbranch.cursor hbranch.isBlank
    have hloop : W.HasLoop (some ⟨step, done⟩) := by
      rintro _ ⟨⟩
      exact ⟨hstepBlock, hdone⟩
    refine ((hbody _ hloop).later hb hbranch.isOpen hp₄ hstrings₄ hle htemps₃ hagrees hat).imp ?_
    intro Δ N _ hat
    obtain ⟨K, hstep, hstarts⟩ := hat.jump (hturn.ends hp₅) hstepBlock
    exact ⟨K, .single hstep, hstarts⟩
  · intro σ Δ N hle hagrees hstarts
    have hat : W.IsAt s₅ (Δ.withNext s₅.stock.temps) N :=
      hstarts.isAt hturn.cursor hturn.isBlank
    have hle : Γ ≤ Δ.withNext s₅.stock.temps := Moment.le_withNext hle htemps₅
    have hagrees : W.Agrees σ (Δ.withNext s₅.stock.temps) := hagrees.congr rfl
    rw [countOn_eq]
    refine Follows.ofResult (hat.performs (performs_forStep hagrees (hplace.mono hle) direction)
      hinc hp₆ hstrings₆ rfl) ?_
    rintro σ' N ⟨Θ, hΘ, -, hat, hagrees⟩
    obtain ⟨K, hstep, hstarts⟩ := hat.jump (hback.ends hp) htest
    exact .after (.done hagrees (hle.trans hΘ) hstarts) (.single hstep)

/-- `forDo` sets its counter, computes the limit once, and counts. -/
theorem simulates_forDo {counter : String} {start limit : Expr} {direction : Direction}
    {body : Loop → Emit Unit} {meaning : Situation → Outcome}
    (hbody : ∀ inside, W.HasLoop (some inside) →
      W.Simulates n (some inside) (body inside) meaning)
    (hwoven : ∀ inside, IsWoven (body inside)) :
    W.Simulates n loop (forDo (emitCounter W.env counter) (start.emit W.env) (limit.emit W.env)
      direction body) fun σ => .ofResult (startCounting W.env.scope counter start limit σ)
        fun (σ, last) => pretested (countsOn direction counter last) meaning
          (countOn direction counter) n σ := by
  intro s t hok hs hp hstrings σ Γ M hagrees hnext hat
  rw [forDo_eq] at hok
  obtain ⟨⟨place, bits, last⟩, r, hhead, ht⟩ := bind_eq_ok.mp hok
  have hweave := isWoven_straight _ hhead hs
  obtain ⟨_, _, _, _, _, _, _, _, _, _, _, -, -, -, -, -, -, -, hweave'⟩ :=
    countTo_flow hwoven ht hweave.isOpen
  refine Follows.ofResult (hat.performs (performs_forHead hagrees counter start limit) hhead
    (hweave'.works.precede.trans hp)
    (List.Subset.trans hweave'.works.stock.strings.subset hstrings) hnext) ?_
  rintro ⟨σ', limit'⟩ N ⟨Δ, hle, hnext', hat', hagrees', hbits, hlimit, hplace⟩
  obtain rfl : bits = 64 := hbits
  exact (follows_countTo hbody hwoven ht hweave.isOpen hp hstrings hagrees' hnext' hat' hplace
    hlimit).weaken hle

/-! ## Leaving -/

theorem simulates_break (hloop : W.HasLoop loop) :
    W.Simulates n loop (emitBreak loop) .broke := by
  intro s t hok hs hp hstrings σ Γ M hagrees hnext hat
  cases loop with
  | none => exact nomatch hok
  | some inside =>
    have hturn := leave_flow hok hs
    obtain ⟨N, hstep, hstarts⟩ := hat.jump (hturn.ends hp) (hloop inside rfl).2
    exact ⟨inside, Γ, N, rfl, .single hstep, le_rfl, hagrees, hstarts⟩

theorem simulates_continue (hloop : W.HasLoop loop) :
    W.Simulates n loop (emitContinue loop) .continued := by
  intro s t hok hs hp hstrings σ Γ M hagrees hnext hat
  cases loop with
  | none => exact nomatch hok
  | some inside =>
    have hturn := leave_flow hok hs
    obtain ⟨N, hstep, hstarts⟩ := hat.jump (hturn.ends hp) (hloop inside rfl).1
    exact ⟨inside, Γ, N, rfl, .single hstep, le_rfl, hagrees, hstarts⟩

/-- Where the body of a module returns, the program has `halted`, with its output. -/
theorem Agrees.halts (h : W.Agrees σ Γ) (hcallers : W.call.callers = []) {block : Block}
    {v : Value} {x : Int64} (hterm : block.terminator = some (.ret (some v)))
    (hv : Γ.Has W.image W.call v (.int x)) :
    ∃ result world, W.image.step (W.call.state Γ block []) = .ok (.halted result world)
      ∧ Execution.ofResult result world = ⟨x.toInt32, σ.output⟩ := by
  have hterm : (W.call.state Γ block []).frame.block.terminator = some (.ret (some v)) := hterm
  have hvalue : W.image.value (W.call.state Γ block []).frame v = .ok (.int x) := hv.value block []
  refine ⟨some (.int x), { Γ.world with memory := Γ.world.memory.truncate W.call.base }, ?_, ?_⟩
  · show W.image.terminate _ = _
    rw [Image.terminate, hterm]
    show (W.image.value _ v >>= _) = _
    rw [hvalue]
    show Image.leave (W.call.state Γ block []) (some (.int x)) = _
    unfold Image.leave
    have hnone : (W.call.state Γ block []).callers = [] := hcallers
    rw [hnone]
    rfl
  · show Execution.mk x.toInt32 (Text.decode Γ.world.output.data.toList) = _
    rw [h.output]
    exact congrArg (Execution.mk x.toInt32) (Text.decode_utf8Bytes σ.output)

theorem simulates_return (hcallers : W.call.callers = []) (value : Option Expr) :
    W.Simulates n loop (emitReturn W.scene value) fun σ =>
      .ofResult (returnStatus W.env.scope σ.store value) fun status => .returned status σ := by
  intro s t hok hs hp hstrings σ Γ M hagrees hnext hat
  obtain ⟨v, r, hv, ht⟩ := bind_eq_ok.mp hok
  have hweave := isWoven_straight _ hv hs
  have hturn := leave_flow ht hweave.isOpen
  refine Follows.ofResult (hat.performs (computes_emitResult hagrees value) hv
    (hturn.works.precede.trans hp) (hturn.strings ▸ hstrings) hnext) ?_
  rintro status N ⟨Δ, hle, -, ⟨block, rest, hat', rfl⟩, hworld, w, x, rfl, hw, rfl⟩
  obtain ⟨rfl, hterm⟩ := hat'.ends (hturn.ends hp)
  obtain ⟨result, world, hstep, hresult⟩ := (hagrees.congr hworld).halts hcallers hterm hw
  exact ⟨_, result, world, .refl, hstep, hresult⟩

/-! ## Branches -/

section

variable {Q : Moment → State → Prop} {u : Emission} {done : Nat}

/-- The code of a list of statements `Simulates` what they mean. -/
abbrev SimulatesBody (W : Setting) (n : Nat) (loop : Option Loop) (body : List Statement) : Prop :=
  W.Simulates n loop (emitStatements W.scene loop body) (execStatements W.env.scope n body)

/-- `emitElse` follows the statements of an ELSE, or does nothing if there is none. -/
theorem follows_else {otherwise : Option (List Statement)}
    (hbody : ∀ body ∈ otherwise, W.SimulatesBody n loop body)
    (hok : emitElse W.scene loop done otherwise s = .ok ((), t)) (hs : s.IsOpen)
    (hdone : otherwise.isSome → s.Awaits done) (hp : Precede t.build.blocks W.call.blocks)
    (hstrings : t.stock.strings ⊆ W.image.program.strings) (hnext : Γ.next ≤ s.stock.temps)
    (hle : Γ ≤ Δ) (hagrees : W.Agrees σ Δ) (hat : W.IsAt s Δ M) :
    W.Follows n loop Γ M (execElse W.env.scope n otherwise σ) (W.IsAt t) := by
  cases otherwise with
  | none =>
    obtain ⟨-, rfl⟩ := pure_eq_ok.mp hok
    rw [execElse]
    exact .done hagrees hle hat
  | some body =>
    obtain ⟨s₁, hb, hweave, hturn⟩ :=
      elsePart_flow (isWoven_emitStatements W.scene loop body) hok hs (hdone rfl)
    rw [execElse]
    refine ((hbody body rfl).later hb hs (hturn.works.precede.trans hp) (hturn.strings ▸ hstrings)
      hle hnext hagrees hat).imp ?_
    intro Δ N _ hat
    obtain ⟨K, hstep, hstarts⟩ := hat.jump (hturn.ends hp) (hasBlock_of_isBlank hturn.isBlank hp)
    exact ⟨K, .single hstep, hstarts.isAt hturn.cursor hturn.isBlank⟩

/-- One branch of `emitBranches`: its test leads to its body and from there to the end, or to what
comes after. -/
theorem follows_branch {x : Emit Value} [Straight x] {r : Except Fault Bool} {c : Value}
    {inner next : Nat} {s₁ s₂ s₃ : Emission} {body : List Statement} {otherwise : Outcome}
    (hx : ∀ {Δ}, Γ ≤ Δ → W.Agrees σ Δ → Computes W.image W.call Δ x r fun Θ v b =>
      Denotes W.image W.call Θ v (.boolean b))
    (hbody : W.SimulatesBody n loop body) (hs : s.IsOpen) (hc : x s = .ok (c, s₁))
    (hbranch : s₁.Turns (.branch c inner next) inner s₂)
    (hb : emitStatements W.scene loop body s₂ = .ok ((), s₃))
    (hturn : s₃.Turns (.jump done) next t) (hp : Precede t.build.blocks W.call.blocks)
    (hstrings : t.stock.strings ⊆ W.image.program.strings) (hnext : Γ.next ≤ s.stock.temps)
    (hblock : W.HasBlock done) (hjoin : ∀ {Δ N}, W.Starts done Δ N → Q Δ N)
    (hotherwise : ∀ {Θ K}, Γ ≤ Θ → W.Agrees σ Θ → W.Starts next Θ K →
      W.Follows n loop Γ K otherwise Q)
    (hle : Γ ≤ Δ) (hagrees : W.Agrees σ Δ) (hat : W.IsAt s Δ M) :
    W.Follows n loop Γ M
      (.ofResult r fun holds => if holds then execStatements W.env.scope n body σ else otherwise)
      Q := by
  have hweave := isWoven_emitStatements W.scene loop body hb hbranch.isOpen
  have htemps : s.stock.temps ≤ s₂.stock.temps :=
    (isWoven_straight _ hc hs).works.stock.temps.trans hbranch.temps.ge
  have hp₃ := hturn.works.precede.trans hp
  have hstrings₃ : s₃.stock.strings ⊆ W.image.program.strings := hturn.strings ▸ hstrings
  -- the test is computed first, and its fault is that of the statement
  refine Follows.ofResult (hat.tests hle hnext hagrees hx hc hbranch
    (hweave.works.precede.trans hp₃) (List.Subset.trans hweave.works.stock.strings.subset hstrings₃)
    (hasBlock_of_isBlank hturn.isBlank hp)) ?_
  rintro holds N ⟨K, Θ, hstep, hΘ, hagrees, hstarts⟩
  refine Follows.after ?_ (.single hstep)
  cases holds with
  | false => exact hotherwise hΘ hagrees hstarts
  | true =>
    refine (hbody.later hb hbranch.isOpen hp₃ hstrings₃ hΘ (hnext.trans htemps) hagrees
      (hstarts.isAt hbranch.cursor hbranch.isBlank)).imp ?_
    intro Λ N _ hat
    obtain ⟨L, hstep, hstarts⟩ := hat.jump (hturn.ends hp) hblock
    exact ⟨L, .single hstep, hjoin hstarts⟩

/-- `emitBranches` leads to the end, or to what comes when no condition holds. -/
theorem follows_branches {hasElse : Bool} {branches : List (Expr × List Statement)}
    {otherwise : Situation → Outcome}
    (hbody : ∀ branch ∈ branches, W.SimulatesBody n loop branch.2)
    (hok : emitBranches W.scene loop done hasElse branches s = .ok ((), u)) (hs : s.IsOpen)
    (hdone : s.Awaits done) (hp : Precede u.build.blocks W.call.blocks)
    (hstrings : u.stock.strings ⊆ W.image.program.strings) (hnext : Γ.next ≤ s.stock.temps)
    (hend : ∀ {Δ N}, Γ ≤ Δ → W.Agrees σ Δ → W.IsAt u Δ N →
      W.Follows n loop Γ N (otherwise σ) Q)
    (hblock : W.HasBlock done)
    (hjoin : branches ≠ [] → ∀ {Δ N}, W.Starts done Δ N → Q Δ N)
    (hle : Γ ≤ Δ) (hagrees : W.Agrees σ Δ) (hat : W.IsAt s Δ M) :
    W.Follows n loop Γ M (execBranches W.env.scope n branches otherwise σ) Q := by
  induction branches generalizing s Δ M with
  | nil =>
    obtain ⟨-, rfl⟩ := pure_eq_ok.mp hok
    rw [execBranches]
    exact hend hle hagrees hat
  | cons branch rest ih =>
    obtain ⟨condition, body⟩ := branch
    rw [emitBranches] at hok
    obtain ⟨_, r, hr, hrest⟩ := bind_eq_ok.mp hok
    obtain ⟨hfirst, hothers⟩ := List.forall_mem_cons.mp hbody
    have hwoven := isWoven_emitStatements W.scene loop body
    obtain ⟨c, inner, next, s₁, s₂, s₃, hc, hbranch, hb, hturn, hworks, hcases⟩ :=
      ifBranch_flow hwoven hr hs hdone
    -- what comes after the branch, when its condition does not hold
    obtain ⟨hworks', hotherwise⟩ : r.Works u ∧ ∀ {Θ K}, Γ ≤ Θ → W.Agrees σ Θ → W.IsAt r Θ K →
        W.Follows n loop Γ K (execBranches W.env.scope n rest otherwise σ) Q := by
      rcases hcases with ⟨hlast, -, -⟩ | ⟨-, -, hawaits⟩
      · obtain rfl := List.isEmpty_iff.mp hlast
        obtain ⟨-, rfl⟩ := pure_eq_ok.mp hrest
        refine ⟨(Emission.Weaves.refl hturn.isOpen).works, fun hΘ hagrees hat => ?_⟩
        rw [execBranches]
        exact hend hΘ hagrees hat
      · refine ⟨(emitBranches_flow (fun branch _ => isWoven_emitStatements W.scene loop branch.2)
          hrest hturn.isOpen hawaits).1, fun hΘ hagrees hat => ?_⟩
        exact ih hothers hrest hturn.isOpen hawaits (hnext.trans hworks.stock.temps)
          (fun _ => hjoin (by simp)) hΘ hagrees hat
    rw [execBranches]
    exact follows_branch (fun _ hagrees =>
      condition.computes_emitCondition W.plain hagrees.depicts) hfirst hs hc hbranch hb hturn
      (hworks'.precede.trans hp) (List.Subset.trans hworks'.stock.strings.subset hstrings) hnext
      hblock (hjoin (by simp))
      (fun hΘ hagrees hstarts =>
        hotherwise hΘ hagrees (hstarts.isAt hturn.cursor hturn.isBlank)) hle hagrees hat

/-- The code of an IF simulates `Statement.exec`, if that of the statements in it does. -/
theorem simulates_ifThen {branches : List (Expr × List Statement)}
    {otherwise : Option (List Statement)}
    (hbody : ∀ branch ∈ branches, W.SimulatesBody n loop branch.2)
    (helse : ∀ body ∈ otherwise, W.SimulatesBody n loop body) :
    W.Simulates n loop ((Statement.ifThen branches otherwise).emit W.scene loop)
      ((Statement.ifThen branches otherwise).exec W.env.scope n) := by
  intro s t hok hs hp hstrings σ Γ M hagrees hnext hat
  obtain ⟨done, r, u, hprepares, hdone, hu, ht, hworks, hopen, hawaits, hworks', -, hwhere⟩ :=
    ifThen_flow (fun branch _ => isWoven_emitStatements W.scene loop branch.2)
      (fun body _ => isWoven_emitStatements W.scene loop body) hok hs
  have hpu := hworks'.precede.trans hp
  have htemps : Γ.next ≤ r.stock.temps := hnext ▸ hprepares.works.stock.temps
  rw [Statement.exec]
  refine follows_branches hbody hu (hprepares.isOpen hs) hdone hpu
    (List.Subset.trans hworks'.stock.strings.subset hstrings) htemps ?_
    (hasBlock_of_isBlank hdone.isBlank (hworks.precede.trans hpu)) ?_ le_rfl hagrees
    (hat.prepares hprepares)
  · intro Δ N hle hagrees hat
    exact follows_else helse ht hopen hawaits hp hstrings
      (htemps.trans hworks.stock.temps) hle hagrees hat
  · intro hne Δ N hstarts
    rcases hwhere with ⟨hempty, -⟩ | ⟨hcursor, hblank⟩
    · exact absurd hempty hne
    · exact hstarts.isAt hcursor hblank

/-- `emitCases` leads to the end, or to the block for any other value. -/
theorem follows_cases {selector : Value} {d : Datum} {fallback test : Nat}
    {branches : List (List Literal × List Statement)} {otherwise : Situation → Outcome}
    (hselector : Denotes W.image W.call Γ selector d)
    (hbody : ∀ branch ∈ branches, W.SimulatesBody n loop branch.2) (hne : branches ≠ [])
    (hok : emitCases W.scene loop selector done fallback test branches s = .ok ((), u))
    (hs : (s.moved test).IsOpen) (hdone : (s.moved test).Awaits done)
    (hfallback : (s.moved test).Awaits fallback) (htest : (s.moved test).IsBlank test)
    (hp : Precede u.build.blocks W.call.blocks)
    (hstrings : u.stock.strings ⊆ W.image.program.strings) (hnext : Γ.next ≤ s.stock.temps)
    (hend : ∀ {Δ N}, Γ ≤ Δ → W.Agrees σ Δ → W.Starts fallback Δ N →
      W.Follows n loop Γ N (otherwise σ) Q)
    (hblock : W.HasBlock done) (hjoin : ∀ {Δ N}, W.Starts done Δ N → Q Δ N)
    (hle : Γ ≤ Δ) (hagrees : W.Agrees σ Δ) (hat : W.Starts test Δ M) :
    W.Follows n loop Γ M (execCases W.env.scope n d branches otherwise σ) Q := by
  induction branches generalizing s test Δ M with
  | nil => exact absurd rfl hne
  | cons branch rest ih =>
    obtain ⟨labels, body⟩ := branch
    rw [emitCases] at hok
    obtain ⟨next, r, hr, hrest⟩ := bind_eq_ok.mp hok
    obtain ⟨hfirst, hothers⟩ := List.forall_mem_cons.mp hbody
    have hwoven := isWoven_emitStatements W.scene loop body
    obtain ⟨c, inner, s₁, s₂, s₃, hc, hbranch, hb, hturn, hworks, hlater, hcases⟩ :=
      caseBranch_flow hwoven hr hs hdone hfallback
    -- what comes after the branch, when the value is not among its labels
    obtain ⟨hpr, hstringsr, hotherwise⟩ : Precede (r.moved next).build.blocks W.call.blocks
        ∧ r.stock.strings ⊆ W.image.program.strings
        ∧ ∀ {Θ K}, Γ ≤ Θ → W.Agrees σ Θ → W.Starts next Θ K →
          W.Follows n loop Γ K (execCases W.env.scope n d rest otherwise σ) Q := by
      rcases hcases with ⟨hlast, rfl⟩ | ⟨hmore, hge, hawaits⟩
      · obtain rfl := List.isEmpty_iff.mp hlast
        obtain ⟨-, rfl⟩ := pure_eq_ok.mp hrest
        refine ⟨(Emission.blocks_moved u _).symm ▸ hp, hstrings, fun hΘ hagrees hat => ?_⟩
        rw [execCases]
        exact hend hΘ hagrees hat
      · have hdone' : (r.moved next).Awaits done := by
          apply hlater
          have hlt : done < s.draft.blocks := hdone.isBlank.lt hs.count
          omega
        obtain ⟨last, hworks', -⟩ := emitCases_flow
          (fun branch _ => isWoven_emitStatements W.scene loop branch.2) hrest hturn.isOpen hdone'
          hawaits hturn.isBlank
        rw [← Emission.blocks_moved u last] at hp
        refine ⟨hworks'.precede.trans hp, List.Subset.trans hworks'.stock.strings.subset hstrings,
          fun hΘ hagrees hat => ?_⟩
        refine ih hothers ?_ hrest hturn.isOpen hdone' hawaits hturn.isBlank
          (hnext.trans hworks.stock.temps) hΘ hagrees hat
        rintro rfl
        cases hmore
    rw [execCases]
    refine follows_branch ?_ hfirst hs hc hbranch hb hturn hpr hstringsr hnext hblock hjoin
      hotherwise hle hagrees (hat.isAt (Emission.cursor_moved s test) htest)
    intro Θ hΘ hagrees
    refine Performs.of_eq ?_ (computes_matchLabels hagrees.memory.texts.finds labels Θ none false
      (hselector.mono hΘ) rfl)
    cases d.isAmong labels <;> rfl

/-- The code of a CASE simulates `Statement.exec`, if that of the statements in it does. -/
theorem simulates_caseOf {selector : Expr} {branches : List (List Literal × List Statement)}
    {otherwise : Option (List Statement)}
    (hbody : ∀ branch ∈ branches, W.SimulatesBody n loop branch.2)
    (helse : ∀ body ∈ otherwise, W.SimulatesBody n loop body) :
    W.Simulates n loop ((Statement.caseOf selector branches otherwise).emit W.scene loop)
      ((Statement.caseOf selector branches otherwise).exec W.env.scope n) := by
  intro s t hok hs hp hstrings σ Γ M hagrees hnext hat
  obtain ⟨v, done, fallback, test, s₁, r, u, w, hv, hturn, hdone, hfallback, hu, hw, hrworks, ht,
    hopen, hblank, hcursor, hawaits, hworks, htcursor, htblank, -⟩ :=
    caseOf_flow (fun branch _ => isWoven_emitStatements W.scene loop branch.2)
      (fun body _ => isWoven_emitStatements W.scene loop body) hok hs
  -- what is finished at the end was so before
  have hpw := hworks.precede.trans hp
  have hpr := hrworks.precede.trans hpw
  have hstringsw := List.Subset.trans hworks.stock.strings.subset hstrings
  have hstrings₁ : s₁.stock.strings ⊆ W.image.program.strings :=
    hturn.strings ▸ List.Subset.trans hrworks.stock.strings.subset hstringsw
  rw [Statement.exec]
  refine Follows.ofResult (hat.performs (selector.computes_emit W.plain Γ hagrees.depicts) hv
    (hturn.works.precede.trans hpr) hstrings₁ hnext) ?_
  rintro d N ⟨Θ, hle, hnext', hat', hworld, hd⟩
  have hagrees' := hagrees.congr hworld
  obtain ⟨K, hstep, hstarts⟩ := hat'.jump (hturn.ends hpr) (hasBlock_of_isBlank hturn.isBlank hpr)
  refine Follows.after (Follows.weaken ?_ hle) (.single hstep)
  have htemps : Θ.next ≤ r.stock.temps := (hnext'.trans hturn.temps.symm).le
  have hend {Δ : Moment} {N : State} (hΔ : Θ ≤ Δ) (hagrees : W.Agrees σ Δ)
      (hstarts : W.Starts fallback Δ N) :
      W.Follows n loop Θ N (execElse W.env.scope n otherwise σ) (W.IsAt t) :=
    follows_else helse ht hopen hawaits hp hstrings (htemps.trans hrworks.stock.temps) hΔ hagrees
      (hstarts.isAt hcursor hblank)
  rcases hw with ⟨rfl, hjump⟩ | ⟨hne, rfl⟩
  · -- without branches, the only block of tests goes on to the ELSE part
    rw [execCases]
    have hat := hstarts.isAt hturn.cursor hturn.isBlank
    obtain ⟨L, hstep, hstarts⟩ := hat.jump (hjump.ends hpw) (hasBlock_of_isBlank hblank hpw)
    exact (hend le_rfl hagrees' hstarts).after (.single hstep)
  · rw [Emission.blocks_moved] at hpw
    exact follows_cases hd hbody hne hu hturn.isOpen hdone hfallback hturn.isBlank hpw hstringsw
      htemps hend (hasBlock_of_isBlank htblank hp) (fun hstarts => hstarts.isAt htcursor htblank)
      le_rfl hagrees' hstarts

end

/-! ## All statements -/

theorem simulatesBody_of {body : List Statement}
    (h : ∀ s ∈ body, W.Simulates n loop (s.emit W.scene loop) (s.exec W.env.scope n)) :
    W.SimulatesBody n loop body := by
  induction body with
  | nil =>
    intro s t hok hs hp hstrings σ Γ M hagrees hnext hat
    rw [emitStatements] at hok
    obtain ⟨-, rfl⟩ := pure_eq_ok.mp hok
    rw [execStatements]
    exact .done hagrees le_rfl hat
  | cons s rest ih =>
    unfold SimulatesBody
    rw [emitStatements]
    refine (h s List.mem_cons_self).bind (s.isWoven_emit W.scene loop)
      (ih fun s hs => h s (List.mem_cons_of_mem _ hs)) (isWoven_emitStatements W.scene loop rest)

/-- The code of every statement in the body of a module `Simulates` `Statement.exec`. -/
theorem simulates_emit (hcallers : W.call.callers = []) (s : Statement) (loop : Option Loop)
    (hloop : W.HasLoop loop) :
    W.Simulates n loop (s.emit W.scene loop) (s.exec W.env.scope n) := by
  induction s using Statement.induction generalizing loop with
  | assign target value =>
    rw [Statement.emit]
    have : Straight (emitAssign W.scene.env target value) := ⟨traces_emitAssign W.env target value⟩
    exact simulates_straight fun hagrees => performs_emitAssign hagrees target value
  | call name arguments =>
    rw [Statement.emit]
    have : Straight (emitCallStatement W.scene.env name arguments) :=
      ⟨traces_emitCallStatement W.env name arguments⟩
    exact simulates_straight fun hagrees => performs_emitCallStatement hagrees name arguments
  | ifThen branches otherwise ihb ihe =>
    exact simulates_ifThen
      (fun branch hbranch => simulatesBody_of fun s hs => ihb branch hbranch s hs loop hloop)
      (fun body hbody => simulatesBody_of fun s hs => ihe body hbody s hs loop hloop)
  | whileDo condition body ih =>
    rw [Statement.emit]
    exact simulates_whileDo
      (fun hagrees => condition.computes_emitCondition W.plain hagrees.depicts)
      (fun inside hinside => simulatesBody_of fun s hs => ih s hs (some inside) hinside)
      (fun inside => isWoven_emitStatements W.scene (some inside) body)
  | repeatUntil body condition ih =>
    rw [Statement.emit]
    exact simulates_repeatUntil
      (fun hagrees => condition.computes_emitCondition W.plain hagrees.depicts)
      (fun inside hinside => simulatesBody_of fun s hs => ih s hs (some inside) hinside)
      (fun inside => isWoven_emitStatements W.scene (some inside) body)
  | forDo counter start limit direction body ih =>
    rw [Statement.emit]
    exact simulates_forDo
      (fun inside hinside => simulatesBody_of fun s hs => ih s hs (some inside) hinside)
      (fun inside => isWoven_emitStatements W.scene (some inside) body)
  | caseOf selector branches otherwise ihb ihe =>
    exact simulates_caseOf
      (fun branch hbranch => simulatesBody_of fun s hs => ihb branch hbranch s hs loop hloop)
      (fun body hbody => simulatesBody_of fun s hs => ihe body hbody s hs loop hloop)
  | breakLoop =>
    rw [Statement.emit]
    exact simulates_break hloop
  | continueLoop =>
    rw [Statement.emit]
    exact simulates_continue hloop
  | returnWith value =>
    rw [Statement.emit]
    exact simulates_return hcallers value

/-- The code of the body of a module does what the body means, as `SimulatesBody` says. -/
theorem simulates_emitStatements (hcallers : W.call.callers = []) (body : List Statement) :
    W.SimulatesBody n none body :=
  simulatesBody_of fun s _ => simulates_emit hcallers s none fun _ h => (nomatch h)

end Setting
end Oberon
