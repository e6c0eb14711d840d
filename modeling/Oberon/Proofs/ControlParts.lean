import Oberon.Proofs.Actions

/-!
# Parts of control structures at work

The straight-line parts of RETURN, CASE and FOR: the code of a status, of the tests of a CASE
branch, and of the start, the test and the step of a FOR loop.
-/

namespace Oberon

open Code Machine Emit

variable {W : Setting} {σ : Situation} {Γ : Moment}

/-! ## RETURN -/

/-- The scene of a module body, which ends with a status. -/
def Setting.scene (W : Setting) : Scene where
  env := W.env
  result := .status

instance (scene : Scene) (value : Option Expr) : Straight (emitResult scene value) :=
  ⟨traces_emitResult scene value⟩

/-- `emitResult` computes `returnStatus`. -/
theorem computes_emitResult (h : W.Agrees σ Γ) (value : Option Expr) :
    Computes W.image W.call Γ (emitResult W.scene value) (returnStatus W.env.scope σ.store value)
      fun Δ v status => ∃ w n, v = some w ∧ Δ.Has W.image W.call w (.int n)
        ∧ n.toInt32 = status := by
  cases value with
  | none => exact .pure ⟨rfl, _, _, rfl, .constant 0 32, rfl⟩
  | some e =>
    have hresult : returnStatus W.env.scope σ.store (some e)
        = e.eval W.env.scope σ.store >>= fun d => (d.toInteger.map Int64.toInt32) >>= .ok := by
      rw [returnStatus]
      congr 1
      funext d
      cases d.toInteger <;> rfl
    rw [hresult]
    show Computes _ _ _ (e.emit W.env >>= fun value => coerce value .status >>= fun value =>
      pure (some value)) _ _
    refine Computes.bind (e.computes_emit W.plain Γ h.depicts) fun _ _ hv => ?_
    refine Computes.bind (computes_status hv) fun _ _ hw => ?_
    obtain ⟨n, hn, hstatus⟩ := hw
    exact .pure ⟨rfl, _, n, rfl, hn, hstatus⟩

/-! ## CASE -/

instance (before : Option Value) (test : Value) : Straight (either before test) :=
  ⟨traces_either before test⟩
instance (selector : Value) (found : Option Value) (labels : List Literal) :
    Straight (matchLabels selector found labels) :=
  ⟨traces_matchLabels selector found labels⟩

section

variable {image : Image} {c : Call}

/-- What the tests of `matchLabels` for a CASE branch have found so far. -/
def Found (image : Image) (c : Call) (Γ : Moment) (before : Option Value) (b : Bool) : Prop :=
  match before with
  | none => b = false
  | some v => Denotes image c Γ v (.boolean b)

theorem computes_either {before : Option Value} {test : Value} {a b : Bool}
    (hbefore : Found image c Γ before a) (htest : Denotes image c Γ test (.boolean b)) :
    Computes image c Γ (either before test) (.ok (a || b))
      fun Δ v b => Denotes image c Δ v (.boolean b) := by
  cases before with
  | none =>
    obtain rfl : a = false := hbefore
    exact .pure ⟨rfl, htest⟩
  | some v =>
    have hv : Denotes image c Γ v (.boolean a) := hbefore
    have hty : v.ty = .boolean := hv.ty
    have hor : Machine.binary .or (widthOf v.ty) (.int (Datum.ofTruth a)) (.int (Datum.ofTruth b))
        = (Except.ok (a || b)).map fun b => .int (Datum.ofTruth b) := by
      rw [hty]
      cases a <;> cases b <;> rfl
    exact Performs.imp (computes_operation hv.boolean htest.boolean hor)
      fun _ h => ⟨h.1, .of_boolean (h.2.2.trans hty) h.2.1⟩

/-- `matchLabels` computes whether the selected value `isAmong` the labels of a CASE branch. -/
theorem computes_matchLabels {selector : Value} {d : Datum} (hfinds : image.FindsTexts)
    (labels : List Literal) (Γ : Moment) (before : Option Value) (b : Bool)
    (h : Denotes image c Γ selector d) (hbefore : Found image c Γ before b) :
    Computes image c Γ (matchLabels selector before labels) ((d.isAmong labels).map (b || ·))
      fun Δ v found => Denotes image c Δ v (.boolean found) := by
  induction labels generalizing Γ before b with
  | nil =>
    rw [show (d.isAmong []).map (b || ·) = .ok b from congrArg Except.ok (Bool.or_false b)]
    cases before with
    | none =>
      obtain rfl : b = false := hbefore
      exact .pure ⟨rfl, denotes_boolean false⟩
    | some v => exact .pure ⟨rfl, hbefore⟩
  | cons label rest ih =>
    -- the code joins the tests from the left, the semantics from the right
    have hresult : (d.isAmong (label :: rest)).map (b || ·)
        = Except.ok label.datum >>= fun l => d.relation .equal l >>= fun first =>
          Except.ok (b || first) >>= fun b => (d.isAmong rest).map (b || ·) := by
      rw [Datum.isAmong]
      show Except.map _ (d.relation .equal label.datum >>= _) = d.relation .equal label.datum >>= _
      cases d.relation .equal label.datum with
      | error e => rfl
      | ok first =>
        show Except.map _ (d.isAmong rest >>= _) = (d.isAmong rest).map _
        cases d.isAmong rest with
        | error e => rfl
        | ok others => exact congrArg Except.ok (Bool.or_assoc b first others).symm
    rw [hresult]
    refine Computes.bind (computes_literal hfinds label) fun hle _ hlabel => ?_
    refine Computes.bind (computes_compare .equal (h.mono hle) hlabel)
      fun {Θ test first} hle' _ htest => ?_
    have hbefore : Found image c Θ before b := by
      cases before with
      | none => exact hbefore
      | some v => exact Denotes.mono hbefore (hle.trans hle')
    refine Computes.bind (computes_either hbefore htest) fun hle'' _ hfound => ?_
    exact ih _ _ _ (h.mono (hle.trans (hle'.trans hle''))) hfound

end

/-! ## FOR -/

/-- The start of `forDo`: where the counter is, its width and the limit. -/
def Emit.forHead (counter : Emit (Value × Nat)) (start limit : Emit Value) :
    Emit (Value × Nat × Value) := do
  let p ← counter
  let first ← start
  let first ← coerce first (.int p.2)
  push (.store first p.1)
  let last ← limit
  let last ← coerce last (.int p.2)
  pure (p.1, p.2, last)

theorem Emit.forDo_eq (counter : Emit (Value × Nat)) (start limit : Emit Value)
    (direction : Direction) (body : Loop → Emit Unit) :
    forDo counter start limit direction body = (do
      let p ← forHead counter start limit
      countTo p.1 p.2.1 p.2.2 direction body) := by
  simp only [forDo, forHead, bind_assoc, pure_bind]

instance (env : Environment) (name : String) : Straight (emitCounter env name) :=
  ⟨traces_emitCounter env name⟩
instance (counter : Emit (Value × Nat)) (start limit : Emit Value) [Straight counter]
    [Straight start] [Straight limit] : Straight (forHead counter start limit) := by
  unfold forHead
  infer_instance

/-- `forHead` performs `startCounting`: it sets the counter and computes the limit. -/
theorem performs_forHead (h : W.Agrees σ Γ) (counter : String) (start limit : Expr) :
    Performs W.image W.call Γ
      (forHead (emitCounter W.env counter) (start.emit W.env) (limit.emit W.env))
      (startCounting W.env.scope counter start limit σ) fun Δ p q =>
        W.Agrees q.1 Δ ∧ p.2.1 = 64 ∧ Denotes W.image W.call Δ p.2.2 (.integer q.2)
          ∧ IsPlaceOf W.image W.call W.env Δ p.1 counter [] .integer := by
  unfold forHead
  cases hcell : findVariable W.env counter with
  | error e =>
    obtain ⟨e, he⟩ : ∃ e, emitCounter W.env counter = Emit.fail e := by
      unfold emitCounter
      rw [hcell]
      cases e <;> exact ⟨_, rfl⟩
    rw [he]
    exact .fail_bind _
  | ok cell =>
    have hplace := h.isPlaceOf hcell
    have hscope := Environment.scope_variable hcell
    unfold emitCounter startCounting
    simp only [hcell, hscope]
    cases hty : cell.ty with
    | int bits =>
      rw [hty] at hplace
      -- the counter is an INTEGER; a BOOLEAN counter does not compile
      rcases h.bits_eq hplace with rfl | rfl
      · simp only [show ¬ (64 : Nat) = 1 by decide, if_false, pure_bind]
        refine Performs.bind (start.computes_emit W.plain Γ h.depicts) fun {Δ _ _} hle hv => ?_
        obtain ⟨hworld, hv⟩ := hv
        have h := h.congr hworld
        have hplace := hplace.mono hle
        refine Performs.bind (computes_toInteger hv) fun {Δ _ first} hle hfirst => ?_
        obtain ⟨hworld, hfirst⟩ := hfirst
        have h := h.congr hworld
        have hplace := hplace.mono hle
        show Performs _ _ _ _ (Except.ok (σ.write counter [] (.integer first)) >>= fun σ =>
          limit.eval W.env.scope σ.store >>= fun d => d.toInteger >>= fun last => .ok (σ, last)) _
        refine Performs.bind (performs_store h hfirst hplace) fun hle h => ?_
        have hplace := hplace.mono hle
        -- the limit is evaluated when the counter has its first value
        refine Performs.bind (limit.computes_emit W.plain _ h.depicts) fun hle hv => ?_
        have h := h.congr hv.1
        have hplace := hplace.mono hle
        refine Performs.bind (computes_toInteger hv.2) fun hle hlast => ?_
        exact .pure ⟨h.congr hlast.1, rfl, hlast.2, hplace.mono hle⟩
      · simp only [if_true]
        exact .fail_bind _
    | real => exact .fail_bind _
    | ptr => exact .fail_bind _
    | void => exact .fail_bind _
    | array length element => exact .fail_bind _

/-- The test of `countTo`. -/
def Emit.forTest (place : Value) (bits : Nat) (limit : Value) (direction : Direction) :
    Emit Value := do
  let current ← load (.int bits) place
  compare (goesOn direction) current limit

/-- The step of `countTo`. -/
def Emit.forStep (place : Value) (bits : Nat) (direction : Direction) : Emit Unit := do
  let current ← load (.int bits) place
  let next ← binary (advance direction) current (.int 1 bits)
  push (.store next place)

instance (place : Value) (bits : Nat) (limit : Value) (direction : Direction) :
    Straight (forTest place bits limit direction) := by
  unfold forTest
  infer_instance

instance (place : Value) (bits : Nat) (direction : Direction) :
    Straight (forStep place bits direction) := by
  unfold forStep
  infer_instance

/-- The counter of a FOR loop is an INTEGER wherever a moment `Agrees` with the situation. -/
theorem Setting.Agrees.counter (h : W.Agrees σ Γ) {place : Value} {name : String}
    (hplace : IsPlaceOf W.image W.call W.env Γ place name [] .integer) :
    ∃ n, σ.store name [] = .integer n := by
  have hty := h.ty_eq hplace rfl
  generalize σ.store name [] = d at hty ⊢
  cases d with
  | integer n => exact ⟨n, rfl⟩
  | boolean b => cases hty
  | real r => cases hty
  | string text => cases hty

theorem holds_goesOn (direction : Direction) (current last : Int64) :
    Datum.compareIntegers (goesOn direction) current last = direction.goesOn current last := by
  cases direction <;> rfl

theorem binary_advance (direction : Direction) (current : Int64) :
    Machine.binary (advance direction) 64 (.int current) (.int (Word.wrap 64 1))
      = .ok (.int (direction.next current)) := by
  cases direction with
  | up => exact congrArg (Except.ok ∘ Scalar.int) (wrap_64 _)
  | down => exact congrArg (Except.ok ∘ Scalar.int) (wrap_64 _)

/-- `forTest` computes `countsOn`, whether the loop goes on. -/
theorem computes_forTest (h : W.Agrees σ Γ) {place limit : Value} {name : String} {last : Int64}
    (hplace : IsPlaceOf W.image W.call W.env Γ place name [] .integer)
    (hlimit : Denotes W.image W.call Γ limit (.integer last)) (direction : Direction) :
    Computes W.image W.call Γ (forTest place 64 limit direction)
      (countsOn direction name last σ)
      fun Δ v more => Denotes W.image W.call Δ v (.boolean more) := by
  obtain ⟨n, hn⟩ := h.counter hplace
  have hresult : countsOn direction name last σ
      = Except.ok (σ.store name []) >>= fun d => d.relation (goesOn direction) (.integer last) := by
    rw [countsOn, hn]
    exact congrArg Except.ok (holds_goesOn direction n last).symm
  rw [hresult]
  exact Computes.bind (computes_read h.depicts rfl hplace) fun hle _ hv =>
    computes_compare _ hv (hlimit.mono hle)

/-- `forStep` takes the counter to its next value, by `Direction.next`. -/
theorem performs_forStep (h : W.Agrees σ Γ) {place : Value} {name : String}
    (hplace : IsPlaceOf W.image W.call W.env Γ place name [] .integer) (direction : Direction) :
    Performs W.image W.call Γ (forStep place 64 direction)
      ((σ.store name []).toInteger.map fun current =>
        σ.write name [] (.integer (direction.next current)))
      fun Δ _ σ' => W.Agrees σ' Δ := by
  obtain ⟨n, hn⟩ := h.counter hplace
  have hresult : ((σ.store name []).toInteger.map fun current =>
        σ.write name [] (.integer (direction.next current)))
      = Except.ok (σ.store name []) >>= fun _ => Except.ok (direction.next n) >>= fun next =>
        Except.ok (σ.write name [] (.integer next)) := by
    rw [hn]
    rfl
  rw [hresult]
  refine Performs.bind (Performs.known (computes_read h.depicts rfl hplace))
    fun {Δ v d} hle hv => ?_
  obtain ⟨⟨hworld, hv⟩, hd⟩ := hv
  have h := h.congr hworld
  obtain rfl : d = .integer n := (Except.ok.inj hd).symm.trans hn
  have hty : v.ty = .integer := hv.ty
  -- the counter wraps around at the ends of the range, as the machine does
  have hadvance : Machine.binary (advance direction) (widthOf v.ty) (.int n)
      (.int (Word.wrap 64 1)) = (Except.ok (direction.next n)).map .int := by
    rw [hty]
    exact binary_advance direction n
  refine Performs.bind (computes_operation hv.integer (.constant 1 64) hadvance)
    fun hle' hnext => ?_
  obtain ⟨hworld, hnext, hnextty⟩ := hnext
  exact performs_store (h.congr hworld) (.of_integer (hnextty.trans hty) hnext)
    (hplace.mono (hle.trans hle'))

end Oberon
