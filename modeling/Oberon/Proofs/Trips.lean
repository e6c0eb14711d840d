import Oberon.Proofs.ControlFlow
import Oberon.Proofs.Counting

/-!
# Trips of FOR statements

A FOR is emitted as a loop of four blocks. Those that its body adds lead to each other or to the end
of the body, never back to its start. So the body of a FOR between two numbers is run as often as
the range says, but for a limit at the end of the 64-bit range.
-/

namespace Oberon

open Code Machine Relation Emit

/-! ## Where statements stand -/

/-- Code that was emitted since a given time stands in a function: the function has its blocks, and
returns at the end of those that were added and left open. The current block may go on. -/
structure Emission.StandsIn (s t : Emission) (blocks : Array Block) : Prop where
  precede : Precede t.build.blocks blocks
  returns : ∀ l b, s.draft.blocks ≤ l → l ≠ t.build.cursor → t.build.blocks[l]? = some b →
    b.terminator = none → ∃ c value, blocks[l]? = some c ∧ c.terminator = some (.ret value)

namespace Emission

variable {s t u : Emission} {blocks : Array Block}

/-- Code of a body `StandsIn` the function that the body becomes. -/
theorem Weaves.standsIn (h : t.Weaves u) (ht : t.IsOpen) (s : Emission) {start : Builder}
    (hstart : start.IsBegun) : s.StandsIn t (u.draft.function start).blocks := by
  refine ⟨h.works.precede.trans (Draft.precede_function hstart), fun l b _ hne hb hopen => ?_⟩
  have hlt : l < t.draft.blocks := ht.count ▸ (Array.getElem?_eq_some_iff.mp hb).1
  obtain ⟨c, hc, -, hterm⟩ := Draft.exists_function hstart ((h.works.kept l hlt hne).trans hb)
  exact ⟨c, _, hc, by rw [hterm, hopen]; rfl⟩

/-- The blocks of the function in which code `StandsIn` lead where those of the code lead. -/
theorem StandsIn.hasEdge (h : s.StandsIn t blocks) {source target : Nat}
    (hle : s.draft.blocks ≤ source) (hlt : source < t.build.blocks.size)
    (hne : source ≠ t.build.cursor) (hedge : HasEdge blocks source target) :
    HasEdge t.build.blocks source target := by
  obtain ⟨c, term, hc, hterm, htarget⟩ := hedge
  have hb := Array.getElem?_eq_getElem hlt
  cases hend : t.build.blocks[source].terminator with
  | none =>
    obtain ⟨c', value, hc', hreturns⟩ := h.returns source _ hle hne hb hend
    obtain rfl := Option.some.inj (hc.symm.trans hc')
    obtain rfl := Option.some.inj (hterm.symm.trans hreturns)
    cases htarget
  | some term' =>
    obtain ⟨c', hc', -, hsame⟩ := h.precede source _ hb
    obtain rfl := Option.some.inj (hc.symm.trans hc')
    obtain rfl := Option.some.inj (hterm.symm.trans (hsame term' hend).2)
    exact ⟨_, term, hb, hend, htarget⟩

/-- A block to which the emission `Turns` holds the code that was added then, and ends as the
emission turned from it. -/
theorem Turns.block {l l' : Nat} {term term' : Terminator} {code : List Instr} {r r' : Emission}
    (h : s.Turns term l r) (hcode : r.Adds code r') (h' : r'.Turns term' l' t)
    (hblocks : Precede t.build.blocks blocks) :
    ∃ block, blocks[l]? = some block ∧ block.instrs = code ∧ block.terminator = some term' := by
  have hprecede' : Precede r'.build.blocks blocks := h'.works.precede.trans hblocks
  have hprecede : Precede r.build.blocks blocks :=
    (h.isOpen.works_adds hcode).precede.trans hprecede'
  obtain ⟨b, hb, -⟩ := h.isBlank
  obtain ⟨block, hblock, -⟩ := hprecede l b hb
  obtain ⟨more, hinstrs, hat⟩ := (h.isBlank.at_start h.cursor hblock).adds hcode hprecede'
  obtain ⟨rfl, hterm⟩ := hat.ends (h'.ends hblocks)
  exact ⟨block, hblock, by rw [hinstrs, List.append_nil], hterm⟩

/-- The finished code has a block wherever there was one that `IsBlank`. -/
theorem IsBlank.exists_block {l : Nat} (h : s.IsBlank l) (hblocks : Precede s.build.blocks blocks) :
    ∃ block, blocks[l]? = some block := by
  obtain ⟨b, hb, -⟩ := h
  obtain ⟨block, hblock, -⟩ := hblocks l b hb
  exact ⟨block, hblock⟩

end Emission

/-! ## The blocks of a FOR -/

section

variable {s t : Emission} {blocks : Array Block} {scene : Scene} {body : List Statement}
  {place : Value} {first last : Int64} {direction : Direction}

/-- The place where `body` is emitted: at the start of a block, inside of a loop. -/
structure IsBodyAt (blocks : Array Block) (scene : Scene) (body : List Statement) (loop : Loop)
    (label : Nat) (r : Emission) : Prop where
  isBlank : r.IsBlank label
  cursor : r.build.cursor = label
  emitted : ∃ r', emitStatements scene (some loop) body r = .ok ((), r')
    ∧ Precede r'.build.blocks blocks

/-- The blocks of a body that goes on behind it lead to others of the body, or out of it. -/
theorem hasEdge_body {loop : Loop} {r r' u : Emission} {l source target : Nat}
    (hb : emitStatements scene (some loop) body r = .ok ((), r')) (hr : r.IsOpen)
    (hnext : r'.Turns (.jump loop.next) l u)
    (hsource : source = r.build.cursor ∨ r.draft.blocks ≤ source) (hlt : source < r'.draft.blocks)
    (hedge : HasEdge u.build.blocks source target) :
    (r.draft.blocks ≤ target ∧ target < r'.draft.blocks) ∨ target ∈ [loop.next, loop.exit] := by
  by_cases hend : source = r'.build.cursor
  · obtain ⟨b, term, hfound, hterm, htarget⟩ := hedge
    obtain ⟨-, block, -, hblock, -, hjumps⟩ := (hnext.ends (.refl _)).code
    rw [← hend, hfound] at hblock
    obtain rfl := Option.some.inj hblock
    obtain rfl := Option.some.inj (hterm.symm.trans hjumps)
    exact .inr (List.mem_cons.mpr (.inl (List.mem_singleton.mp htarget)))
  · rcases hasEdge_emitStatements hb hr hsource (hnext.works.hasEdge hlt hend hedge)
      with hown | ⟨found, hloop, htarget⟩
    · exact .inl hown
    · obtain rfl := Option.some.inj hloop
      exact .inr (by simpa using htarget)

/-- `countTo` makes a loop of four blocks, in which the body has others of its own, and goes on in
the last of them. -/
theorem isForLoop_of_countTo
    (h : countTo place 64 (.integer last) direction
      (fun loop => emitStatements scene (some loop) body) s = .ok ((), t))
    (hs : s.IsOpen) (hplace : place.IsBefore s.stock.temps) (hblocks : s.StandsIn t blocks) :
    Precede s.build.blocks blocks ∧ s.Ends blocks (.jump s.draft.blocks)
      ∧ IsForLoop blocks place last direction s.draft.blocks
      ∧ (∃ r, IsBodyAt blocks scene body ⟨s.draft.blocks + 2, s.draft.blocks + 3⟩
        (s.draft.blocks + 1) r)
      ∧ t.IsBlank (s.draft.blocks + 3) ∧ t.build.cursor = s.draft.blocks + 3 := by
  obtain ⟨c, s₁, s₂, s₃, s₄, s₅, s₆, hjump, hc, hbranch, hb, hnext, hstep, hback, hfour⟩ :=
    countTo_turns (fun loop => isWoven_emitStatements scene (some loop) body) h hs
  obtain ⟨rfl, htest⟩ := forTest_adds hc
  have hadvance := forStep_adds hstep
  have hweaves := isWoven_emitStatements scene _ body hb hbranch.isOpen
  have hworks₁ := hjump.isOpen.works_adds htest
  have hworks₅ := hnext.isOpen.works_adds hadvance
  have hprecede₆ : Precede s₆.build.blocks blocks := hback.works.precede.trans hblocks.precede
  have hprecede₅ : Precede s₅.build.blocks blocks := hworks₅.precede.trans hprecede₆
  have hprecede₄ : Precede s₄.build.blocks blocks := hnext.works.precede.trans hprecede₅
  have hprecede₃ : Precede s₃.build.blocks blocks := hweaves.works.precede.trans hprecede₄
  have hprecede₂ : Precede s₂.build.blocks blocks := hbranch.works.precede.trans hprecede₃
  have hprecede₁ : Precede s₁.build.blocks blocks := hworks₁.precede.trans hprecede₂
  refine ⟨hjump.works.precede.trans hprecede₁, hjump.ends hprecede₁,
    ⟨?test, hbranch.isBlank.exists_block hprecede₃, ?inside, ?step,
      hback.isBlank.exists_block hblocks.precede⟩,
    ⟨s₃, hbranch.isBlank, hbranch.cursor, s₄, hb, hprecede₄⟩, hback.isBlank, hback.cursor⟩
  case test =>
    obtain ⟨block, hblock, hcode, hterm⟩ := hjump.block htest hbranch hprecede₃
    exact ⟨block, s₁.stock.temps, hblock, hjump.temps ▸ hplace, hcode, hterm⟩
  case step =>
    obtain ⟨block, hblock, hcode, hterm⟩ := hnext.block hadvance hback hblocks.precede
    refine ⟨block, s₅.stock.temps, hblock, fun i ty hi => ?_, hcode, hterm⟩
    calc i < s.stock.temps := hplace i ty hi
      _ = s₁.stock.temps := hjump.temps.symm
      _ ≤ s₂.stock.temps := hworks₁.stock.temps
      _ = s₃.stock.temps := hbranch.temps.symm
      _ ≤ s₄.stock.temps := hweaves.works.stock.temps
      _ = s₅.stock.temps := hnext.temps.symm
  case inside =>
    refine ⟨fun l => s₃.draft.blocks ≤ l ∧ l < s₄.draft.blocks, by omega,
      fun source target hsource hedge => ?_⟩
    have hsize₄ := hweaves.works.size
    have hsize₅ := hnext.works.size
    have hsize₆ := hworks₅.size
    have hsize := hback.works.size
    have hcursor₅ := hnext.cursor
    have hcursor₆ := hadvance.build_eq.1
    have hcursor := hback.cursor
    have hcount := hback.isOpen.count
    -- behind the body, only the step was worked on
    have hedge := hblocks.hasEdge (by omega) (by omega) (by omega) hedge
    have hedge := hback.works.hasEdge (by omega) (by omega) hedge
    have hedge := hworks₅.hasEdge (by omega) (by omega) hedge
    refine hasEdge_body hb hbranch.isOpen hnext ?_ (by omega) hedge
    rw [hbranch.cursor]
    exact hsource.imp_right And.left

end

/-! ## Trips -/

section

variable {image : Image} {place : Value} {first : Int64} {label : Nat} {M : State}

/-- The head of a FOR, `store` and `jump`, sets the counter and leads to the test. -/
theorem Machine.Image.run_head {block : Block}
    (hrest : M.frame.rest = [.store (.integer first) place])
    (hterm : M.frame.block.terminator = some (.jump label))
    (hcounter : ∃ p, image.int M.frame place = .ok p
      ∧ M.world.memory.Houses (addressOf p) .integer)
    (hblock : M.frame.blocks[label]? = some block) {labels : List Nat} (hlabel : label ∉ labels) :
    ∃ N, image.Avoids M.callers.length labels M N
      ∧ N.Begins M.callers.length M.frame.blocks label ∧ image.Counts place N first := by
  obtain ⟨p, hp, hhouse⟩ := hcounter
  have hvalue : image.value M.frame (.integer first) = .ok (.int first) :=
    congrArg (Except.ok ∘ Scalar.int) (wrap_64 first)
  obtain ⟨m, hstore, hcounts⟩ := Image.moves_store hrest rfl hp hhouse hvalue
  have hjump : image.JumpsTo M.callers.length label (M.storing m []) :=
    ⟨rfl, Image.target?_jump rfl hterm⟩
  obtain ⟨hmoves, hbegins⟩ := hjump.begins rfl hblock
  exact ⟨_, (Image.Avoids.instr hrest hstore rfl).trans
    (hjump.avoids hmoves hbegins.call.ge hlabel), hbegins, hcounts.atBlock block⟩

end

/-- The trips of a FOR between two numbers, in whatever function it stands and whatever its body is,
if the body comes to its end each time it is begun and leaves the counter as it was. Unless the
limit is the last number there is, the body is begun once for each number from the first to the
last, in this order; then the loop is left, and the code behind it goes on. If the limit is the last
number there is, the body is begun again and again. -/
theorem Statement.forDo_trips {scene : Scene} {loop : Option Loop} {name : String}
    {first last : Int64} {direction : Direction} {body : List Statement} {cell : Variable}
    {s t : Emission} {image : Image} {M : State}
    (h : (Statement.forDo name (.literal (.integer first)) (.literal (.integer last)) direction
      body).emit scene loop s = .ok ((), t))
    (hs : s.IsOpen) (hcell : findVariable scene.env name = .ok cell) (hty : cell.ty = .integer)
    (hplace : cell.storage.IsBefore s.stock.temps) (hblocks : s.StandsIn t M.frame.blocks)
    (hM : s.At M.frame.blocks M.frame.block M.frame.rest)
    (hcounter : ∃ p, image.int M.frame cell.storage = .ok p
      ∧ M.world.memory.Houses (addressOf p) .integer)
    (hbody : image.CompletesBody cell.storage M.callers.length s.draft.blocks M) :
    (∃ r, IsBodyAt M.frame.blocks scene body ⟨s.draft.blocks + 2, s.draft.blocks + 3⟩
        (s.draft.blocks + 1) r)
      ∧ (last ≠ direction.extreme → ∃ visits N K,
        image.Visits M.callers.length [s.draft.blocks + 1, s.draft.blocks + 3] M visits N
          ∧ List.Forall₂ (fun N v => image.JumpsTo M.callers.length (s.draft.blocks + 1) N
            ∧ image.Counts cell.storage N v) visits (direction.trips first last)
          ∧ image.JumpsTo M.callers.length (s.draft.blocks + 3) N ∧ image.Moves N K
          ∧ K.callers.length = M.callers.length ∧ K.frame.blocks = M.frame.blocks
          ∧ t.At M.frame.blocks K.frame.block K.frame.rest)
      ∧ (last = direction.extreme → ∀ n, ∃ visits N,
        image.Visits M.callers.length [s.draft.blocks + 1, s.draft.blocks + 3] M visits N
          ∧ visits.length = n
          ∧ ∀ N ∈ visits, image.JumpsTo M.callers.length (s.draft.blocks + 1) N) := by
  rw [Statement.emit] at h
  have hcount := forDo_ok hcell hty h
  have hstore := s.adds_pushed (i := .store (.integer first) cell.storage) rfl
  have hblocks' : (s.pushed (.store (.integer first) cell.storage)).StandsIn t M.frame.blocks :=
    ⟨hblocks.precede, hblocks.returns⟩
  obtain ⟨hprecede, hends, hloop, hinner, hblank, hcursor⟩ :=
    isForLoop_of_countTo hcount (hs.adds hstore) hplace hblocks'
  -- the head stands where the call is
  obtain ⟨more, hrest, hat⟩ := hM.adds hstore hprecede
  obtain ⟨rfl, hterm⟩ := hat.ends hends
  obtain ⟨test, _, htest, -⟩ := hloop.test
  have hlabel : s.draft.blocks ∉ [s.draft.blocks + 1, s.draft.blocks + 3] := by simp
  obtain ⟨N, hrun, hbegins, hcounts⟩ := Image.run_head hrest hterm hcounter htest hlabel
  have hbody' := hbody.visits (.avoids hrun)
  refine ⟨hinner, fun hlast => ?_, fun hlast n => ?_⟩
  · obtain ⟨visits, K, hvisits, hdone, hsame, hall⟩ := hloop.trips hlast hbegins hcounts hbody'
    obtain ⟨block, hblock⟩ := hloop.done
    obtain ⟨hmoves, hleft⟩ := hdone.begins hsame hblock
    exact ⟨visits, K, _, hvisits.head hrun, hall, hdone, hmoves, hleft.call, hleft.same,
      hblank.at_start hcursor hblock⟩
  · obtain ⟨visits, K, hvisits, hlength, hall⟩ := hloop.endless hlast hbegins hcounts hbody' n
    exact ⟨visits, K, hvisits.head hrun, hlength, hall⟩

namespace Countdown

/-- The counter, a variable of the module. -/
def cell : Variable :=
  { name := "i", storage := .global "M.i", ty := .integer, isGlobal := true, level := 0 }

/-- A procedure that sees the counter. -/
def scene : Scene :=
  { env := ⟨[[], [("i", .var cell)]]⟩, result := .void }

/-- A body that always goes on before it has come to its end. -/
def body : List Statement :=
  [.ifThen [(.literal (.boolean true), [.continueLoop])] none]

/-- A loop down from 3 to 1. -/
def loop : Statement :=
  .forDo "i" (.literal (.integer 3)) (.literal (.integer 1)) .down body

/-- A program with the counter as its one global. -/
def image : Image :=
  ⟨{ name := "M", target := "" }, [("M.i", 16)]⟩

/-- The start of the procedure, given its blocks. -/
def state (blocks : Array Block) (first : Block) : State :=
  ⟨{ memory := Memory.initial.extend 24, input := [] },
    ⟨"M.P", blocks, [], {}, 24, none, first, first.instrs⟩, []⟩

/-- The body jumps to the step from the second of its blocks, so it `CompletesBody`. -/
theorem completesBody {blocks : Array Block} (first : Block)
    (hinner : blocks[2]?.map Block.content = some ([], some (.branch (.int 1 1) 6 5)))
    (hthen : blocks[6]?.map Block.content = some ([], some (.jump 3))) :
    image.CompletesBody cell.storage 0 1 (state blocks first) := by
  obtain ⟨inner, hinner, hcontent⟩ := Option.map_eq_some_iff.mp hinner
  obtain ⟨then', hthen, hcontent'⟩ := Option.map_eq_some_iff.mp hthen
  obtain ⟨hinstrs, hterm⟩ := Prod.mk.inj hcontent
  obtain ⟨hinstrs', hterm'⟩ := Prod.mk.inj hcontent'
  intro visits t u v hvisits hjump hv hmoves
  have hblocks : t.frame.blocks = blocks := hvisits.blocks rfl hjump.depth
  obtain ⟨block, hblock, rfl⟩ := hjump.eq_atBlock hmoves
  rw [hblocks] at hblock
  obtain rfl := Option.some.inj (hinner.symm.trans hblock)
  have hcondition : image.int (t.atBlock inner).frame (.int 1 1) = .ok (-1) := rfl
  have hbranch : image.JumpsTo 0 6 (t.atBlock inner) := by
    refine ⟨hjump.depth, ?_⟩
    rw [Image.target?_branch hinstrs hterm hcondition]
    rfl
  obtain ⟨hmoves', hbegins⟩ := hbranch.begins hblocks hthen
  exact ⟨_, hbranch.avoids hmoves' hbegins.call.ge (by decide),
    ⟨hbegins.call, Image.target?_jump hinstrs' hterm'⟩, (hv.atBlock inner).atBlock then'⟩

end Countdown

/-- The body is begun three times, for 3, 2 and 1. -/
theorem Statement.forDo_trips_countdown :
    ∃ t blocks first, Countdown.loop.emit Countdown.scene none ⟨{}, {}⟩ = .ok ((), t)
      ∧ Emission.StandsIn ⟨{}, {}⟩ t blocks ∧ Emission.At ⟨{}, {}⟩ blocks first first.instrs
      ∧ Countdown.image.CompletesBody Countdown.cell.storage 0 1 (Countdown.state blocks first)
      ∧ ∃ visits N, Countdown.image.Visits 0 [2, 4] (Countdown.state blocks first) visits N
        ∧ List.Forall₂ (fun N v => Countdown.image.JumpsTo 0 2 N
          ∧ Countdown.image.Counts Countdown.cell.storage N v) visits [3, 2, 1]
        ∧ Countdown.image.JumpsTo 0 4 N := by
  have hopen : Emission.IsOpen ⟨{}, {}⟩ := ⟨rfl, _, rfl, rfl⟩
  have hstart := Builder.isBegun_start "M.P" [] .void "entry" none
  have hok : (Countdown.loop.emit Countdown.scene none ⟨{}, {}⟩).isOk = true := by decide +kernel
  have hfacts : ∀ r ∈ (Countdown.loop.emit Countdown.scene none ⟨{}, {}⟩).toOption,
      (r.2.draft.function (.start "M.P" [] .void "entry" none)).blocks[2]?.map Block.content
          = some ([], some (.branch (.int 1 1) 6 5))
        ∧ (r.2.draft.function (.start "M.P" [] .void "entry" none)).blocks[6]?.map Block.content
          = some ([], some (.jump 3)) := by
    decide +kernel
  obtain ⟨r, hemit⟩ := Except.exists_of_isOk hok
  obtain ⟨hinner, hthen⟩ := hfacts r (by rw [hemit]; rfl)
  have hweaves := Countdown.loop.isWoven_emit Countdown.scene none hemit hopen
  obtain ⟨b, hb, -⟩ := hweaves.works.precede 0 _ rfl
  obtain ⟨first, hfirst, -⟩ := Draft.exists_function hstart hb
  have hstands := (Emission.Weaves.refl hweaves.isOpen).standsIn hweaves.isOpen ⟨{}, {}⟩ hstart
  have hat : Emission.At ⟨{}, {}⟩ _ first first.instrs := ⟨hfirst, _, rfl, rfl⟩
  have hbody := Countdown.completesBody first hinner hthen
  have hinteger : Ty.integer.IsScalar := ⟨by decide, by decide⟩
  have hhouse : (Memory.initial.extend 24).Houses (addressOf 16) .integer :=
    ⟨hinteger.isProper, by decide, by decide, by decide⟩
  obtain ⟨-, htrips, -⟩ := Statement.forDo_trips (M := Countdown.state _ first) hemit hopen rfl
    rfl (by rintro _ _ ⟨⟩) hstands hat ⟨16, rfl, hhouse⟩ hbody
  obtain ⟨visits, N, K, hvisits, hall, hdone, -⟩ := htrips (by decide)
  exact ⟨r.2, _, first, hemit, hstands, hat, hbody, visits, N, hvisits, hall, hdone⟩

/-- A loop from the last number there is to itself, which writes a dot. -/
def Module.overrun : Module where
  name := "M"
  declarations := { vars := [(["i"], .integer)] }
  body := some [.forDo "i" (.literal (.integer Int64.maxValue)) (.literal (.integer Int64.maxValue))
    .up [.call "WRITE" [.literal (.string ".")]]]

/-- There is one number to count, but a second dot is written. -/
theorem Module.overrun_repeats :
    Direction.up.trips Int64.maxValue Int64.maxValue = [Int64.maxValue]
      ∧ ∃ p image M, Module.overrun.compile .native = .ok p ∧ Reaches p "" image M
        ∧ M.world.output = "..".toUTF8 := by
  have hok : (Module.overrun.compile .native).isOk = true := by decide +kernel
  have hfacts : ∀ p ∈ (Module.overrun.compile .native).toOption,
      (reach? p "" 15).map (·.2.world.output) = some "..".toUTF8 := by
    decide +kernel
  refine ⟨by decide, ?_⟩
  obtain ⟨p, hp⟩ := Except.exists_of_isOk hok
  obtain ⟨⟨image, M⟩, hreach, houtput⟩ := Option.map_eq_some_iff.mp (hfacts p (by rw [hp]; rfl))
  exact ⟨p, image, M, hp, reaches_of_reach? hreach, houtput⟩

end Oberon
