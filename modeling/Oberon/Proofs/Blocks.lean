import Oberon.Proofs.Segments

/-!
# Blocks under construction

While a body is emitted, its blocks grow: instructions come at the end of an open block, and a
block that has ended stays as it is. So the finished blocks hold, at the place that an emission has
reached (`Emission.At`), exactly the code that was emitted from there on. `Emission.Weaves` is what
a statement may do: it works on the current block and on new ones only, and goes on in one of them.
-/

namespace Oberon

open Code

/-! ## Finished blocks -/

/-- A block that is a later state of another one, to which nothing is added once it has ended. -/
def Code.Block.Precedes (b c : Block) : Prop :=
  b.instrs <+: c.instrs ∧ ∀ t, b.terminator = some t → c.instrs = b.instrs ∧ c.terminator = some t

theorem Code.Block.Precedes.refl (b : Block) : b.Precedes b :=
  ⟨List.prefix_rfl, fun _ ht => ⟨rfl, ht⟩⟩

/-- `Precedes` composes: a block grows at its end, until it has a terminator. -/
theorem Code.Block.Precedes.trans {b c d : Block} (h : b.Precedes c) (h' : c.Precedes d) :
    b.Precedes d := by
  refine ⟨h.1.trans h'.1, fun t ht => ?_⟩
  obtain ⟨hinstrs, hterm⟩ := h.2 t ht
  obtain ⟨hinstrs', hterm'⟩ := h'.2 t hterm
  exact ⟨hinstrs'.trans hinstrs, hterm'⟩

/-- Blocks `after` that are later states of the blocks `before` at the same places, by
`Block.Precedes`. -/
def Precede (before after : Array Block) : Prop :=
  ∀ (l : Nat) (b : Block), before[l]? = some b → ∃ c, after[l]? = some c ∧ b.Precedes c

theorem Precede.refl (blocks : Array Block) : Precede blocks blocks :=
  fun _ b hb => ⟨b, hb, .refl b⟩

/-- `Precede` composes, block by block. -/
theorem Precede.trans {a b c : Array Block} (h : Precede a b) (h' : Precede b c) :
    Precede a c := by
  intro l x hx
  obtain ⟨y, hy, hxy⟩ := h l x hx
  obtain ⟨z, hz, hyz⟩ := h' l y hy
  exact ⟨z, hz, hxy.trans hyz⟩

/-- The function under construction with all of `code` in the block at the cursor. -/
def Code.Builder.pushAll (b : Builder) (code : List Instr) : Builder :=
  { b with blocks := b.blocks.modify b.cursor fun b => { b with instrs := b.instrs ++ code } }

namespace Emission

/-- The block at the cursor can take instructions, and `Draft.blocks` counts the blocks. -/
structure IsOpen (s : Emission) : Prop where
  count : s.draft.blocks = s.build.blocks.size
  here : ∃ b, s.build.blocks[s.build.cursor]? = some b ∧ b.terminator = none

/-- A block in which nothing stands yet. -/
def IsBlank (s : Emission) (label : Nat) : Prop :=
  ∃ b, s.build.blocks[label]? = some b ∧ b.instrs = [] ∧ b.terminator = none

/-- A later state of an emission that has worked on the current block and on new ones only. -/
structure Works (s t : Emission) : Prop where
  count : t.draft.blocks = t.build.blocks.size
  size : s.draft.blocks ≤ t.draft.blocks
  precede : Precede s.build.blocks t.build.blocks
  kept : ∀ l < s.draft.blocks, l ≠ s.build.cursor → t.build.blocks[l]? = s.build.blocks[l]?
  stock : s.stock.Grows t.stock

variable {s t u : Emission} {l : Nat}

/-- Where `IsOpen` holds, the current block is one of those that were counted. -/
theorem IsOpen.cursor_lt (h : s.IsOpen) : s.build.cursor < s.draft.blocks := by
  obtain ⟨b, hb, -⟩ := h.here
  rw [h.count]
  exact (Array.getElem?_eq_some_iff.mp hb).1

theorem IsBlank.lt (h : s.IsBlank l) (hcount : s.draft.blocks = s.build.blocks.size) :
    l < s.draft.blocks := by
  obtain ⟨b, hb, -⟩ := h
  rw [hcount]
  exact (Array.getElem?_eq_some_iff.mp hb).1

namespace Works

/-- `Works` composes if the current block is an old or a new one all the time. -/
theorem trans (h : s.Works t) (h' : t.Works u)
    (hcursor : t.build.cursor = s.build.cursor ∨ s.draft.blocks ≤ t.build.cursor) : s.Works u := by
  refine ⟨h'.count, h.size.trans h'.size, h.precede.trans h'.precede, fun l hl hne => ?_,
    h.stock.trans h'.stock⟩
  rw [h'.kept l (hl.trans_le h.size) (by omega), h.kept l hl hne]

/-- A blank block on which nobody `Works` stays blank. -/
theorem isBlank (h : s.Works t) (hl : s.IsBlank l) (hlt : l < s.draft.blocks)
    (hne : l ≠ s.build.cursor) : t.IsBlank l := by
  obtain ⟨b, hb, hempty⟩ := hl
  exact ⟨b, (h.kept l hlt hne).trans hb, hempty⟩

end Works

/-! ## Steps -/

/-- A script of `Edit.push` adds its code to the current block. -/
theorem foldl_push (b : Builder) (code : List Instr) :
    (code.map Edit.push).foldl Builder.apply b = b.pushAll code := by
  induction code generalizing b with
  | nil =>
    have hsame : b.blocks.modify b.cursor (fun b => { b with instrs := b.instrs ++ [] })
        = b.blocks := by
      refine Array.ext_getElem? fun i => ?_
      rw [Array.getElem?_modify]
      split
      · simp
      · rfl
    rw [Builder.pushAll, hsame]
    rfl
  | cons i rest ih =>
    have hblocks : (b.apply (.push i)).blocks.modify b.cursor
          (fun b => { b with instrs := b.instrs ++ rest })
        = b.blocks.modify b.cursor fun b => { b with instrs := b.instrs ++ i :: rest } := by
      refine Array.ext_getElem? fun j => ?_
      simp only [Builder.apply, Array.getElem?_modify]
      split
      · simp [Function.comp_def, Block.push]
      · rfl
    rw [Builder.pushAll, ← hblocks]
    exact ih (b.apply (.push i))

/-- Code that an emission `Adds` stands at the end of the block at the cursor, wherever the script
is carried out. -/
theorem Adds.run_eq {code : List Instr} (h : s.Adds code t) (start : Builder) :
    start.run t.draft.script = (start.run s.draft.script).pushAll code := by
  unfold Builder.run
  rw [← Array.foldl_toList, ← Array.foldl_toList, h.script, List.foldl_append, foldl_push]

/-- `Adds` changes the current block only, by code at its end. -/
theorem Adds.build_eq {code : List Instr} (h : s.Adds code t) :
    t.build.cursor = s.build.cursor ∧ t.build.blocks
      = s.build.blocks.modify s.build.cursor fun b => { b with instrs := b.instrs ++ code } := by
  have hbuild : t.build = s.build.pushAll code := h.run_eq _
  rw [hbuild]
  exact ⟨rfl, rfl⟩

/-- An emission `Works` if a block that precedes takes the place of the open one. -/
theorem works_modify {f : Block → Block} (hs : s.IsOpen) (hcount : t.draft.blocks = s.draft.blocks)
    (hblocks : t.build.blocks = s.build.blocks.modify s.build.cursor f)
    (hf : ∀ b : Block, b.terminator = none → b.Precedes (f b)) (hstock : s.stock.Grows t.stock) :
    s.Works t := by
  refine ⟨?_, hcount.ge, fun l b hb => ?_, fun l _ hne => ?_, hstock⟩
  · rw [hcount, hs.count, hblocks, Array.size_modify]
  · rw [hblocks, Array.getElem?_modify]
    obtain ⟨b₀, hb₀, hopen⟩ := hs.here
    by_cases hl : s.build.cursor = l
    · obtain rfl := hl
      obtain rfl := Option.some.inj (hb₀.symm.trans hb)
      rw [if_pos rfl, hb]
      exact ⟨f b₀, rfl, hf b₀ hopen⟩
    · rw [if_neg hl]
      exact ⟨b, hb, .refl b⟩
  · rw [hblocks, Array.getElem?_modify, if_neg (Ne.symm hne)]

theorem IsOpen.works_adds (hs : s.IsOpen) {code : List Instr} (h : s.Adds code t) : s.Works t :=
  works_modify hs h.blocks h.build_eq.2 (fun _ hopen =>
    ⟨List.prefix_append _ _, fun _ ht => nomatch hopen.symm.trans ht⟩) h.stock

/-- Straight-line code leaves the current block open, as `IsOpen` says. -/
theorem IsOpen.adds (hs : s.IsOpen) {code : List Instr} (h : s.Adds code t) : t.IsOpen := by
  obtain ⟨b, hb, hopen⟩ := hs.here
  obtain ⟨hcursor, hblocks⟩ := h.build_eq
  refine ⟨(hs.works_adds h).count, { b with instrs := b.instrs ++ code }, ?_, hopen⟩
  rw [hcursor, hblocks, Array.getElem?_modify, if_pos rfl, hb]
  rfl

/-- Ending the open block is work on the current block. -/
theorem IsOpen.works_terminated (hs : s.IsOpen) (term : Terminator) :
    s.Works (s.terminated term) := by
  refine works_modify hs rfl (f := (·.terminate term)) ?_ (fun b hopen => ?_) (.refl _)
  · rw [terminated, build_edited]
    rfl
  · refine ⟨List.prefix_rfl, fun _ ht => ?_⟩
    cases hopen.symm.trans ht

theorem works_withBlock (hcount : s.draft.blocks = s.build.blocks.size) (name : String) :
    s.Works (s.withBlock name) := by
  have hblocks : (s.withBlock name).build.blocks
      = s.build.blocks.push { name := name ++ "." ++ toString s.stock.labels } := by
    rw [build_withBlock]
    rfl
  have hkept (l : Nat) (hl : l < s.build.blocks.size) :
      (s.withBlock name).build.blocks[l]? = s.build.blocks[l]? := by
    rw [hblocks, Array.getElem?_push_lt hl, Array.getElem?_eq_getElem hl]
  refine ⟨?_, Nat.le_succ _, fun l b hb => ?_, fun l hl _ => hkept l (hcount ▸ hl),
    ⟨List.prefix_rfl, Nat.le_succ _, le_rfl, id⟩⟩
  · rw [hblocks, Array.size_push, ← hcount]
    rfl
  · exact ⟨b, (hkept l (Array.getElem?_eq_some_iff.mp hb).1).trans hb, .refl b⟩

/-- The block that `withBlock` adds is blank. -/
theorem isBlank_withBlock (hcount : s.draft.blocks = s.build.blocks.size) (name : String) :
    (s.withBlock name).IsBlank s.draft.blocks := by
  refine ⟨{ name := name ++ "." ++ toString s.stock.labels }, ?_, rfl, rfl⟩
  rw [build_withBlock, hcount]
  exact Array.getElem?_push_size

/-- `moved` changes the cursor and no block. -/
theorem blocks_moved (s : Emission) (label : Nat) :
    (s.moved label).build.blocks = s.build.blocks := by
  rw [moved, build_edited]
  rfl

theorem works_moved (hcount : s.draft.blocks = s.build.blocks.size) (label : Nat) :
    s.Works (s.moved label) := by
  have hblocks := blocks_moved s label
  refine ⟨by rw [hblocks]; exact hcount, le_rfl, by rw [hblocks]; exact .refl _, fun l _ _ => ?_,
    .refl _⟩
  rw [hblocks]

theorem cursor_moved (s : Emission) (label : Nat) : (s.moved label).build.cursor = label := by
  rw [moved, build_edited]
  rfl

theorem IsBlank.moved (h : s.IsBlank l) (label : Nat) : (s.moved label).IsBlank l := by
  obtain ⟨b, hb, hempty⟩ := h
  refine ⟨b, ?_, hempty⟩
  rw [blocks_moved]
  exact hb

/-- A blank block to which the emission is `moved` is open. -/
theorem IsBlank.isOpen_moved (h : s.IsBlank l) (hcount : s.draft.blocks = s.build.blocks.size) :
    (s.moved l).IsOpen := by
  refine ⟨(works_moved hcount l).count, ?_⟩
  obtain ⟨b, hb, -, hopen⟩ := h.moved l
  exact ⟨b, by rw [cursor_moved]; exact hb, hopen⟩

/-- A later state of an emission with more blocks: it `Works`, and the current block is as it
was. -/
structure Prepares (s t : Emission) : Prop where
  works : s.Works t
  cursor : t.build.cursor = s.build.cursor
  here : t.build.blocks[s.build.cursor]? = s.build.blocks[s.build.cursor]?
  temps : t.stock.temps = s.stock.temps
  strings : t.stock.strings = s.stock.strings

namespace Prepares

theorem refl (hs : s.IsOpen) : s.Prepares s :=
  ⟨⟨hs.count, le_rfl, .refl _, fun _ _ _ => rfl, .refl _⟩, rfl, rfl, rfl, rfl⟩

/-- `Prepares` composes: blocks are added and the current one stays the same. -/
theorem trans (h : s.Prepares t) (h' : t.Prepares u) : s.Prepares u := by
  refine ⟨h.works.trans h'.works (.inl h.cursor), h'.cursor.trans h.cursor, ?_,
    h'.temps.trans h.temps, h'.strings.trans h.strings⟩
  rw [← h.here, ← h.cursor]
  exact h'.here

/-- An emission that `Prepares` blocks keeps its own open. -/
theorem isOpen (h : s.Prepares t) (hs : s.IsOpen) : t.IsOpen := by
  obtain ⟨b, hb, hopen⟩ := hs.here
  exact ⟨h.works.count, b, by rw [h.cursor, h.here, hb], hopen⟩

/-- A block that was blank stays so while the emission `Prepares` others. -/
theorem isBlank (h : s.Prepares t) (hs : s.IsOpen) (hl : s.IsBlank l) : t.IsBlank l := by
  by_cases hcursor : l = s.build.cursor
  · obtain ⟨b, hb, hempty⟩ := hl
    rw [hcursor] at hb ⊢
    exact ⟨b, h.here.trans hb, hempty⟩
  · exact h.works.isBlank hl (hl.lt hs.count) hcursor

end Prepares

/-- `withBlock` is the step by which an emission `Prepares` blocks. -/
theorem IsOpen.prepares_withBlock (hs : s.IsOpen) (name : String) :
    s.Prepares (s.withBlock name) := by
  have hlt : s.build.cursor < s.build.blocks.size := hs.count ▸ hs.cursor_lt
  refine ⟨works_withBlock hs.count name, ?_, ?_, rfl, rfl⟩
  · rw [build_withBlock]
    rfl
  · rw [build_withBlock]
    exact (Array.getElem?_push_lt hlt).trans (Array.getElem?_eq_getElem hlt).symm

/-! ## Places in finished blocks -/

/-- The `finished` blocks hold the given block at the cursor, in which the `rest` has not been
emitted yet. -/
structure At (s : Emission) (finished : Array Block) (block : Block) (rest : List Instr) :
    Prop where
  found : finished[s.build.cursor]? = some block
  code : ∃ b, s.build.blocks[s.build.cursor]? = some b ∧ block.instrs = b.instrs ++ rest

/-- The `finished` block at the cursor ends here, with the terminator `term`. -/
structure Ends (s : Emission) (finished : Array Block) (term : Terminator) : Prop where
  code : ∃ b block, s.build.blocks[s.build.cursor]? = some b
    ∧ finished[s.build.cursor]? = some block ∧ block.instrs = b.instrs
    ∧ block.terminator = some term

variable {finished : Array Block} {block : Block} {rest : List Instr}

/-- Where the current block `Ends`, no code of it is left to run. -/
theorem At.ends (h : s.At finished block rest) {term : Terminator} (hends : s.Ends finished term) :
    rest = [] ∧ block.terminator = some term := by
  obtain ⟨b, hb, hrest⟩ := h.code
  obtain ⟨b', block', hb', hfound, hinstrs, hterm⟩ := hends.code
  obtain rfl := Option.some.inj (hb.symm.trans hb')
  obtain rfl := Option.some.inj (h.found.symm.trans hfound)
  rw [hinstrs] at hrest
  exact ⟨List.self_eq_append_right.mp hrest, hterm⟩

/-- Code that an emission `Adds` stands in the finished block where the emission was. -/
theorem At.adds (h : s.At finished block rest) {code : List Instr} (hcode : s.Adds code t)
    (ht : Precede t.build.blocks finished) :
    ∃ more, rest = code ++ more ∧ t.At finished block more := by
  obtain ⟨b, hb, hrest⟩ := h.code
  obtain ⟨hcursor, hblocks⟩ := hcode.build_eq
  have hlater : t.build.blocks[s.build.cursor]? = some { b with instrs := b.instrs ++ code } := by
    rw [hblocks, Array.getElem?_modify, if_pos rfl, hb]
    rfl
  obtain ⟨block', hfound, ⟨more, hmore⟩, -⟩ := ht _ _ hlater
  obtain rfl := Option.some.inj (h.found.symm.trans hfound)
  rw [hrest, List.append_assoc] at hmore
  refine ⟨more, (List.append_cancel_left hmore).symm, ?_, _, hcursor ▸ hlater, ?_⟩
  · rw [hcursor]
    exact h.found
  · rw [hrest, ← List.append_cancel_left hmore, List.append_assoc]

/-- An emission in a blank block is `At` the start of the finished one. -/
theorem IsBlank.at_start (h : s.IsBlank l) (hcursor : s.build.cursor = l)
    (hfound : finished[l]? = some block) : s.At finished block block.instrs := by
  obtain ⟨b, hb, hempty, -⟩ := h
  refine ⟨hcursor ▸ hfound, b, hcursor ▸ hb, ?_⟩
  rw [hempty, List.nil_append]

/-- The current block ends with `term`, and the emission goes on in a blank one. -/
structure Turns (s : Emission) (term : Terminator) (label : Nat) (t : Emission) : Prop where
  works : s.Works t
  isOpen : t.IsOpen
  isBlank : t.IsBlank label
  cursor : t.build.cursor = label
  temps : t.stock.temps = s.stock.temps
  strings : t.stock.strings = s.stock.strings
  ends : ∀ {finished : Array Block}, Precede t.build.blocks finished → s.Ends finished term

/-- A block that has ended in the emission `Ends` so in the finished code. -/
theorem ends_of_terminated {b : Block} {term : Terminator}
    (hb : s.build.blocks[s.build.cursor]? = some b)
    (ht : t.build.blocks[s.build.cursor]? = some (b.terminate term)) (hopen : b.terminator = none)
    (h : Precede t.build.blocks finished) : s.Ends finished term := by
  obtain ⟨block, hfound, -, hend⟩ := h _ _ ht
  have hterm : (b.terminate term).terminator = some term := by simp [Block.terminate, hopen]
  obtain ⟨hinstrs, hterm'⟩ := hend term hterm
  exact ⟨b, block, hb, hfound, hinstrs, hterm'⟩

theorem getElem?_terminated {b : Block} (hb : s.build.blocks[s.build.cursor]? = some b)
    (term : Terminator) :
    (s.terminated term).build.blocks[s.build.cursor]? = some (b.terminate term) := by
  rw [terminated, build_edited]
  show (s.build.blocks.modify s.build.cursor _)[s.build.cursor]? = _
  rw [Array.getElem?_modify, if_pos rfl, hb]
  rfl

theorem cursor_terminated (s : Emission) (term : Terminator) :
    (s.terminated term).build.cursor = s.build.cursor := by
  rw [terminated, build_edited]
  rfl

/-- A blank block stays blank when the emission goes on in another one. -/
theorem IsBlank.turned (h : t.IsBlank l) (ht : t.IsOpen) (hne : l ≠ t.build.cursor)
    (term : Terminator) (label : Nat) : ((t.terminated term).moved label).IsBlank l :=
  ((ht.works_terminated term).isBlank h (h.lt ht.count) hne).moved label

/-- An emission that `Prepares` blocks and then ends its own `Turns` to one of them. -/
theorem Prepares.turns (h : s.Prepares t) (hs : s.IsOpen) (hl : t.IsBlank l)
    (hne : l ≠ s.build.cursor) (term : Terminator) :
    s.Turns term l ((t.terminated term).moved l) := by
  have ht := h.isOpen hs
  have hblank := (ht.works_terminated term).isBlank hl (hl.lt ht.count) (h.cursor ▸ hne)
  have hcount := (ht.works_terminated term).count
  refine ⟨?_, hblank.isOpen_moved hcount, hblank.moved l, cursor_moved _ l, h.temps, h.strings,
    fun {finished} hfinished => ?_⟩
  · refine (h.works.trans (ht.works_terminated term) (.inl h.cursor)).trans
      (works_moved hcount l) (.inl ?_)
    rw [cursor_terminated, h.cursor]
  · obtain ⟨b, hb, hopen⟩ := hs.here
    refine ends_of_terminated hb ?_ hopen hfinished
    rw [← h.cursor, moved, build_edited]
    refine getElem?_terminated ?_ term
    rw [h.cursor, h.here, hb]

/-- An emission that ends its block and then adds one `Turns` to the new one. -/
theorem IsOpen.turns_leave (hs : s.IsOpen) (term : Terminator) (name : String) :
    s.Turns term s.draft.blocks (((s.terminated term).withBlock name).moved s.draft.blocks) := by
  have hended := hs.works_terminated term
  have hadded := works_withBlock hended.count name
  have hblank : ((s.terminated term).withBlock name).IsBlank s.draft.blocks :=
    isBlank_withBlock hended.count name
  have hcursor : ((s.terminated term).withBlock name).build.cursor = s.build.cursor := by
    rw [build_withBlock]
    exact cursor_terminated s term
  refine ⟨?_, hblank.isOpen_moved hadded.count, hblank.moved _, cursor_moved _ _, rfl, rfl,
    fun {finished} hfinished => ?_⟩
  · exact (hended.trans hadded (.inl (cursor_terminated s term))).trans
      (works_moved hadded.count _) (.inl hcursor)
  · obtain ⟨b, hb, hopen⟩ := hs.here
    exact ends_of_terminated hb (getElem?_terminated hb term) hopen
      ((hadded.precede.trans (works_moved hadded.count _).precede).trans hfinished)

/-- What a statement does: it `Works` on the current block and on new ones, and goes on in one of
them. -/
structure Weaves (s t : Emission) : Prop where
  works : s.Works t
  isOpen : t.IsOpen
  cursor : t.build.cursor = s.build.cursor ∨ s.draft.blocks ≤ t.build.cursor

/-- `Weaves` composes: code is emitted from an open block to an open block. -/
theorem Weaves.trans (h : s.Weaves t) (h' : t.Weaves u) : s.Weaves u := by
  refine ⟨h.works.trans h'.works h.cursor, h'.isOpen, ?_⟩
  have hsize := h.works.size
  rcases h'.cursor with heq | hle
  · rw [heq]
    exact h.cursor
  · exact .inr (hsize.trans hle)

theorem IsOpen.weaves_adds (hs : s.IsOpen) {code : List Instr} (h : s.Adds code t) : s.Weaves t :=
  ⟨hs.works_adds h, hs.adds h, .inl h.build_eq.1⟩

theorem Weaves.refl (hs : s.IsOpen) : s.Weaves s :=
  ⟨(Prepares.refl hs).works, hs, .inl rfl⟩

/-- An emission that `Weaves` goes on to do so when it turns to a block that is new. -/
theorem Weaves.turns (h : s.Weaves t) {term : Terminator} (h' : t.Turns term l u)
    (hl : s.draft.blocks ≤ l) : s.Weaves u :=
  ⟨h.works.trans h'.works h.cursor, h'.isOpen, .inr (h'.cursor ▸ hl)⟩

/-- A block that `IsBlank`, other than the current one, in which the emission will go on. -/
structure Awaits (s : Emission) (label : Nat) : Prop where
  isBlank : s.IsBlank label
  ne : label ≠ s.build.cursor

namespace Awaits

/-- A block that is awaited stays so while the emission `Prepares` others. -/
theorem prepares (h : s.Awaits l) (hs : s.IsOpen) (hprepares : s.Prepares t) : t.Awaits l :=
  ⟨hprepares.isBlank hs h.isBlank, hprepares.cursor ▸ h.ne⟩

/-- A block that is awaited stays so while the emission `Weaves`. -/
theorem weaves (h : s.Awaits l) (hs : s.IsOpen) (hweaves : s.Weaves t) : t.Awaits l := by
  have hlt := h.isBlank.lt hs.count
  refine ⟨hweaves.works.isBlank h.isBlank hlt h.ne, ?_⟩
  have hne := h.ne
  rcases hweaves.cursor with heq | hle
  · omega
  · omega

/-- A block that an emission `Awaits` is still awaited after it has gone on in another block. -/
theorem turned (h : s.Awaits l) (hs : s.IsOpen) {label : Nat} (hne : l ≠ label)
    (term : Terminator) : ((s.terminated term).moved label).Awaits l :=
  ⟨h.isBlank.turned hs h.ne term label, by rw [cursor_moved]; exact hne⟩

/-- An emission can end its block and turn to one that it `Awaits`. -/
theorem turns (h : s.Awaits l) (hs : s.IsOpen) (term : Terminator) :
    s.Turns term l ((s.terminated term).moved l) :=
  (Prepares.refl hs).turns hs h.isBlank h.ne term

end Awaits

theorem IsOpen.awaits_withBlock (hs : s.IsOpen) (name : String) :
    (s.withBlock name).Awaits s.draft.blocks := by
  refine ⟨isBlank_withBlock hs.count name, ?_⟩
  rw [(hs.prepares_withBlock name).cursor]
  exact hs.cursor_lt.ne'

/-- The emission with more blocks, by `withBlock` for each name. -/
def withBlocks (s : Emission) (names : List String) : Emission :=
  names.foldl withBlock s

/-- `withBlocks` prepares blocks, each of which is awaited. -/
theorem IsOpen.withBlocks (hs : s.IsOpen) (names : List String) :
    s.Prepares (s.withBlocks names)
      ∧ ∀ i < names.length, (s.withBlocks names).Awaits (s.draft.blocks + i) := by
  induction names generalizing s with
  | nil => exact ⟨.refl hs, fun i hi => absurd hi (Nat.not_lt_zero i)⟩
  | cons name rest ih =>
    have hfirst := hs.prepares_withBlock name
    have hopen := hfirst.isOpen hs
    obtain ⟨hprepares, hawaits⟩ := ih hopen
    refine ⟨hfirst.trans hprepares, fun i hi => ?_⟩
    cases i with
    | zero => exact (hs.awaits_withBlock name).prepares hopen hprepares
    | succ i =>
      have hlater := hawaits i (Nat.lt_of_succ_lt_succ hi)
      rwa [show (s.withBlock name).draft.blocks + i = s.draft.blocks + (i + 1) from
        Nat.succ_add_eq_add_succ _ _] at hlater

/-- Blocks are added by `withBlocks`, and the emission goes on in the first of them; the others are
awaited. -/
theorem IsOpen.enters (hs : s.IsOpen) (names : List String) (hnames : 0 < names.length) :
    s.Turns (.jump s.draft.blocks) s.draft.blocks
        (((s.withBlocks names).terminated (.jump s.draft.blocks)).moved s.draft.blocks)
      ∧ ∀ i, 0 < i → i < names.length →
        (((s.withBlocks names).terminated (.jump s.draft.blocks)).moved s.draft.blocks).Awaits
          (s.draft.blocks + i) := by
  obtain ⟨hprepares, hawaits⟩ := hs.withBlocks names
  have hfirst := hawaits 0 hnames
  refine ⟨hprepares.turns hs hfirst.isBlank (hprepares.cursor ▸ hfirst.ne) _, fun i hi hlt => ?_⟩
  exact (hawaits i hlt).turned (hprepares.isOpen hs) (by omega) _

end Emission

end Oberon
