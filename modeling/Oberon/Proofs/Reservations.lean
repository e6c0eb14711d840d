import Oberon.Proofs.Confinement

/-!
# Memory that is reserved

Whatever the program, memory is used as a stack: first come the strings, then the globals, then the
cells of the calls that are under way, those of a call behind all that there was when it was made.
New memory is taken at the end, and a call that returns gives back what it took. So what is reserved
lies apart from all that is in use, and a call leaves memory in the size that it found.

The cells in use are told by how a run came to where it is: a call has reserved them, and has not
returned since (`HasCell`).
-/

namespace Oberon

open Code Machine Relation

/-- A string constant as a value: its bytes, and a zero. -/
def Code.StringConstant.ty (c : StringConstant) : Ty :=
  .array (c.bytes.length + 1) (.int 8)

/-- The strings and globals of a program, in the order in which they are loaded. -/
def Code.Program.entries (p : Program) : List (String × Ty) :=
  p.strings.map (fun c => (c.name, c.ty)) ++ p.globals.map (fun g => (g.name, g.ty))

namespace Machine

/-! ## Input and output -/

/-- A world that can come after another: output was only added, and words were only taken from the
front of the input. -/
structure World.Precedes (w w' : World) : Prop where
  output : w.output.data.toList <+: w'.output.data.toList
  input : w'.input <:+ w.input

theorem World.Precedes.refl (w : World) : w.Precedes w :=
  ⟨List.prefix_rfl, List.suffix_rfl⟩

/-- `World.Precedes` composes. -/
theorem World.Precedes.trans {w w' w'' : World} (h : w.Precedes w') (h' : w'.Precedes w'') :
    w.Precedes w'' :=
  ⟨h.output.trans h'.output, h'.input.trans h.input⟩

/-- `readOne` takes one word of the input at most, and prints nothing. -/
theorem readOne_precedes {w : World} {assigned : Nat} {conversion : Option UInt8}
    {argument : Option Scalar} {reading : Reading}
    (h : readOne w assigned conversion argument = .ok reading) : w.Precedes reading.world := by
  unfold readOne at h
  split at h
  · cases hinput : w.input with
    | nil =>
      rw [hinput] at h
      obtain rfl := Except.ok.inj h
      exact .refl w
    | cons word input =>
      have hsuffix : input <:+ w.input := hinput ▸ List.suffix_cons word input
      rw [hinput] at h
      dsimp only at h
      split at h
      · obtain rfl := Except.ok.inj h
        exact ⟨List.prefix_rfl, hsuffix⟩
      · obtain ⟨m, -, h⟩ := Except.bind_eq_ok.mp h
        obtain rfl := Except.ok.inj h
        exact ⟨List.prefix_rfl, hsuffix⟩
  · cases h

/-- `Reads` takes words from the front of the input, and prints nothing. -/
theorem Reads.precedes {arguments : List Scalar} {w w' : World} (h : Reads arguments w w') :
    w.Precedes w' := by
  induction h with
  | done => exact .refl _
  | next h _ ih => exact (readOne_precedes h).trans ih

theorem prefix_foldl_push (bytes : List UInt8) (output : ByteArray) :
    output.data.toList <+: (bytes.foldl ByteArray.push output).data.toList := by
  induction bytes generalizing output with
  | nil => exact List.prefix_rfl
  | cons b rest ih =>
    have hpush : output.data.toList <+: (output.push b).data.toList := by simp
    exact hpush.trans (ih (output.push b))

/-- A `primitive` prints at the end, reads from the front, and leaves memory in its size. -/
theorem primitive_world {w w' : World} {name : String} {xs : List Scalar} {x : Scalar}
    (h : primitive w name xs = .ok (x, w')) :
    w.Precedes w' ∧ w'.memory.size = w.memory.size := by
  unfold primitive at h
  split at h
  · obtain ⟨text, -, h⟩ := Except.bind_eq_ok.mp h
    split at h
    · obtain ⟨printed, -, h⟩ := Except.bind_eq_ok.mp h
      obtain ⟨-, rfl⟩ := Prod.mk.inj (Except.ok.inj h)
      -- printing only appends
      refine ⟨⟨?_, List.suffix_rfl⟩, rfl⟩
      rw [ByteArray.toList_data_append]
      exact List.prefix_append _ _
    · split at h
      · obtain ⟨⟨result, w₁⟩, hread, h⟩ := Except.bind_eq_ok.mp h
        obtain ⟨-, rfl⟩ := Prod.mk.inj (Except.ok.inj h)
        have hreads := reads_of_readFormat hread
        exact ⟨hreads.precedes, hreads.same.1⟩
      · split at h
        · obtain ⟨-, rfl⟩ := Prod.mk.inj (Except.ok.inj h)
          refine ⟨⟨?_, List.suffix_rfl⟩, rfl⟩
          have hpush := prefix_foldl_push text w.output
          simp only [ByteArray.data_push, Array.toList_push]
          exact hpush.trans (List.prefix_append _ _)
        · cases h
  · cases h

/-! ## Reserving memory -/

/-- What a value of type `ty` gets when it is put at `address`: memory `n` in which `m` has grown by
zeros, aligned and within the limits, and apart from the objects in use. -/
structure Memory.Reserves (inUse : Object → Prop) (m : Memory) (ty : Ty) (address : Nat)
    (n : Memory) : Prop where
  aligned : 8 ∣ address
  null_le : nullPage ≤ address
  sized : ty.size? = some ty.width
  zero : ∀ i, address ≤ i → i < address + ty.width → n.get i = 0
  inside : address + ty.width ≤ n.size
  size_le : n.size ≤ maxMemory
  apart : ∀ o, inUse o → o.Apart ⟨address, ty⟩
  grows : m.size ≤ n.size
  kept : ∀ i < m.size, n.get i = m.get i

/-- An attempt to `allocate` memory for a value `Reserves` memory for it, or there is none left. -/
def Memory.Allocates (inUse : Object → Prop) (m : Memory) (ty : Ty) : Prop :=
  match m.allocate ty with
  | .ok (address, n) => m.Reserves inUse ty address n
  | .error e => e = .outOfMemory maxMemory

/-- New memory lies behind all that was there, as `Memory.Allocates` wants. -/
theorem Memory.allocates {m : Memory} {inUse : Object → Prop} (hnull : nullPage ≤ m.size)
    (hbounds : ∀ o, inUse o → o.finish ≤ m.size) (ty : Ty) : m.Allocates inUse ty := by
  unfold Memory.Allocates
  split
  · rename_i address n hallocate
    obtain ⟨hsized, haddress, rfl, hmax⟩ := Memory.allocate_eq hallocate
    have hbehind : m.size ≤ address := by omega
    have hsize : (m.extend (address + max ty.width 1)).size = address + max ty.width 1 := by
      show max m.size _ = _
      omega
    constructor
    case aligned => exact ⟨(m.size + 7) / 8, by omega⟩
    case null_le => omega
    case sized => exact hsized
    case zero =>
      intro i hi _
      rw [Memory.get_extend]
      exact m.get_of_size_le (by omega)
    case inside =>
      rw [hsize]
      omega
    case size_le =>
      rw [hsize]
      exact hmax
    case apart =>
      intro o ho
      have hfinish := hbounds o ho
      left
      show o.finish ≤ address
      omega
    case grows =>
      rw [hsize]
      omega
    case kept =>
      intro i _
      exact Memory.get_extend ..
  · exact Memory.allocate_error ‹_›

/-! ## Strings and globals -/

/-- Symbols of types, and the addresses that they have, put together. -/
def objectsOf (symbols : List (String × Nat)) (entries : List (String × Ty)) : List Object :=
  List.zipWith (fun symbol entry => ⟨symbol.2, entry.2⟩) symbols entries

/-- The `entries` of a program in memory, the last one first. -/
def Image.objects (image : Image) : List Object :=
  objectsOf image.symbols image.program.entries.reverse

/-- Memory in which `entries` have been loaded, the last one first. -/
structure Loaded (entries : List (String × Ty)) (m : Memory) (symbols : List (String × Nat)) :
    Prop where
  names : symbols.map Prod.fst = entries.map Prod.fst
  null_le : nullPage ≤ m.size
  bounds : ∀ o ∈ objectsOf symbols entries, o.finish ≤ m.size

section

variable {entries : List (String × Ty)} {m n : Memory} {symbols symbols' : List (String × Nat)}

theorem Loaded.cons (h : Loaded entries m symbols) (name : String) {ty : Ty} {address : Nat}
    (hsize : m.size ≤ n.size) (hfinish : address + ty.width ≤ n.size) :
    Loaded ((name, ty) :: entries) n ((name, address) :: symbols) := by
  refine ⟨congrArg (name :: ·) h.names, h.null_le.trans hsize, ?_⟩
  exact List.forall_mem_cons.mpr ⟨hfinish, fun o ho => (h.bounds o ho).trans hsize⟩

/-- `loadStrings` puts each string constant in memory of its own. -/
theorem loadStrings_loaded (strings : List StringConstant) (h : Loaded entries m symbols) :
    Loaded ((strings.map fun c => (c.name, c.ty)).reverse ++ entries)
      (loadStrings strings (m, symbols)).1 (loadStrings strings (m, symbols)).2 := by
  induction strings generalizing entries m symbols with
  | nil => exact h
  | cons c rest ih =>
    rw [loadStrings, List.map_cons, List.reverse_cons, List.append_assoc]
    have hsize : ((m.extend (m.size + c.bytes.length + 1)).setAll m.size c.bytes).size
        = m.size + c.bytes.length + 1 := by
      rw [Memory.size_setAll]
      show max m.size _ = _
      omega
    have hwidth : c.ty.width = c.bytes.length + 1 := Nat.mul_one _
    exact ih (h.cons c.name (by omega) (by omega))

/-- `loadGlobals` puts each global in memory of its own. -/
theorem loadGlobals_loaded {globals : List Global} (h : Loaded entries m symbols)
    (hload : loadGlobals globals (m, symbols) = .ok (n, symbols')) :
    Loaded ((globals.map fun g => (g.name, g.ty)).reverse ++ entries) n symbols' := by
  induction globals generalizing entries m symbols with
  | nil =>
    obtain ⟨rfl, rfl⟩ := Prod.mk.inj (Except.ok.inj hload)
    exact h
  | cons g rest ih =>
    rw [loadGlobals] at hload
    obtain ⟨⟨address, m₁⟩, hallocate, hload⟩ := Except.bind_eq_ok.mp hload
    obtain ⟨-, haddress, rfl, -⟩ := Memory.allocate_eq hallocate
    rw [List.map_cons, List.reverse_cons, List.append_assoc]
    have hsize : (m.extend (address + max g.ty.width 1)).size = max m.size _ := rfl
    exact ih (h.cons g.name (by omega) (by omega)) hload

/-- `loadGlobals` goes through its globals in order. -/
theorem loadGlobals_append {before : List Global} {loaded : Memory × List (String × Nat)}
    (h : loadGlobals before loaded = .ok (m, symbols)) (after : List Global) :
    loadGlobals (before ++ after) loaded = loadGlobals after (m, symbols) := by
  induction before generalizing loaded with
  | nil =>
    obtain rfl := Except.ok.inj h
    rfl
  | cons g rest ih =>
    rw [loadGlobals] at h
    obtain ⟨⟨address, m₁⟩, hallocate, h⟩ := Except.bind_eq_ok.mp h
    rw [List.cons_append, loadGlobals, hallocate]
    exact ih h

/-- In `load` the last global is reserved in the memory that those before it left. -/
theorem allocate_of_load {p : Program} {before : List Global} {g : Global} {image image' : Image}
    (h : load { p with globals := before } = .ok (image, m))
    (h' : load { p with globals := before ++ [g] } = .ok (image', n)) :
    ∃ address, m.allocate g.ty = .ok (address, n)
      ∧ image'.symbols = (g.name, address) :: image.symbols := by
  obtain ⟨⟨m₁, symbols⟩, hbefore, hpure⟩ := Except.bind_eq_ok.mp h
  obtain ⟨rfl, rfl⟩ := Prod.mk.inj (Except.ok.inj hpure)
  obtain ⟨⟨n₁, symbols'⟩, hglobals, hpure⟩ := Except.bind_eq_ok.mp h'
  obtain ⟨rfl, rfl⟩ := Prod.mk.inj (Except.ok.inj hpure)
  rw [loadGlobals_append hbefore, loadGlobals] at hglobals
  obtain ⟨⟨address, m₂⟩, hallocate, hglobals⟩ := Except.bind_eq_ok.mp hglobals
  obtain ⟨rfl, rfl⟩ := Prod.mk.inj (Except.ok.inj hglobals)
  exact ⟨address, hallocate, rfl⟩

/-- `load` makes an image in which every symbol has its memory. -/
theorem load_loaded {p : Program} {image : Image} (h : load p = .ok (image, m)) :
    Loaded p.entries.reverse m image.symbols := by
  obtain ⟨⟨n, symbols⟩, hglobals, hpure⟩ := Except.bind_eq_ok.mp h
  obtain ⟨rfl, rfl⟩ := Prod.mk.inj (Except.ok.inj hpure)
  have hempty : Loaded [] .initial [] := ⟨rfl, Nat.le_refl _, List.forall_mem_nil _⟩
  have hloaded := loadGlobals_loaded (loadStrings_loaded p.strings hempty) hglobals
  rwa [List.append_nil, ← List.reverse_append] at hloaded

end

/-! ## Calls under way -/

/-- Calls under way, the innermost first: a call that took memory from `base` on, for which `outer`
wait, and calls inside of it, which took memory from `finish` on. -/
inductive FramesInside (outer : List Frame) (base finish : Nat) : List Frame → Prop
  | owner {f : Frame} (hbase : f.base = base) : FramesInside outer base finish (f :: outer)
  | inner {f : Frame} {frames : List Frame} (hbase : finish ≤ f.base)
    (hframes : FramesInside outer base finish frames) : FramesInside outer base finish (f :: frames)

/-- A state inside of a call, with the memory up to `finish` in use. -/
structure State.Inside (outer : List Frame) (base finish : Nat) (s : State) : Prop where
  frames : FramesInside outer base finish (s.frame :: s.callers)
  size : finish ≤ s.world.memory.size

section

variable {outer : List Frame} {base finish : Nat} {f f' : Frame} {frames : List Frame}
  {image : Image} {s t : State}

/-- `FramesInside` stays true while the innermost call goes on. -/
theorem FramesInside.next (h : FramesInside outer base finish (f :: frames))
    (hbase : f'.base = f.base) : FramesInside outer base finish (f' :: frames) := by
  cases h with
  | owner h => exact .owner (hbase.trans h)
  | inner h hframes => exact .inner (hbase ▸ h) hframes

/-- There is a call more than those outside, by `FramesInside`. -/
theorem FramesInside.length_lt (h : FramesInside outer base finish frames) :
    outer.length < frames.length := by
  induction h with
  | owner h => exact Nat.lt_succ_self _
  | inner h hframes ih => exact Nat.lt_succ_of_lt ih

/-- Where no other calls wait, the innermost of `FramesInside` is the call itself. -/
theorem FramesInside.eq_owner (h : FramesInside outer base finish (f :: frames))
    (hlength : frames.length = outer.length) : f.base = base ∧ frames = outer := by
  cases h with
  | owner h => exact ⟨h, rfl⟩
  | inner h hframes =>
    have hlt := hframes.length_lt
    omega

theorem Frame.base_jump {label : Nat} (h : f.jump label = .ok f') : f'.base = f.base := by
  unfold Frame.jump at h
  split at h
  · obtain rfl := Except.ok.inj h
    rfl
  · cases h

/-- `Image.execute` of an instruction that is no call takes memory at most. -/
theorem Image.execute_world {i : Instr} (h : image.execute s i = .ok t)
    (hcall : ∀ out target result arguments, i ≠ .call out target result arguments) :
    s.world.Precedes t.world ∧ s.world.memory.size ≤ t.world.memory.size
      ∧ t.frame.base = s.frame.base ∧ t.callers = s.callers := by
  obtain ⟨w, x, rfl, hw⟩ := Image.execute_eq h hcall
  refine and_assoc.mp ⟨?_, Frame.base_set? .., rfl⟩
  -- what defines a value leaves the world alone; the others change memory only
  have hsame (hw : w = s.world) : s.world.Precedes w ∧ s.world.memory.size ≤ w.memory.size := by
    rw [hw]
    exact ⟨.refl _, Nat.le_refl _⟩
  have hmemory {m : Memory} (hsize : s.world.memory.size ≤ m.size)
      (hw : { s.world with memory := m } = w) :
      s.world.Precedes w ∧ s.world.memory.size ≤ w.memory.size := by
    subst hw
    exact ⟨⟨List.prefix_rfl, List.suffix_rfl⟩, hsize⟩
  cases i with
  | alloca out ty =>
    obtain ⟨⟨address, m⟩, hallocate, h⟩ := Except.bind_eq_ok.mp h
    obtain ⟨-, -, rfl, -⟩ := Memory.allocate_eq hallocate
    exact hmemory (Nat.le_max_left ..) (congrArg State.world (Except.ok.inj h))
  | element out base address indices =>
    obtain ⟨_, -, h⟩ := Except.bind_eq_ok.mp h
    obtain ⟨_, -, h⟩ := Except.bind_eq_ok.mp h
    obtain ⟨_, -, h⟩ := Except.bind_eq_ok.mp h
    exact hsame (congrArg State.world (Except.ok.inj h)).symm
  | store value address =>
    obtain ⟨_, -, h⟩ := Except.bind_eq_ok.mp h
    obtain ⟨_, -, h⟩ := Except.bind_eq_ok.mp h
    obtain ⟨m, hwrite, h⟩ := Except.bind_eq_ok.mp h
    exact hmemory (Memory.get_of_write hwrite).1.ge (congrArg State.world (Except.ok.inj h))
  | copy destination source bytes =>
    obtain ⟨_, -, h⟩ := Except.bind_eq_ok.mp h
    obtain ⟨_, -, h⟩ := Except.bind_eq_ok.mp h
    obtain ⟨m, hcopy, h⟩ := Except.bind_eq_ok.mp h
    exact hmemory (Memory.get_of_copy hcopy).1.ge (congrArg State.world (Except.ok.inj h))
  | call out target result arguments => exact absurd rfl (hcall out target result arguments)
  | load out ty address => exact hsame (hw out ty rfl)
  | binary out op lhs rhs => exact hsame (hw out _ rfl)
  | fneg out value => exact hsame (hw out _ rfl)
  | icmp out predicate lhs rhs => exact hsame (hw out _ rfl)
  | fcmp out predicate lhs rhs => exact hsame (hw out _ rfl)
  | cast out op value into => exact hsame (hw out into rfl)

/-- Along `Image.Moves` output is only added and input is only taken. -/
theorem Image.Moves.precedes (h : image.Moves s t) : s.world.Precedes t.world := by
  cases h.advance with
  | executes hrest hcall hexec => exact (Image.execute_world hexec hcall).1
  | answers hrest hfound hbody hxs hx => exact (primitive_world hx).1
  | enters hrest hfound hbody hxs henter => exact .refl _
  | jumps hjump => exact .refl _
  | returns hrest hterm hresult hcallers hx => exact ⟨List.prefix_rfl, List.suffix_rfl⟩

/-- Whatever a run does, the world that `Precedes` its start precedes its end. -/
theorem World.Precedes.of_moves {w : World} (h : w.Precedes s.world)
    (hmoves : ReflTransGen image.Moves s t) : w.Precedes t.world := by
  induction hmoves with
  | refl => exact h
  | tail _ hmove ih => exact ih.trans hmove.precedes

/-- A step that does not return from the call for which `depth` calls wait. -/
def Image.MovesWithin (image : Image) (depth : Nat) (s t : State) : Prop :=
  image.Moves s t ∧ depth ≤ t.callers.length

theorem Image.moves_of_within {depth : Nat} (h : ReflTransGen (image.MovesWithin depth) s t) :
    ReflTransGen image.Moves s t :=
  h.lift id fun _ _ hstep => hstep.1

/-- `State.Inside` is kept while a call is not left: the memory that was in use stays, and what is
given back is what a call inside of it took. -/
theorem State.Inside.moves (h : s.Inside outer base finish)
    (hmoves : image.MovesWithin outer.length s t) : t.Inside outer base finish := by
  obtain ⟨hmoves, hdepth⟩ := hmoves
  have hsize := h.size
  cases hmoves.advance with
  | executes hrest hcall hexec =>
    obtain ⟨-, hgrows, hbase, hcallers⟩ := Image.execute_world hexec hcall
    refine ⟨?_, hsize.trans hgrows⟩
    rw [hcallers]
    exact h.frames.next hbase
  | answers hrest hfound hbody hxs hx =>
    refine ⟨h.frames.next (Frame.base_set? ..), ?_⟩
    rw [(primitive_world hx).2]
    exact hsize
  | enters hrest hfound hbody hxs henter =>
    refine ⟨.inner ?_ (h.frames.next rfl), hsize⟩
    rw [(Frame.enter_ok henter).1]
    exact hsize
  | jumps hjump => exact ⟨h.frames.next (Frame.base_jump hjump), hsize⟩
  | returns hrest hterm hresult hcallers hx =>
    have hframes := h.frames
    rw [hcallers] at hframes
    cases hframes with
    -- the call itself may not return: one call less would wait
    | owner hbase => exact absurd hdepth (Nat.not_succ_le_self _)
    -- a call inside returns, and gives back memory behind what was in use
    | inner hbase hframes => exact ⟨hframes.next (Frame.base_set? ..), le_min hsize hbase⟩

/-- `State.Inside` is kept by a run that does not leave the call. -/
theorem State.Inside.of_moves (h : s.Inside outer base finish)
    (hmoves : ReflTransGen (image.MovesWithin outer.length) s t) : t.Inside outer base finish := by
  induction hmoves with
  | refl => exact h
  | tail _ hmove ih => exact ih.moves hmove

/-- A call that returns gives back what was taken since, as `State.Inside` has it. -/
theorem State.Inside.left (h : s.Inside outer base base)
    (hlength : s.callers.length = outer.length) :
    s.left.memory.size = base ∧ s.callers = outer := by
  obtain ⟨hbase, hcallers⟩ := h.frames.eq_owner hlength
  refine ⟨?_, hcallers⟩
  show min s.world.memory.size s.frame.base = base
  rw [hbase]
  exact Nat.min_eq_right h.size

end

/-! ## What is in use -/

section

variable {p : Program} {input : String} {image : Image} {m : Memory} {s t : State}

/-- A cell that a call has reserved on the way to state `t`, and that has not returned since. -/
def HasCell (p : Program) (input : String) (image : Image) (t : State) (o : Object) : Prop :=
  ∃ s next out rest n, Reaches p input image s ∧ s.frame.rest = .alloca out o.ty :: rest
    ∧ s.world.memory.allocate o.ty = .ok (o.address, n) ∧ image.Moves s next
    ∧ ReflTransGen (image.MovesWithin s.callers.length) next t

/-- The objects of a run: strings and globals, `Image.objects`, and the cells of the calls under
way. -/
def InUse (p : Program) (input : String) (image : Image) (t : State) (o : Object) : Prop :=
  o ∈ image.objects ∨ HasCell p input image t o

/-- The call that comes next in state `s` returns: with the world that it leaves, and the frames
that go on then. -/
inductive Image.Finishes (image : Image) (s : State) : World → List Frame → Prop
  /-- A call of a function that the machine provides. -/
  | provided {out : Option Nat} {target : String} {result : Ty} {arguments : List Value}
    {rest : List Instr} {g : Function} {xs : List Scalar} {x : Scalar} {w : World}
    (hrest : s.frame.rest = .call out target result arguments :: rest)
    (hfound : image.program.function? target = some g) (hbody : g.body = .external)
    (hxs : image.values s.frame arguments = .ok xs)
    (hx : primitive s.world g.name xs = .ok (x, w)) :
    Finishes image s w ({ s.frame with rest } :: s.callers)
  /-- A call of a function that got a frame in state `first`, and comes to a return in state
  `last`. -/
  | procedure {first last : State} {value : Option Value} {result : Option Scalar}
    (hcall : image.Moves s first) (hdeeper : first.callers.length = s.callers.length + 1)
    (hmoves : ReflTransGen (image.MovesWithin first.callers.length) first last)
    (hdepth : last.callers.length = first.callers.length) (hrest : last.frame.rest = [])
    (hterm : last.frame.block.terminator = some (.ret value))
    (hresult : image.result last.frame value = .ok result) :
    Finishes image s last.left last.callers

/-- `start` makes one frame, whose memory begins where that of the program ends. -/
theorem start_running {w : World} (h : start p w = .ok (.running s)) :
    s.world = w ∧ s.callers = [] ∧ s.frame.base = w.memory.size := by
  obtain ⟨g, -, ⟨-, x, w', -, hprogress⟩ | ⟨blocks, f, -, henter, hprogress⟩⟩ := start_ok h
  · cases hprogress
  · obtain rfl := Progress.running.inj hprogress
    exact ⟨rfl, rfl, (Frame.enter_ok henter).1⟩

theorem start_halted {w w' : World} {result : Option Scalar}
    (h : start p w = .ok (.halted result w')) :
    w.Precedes w' ∧ w'.memory.size = w.memory.size := by
  obtain ⟨g, -, ⟨-, x, w₁, hx, hprogress⟩ | ⟨blocks, f, -, -, hprogress⟩⟩ := start_ok h
  · obtain ⟨-, rfl⟩ := Progress.halted.inj hprogress
    exact primitive_world hx
  · cases hprogress

/-- Every state that a run `Reaches` is inside of the entry call. -/
theorem inside_of_reaches (hload : load p = .ok (image, m)) (h : Reaches p input image s) :
    s.Inside [] m.size m.size
      ∧ ({ memory := m, input := Text.words input } : World).Precedes s.world := by
  obtain ⟨m', first, hload', hstart, hmoves⟩ := h
  -- a program is loaded in one way only
  obtain ⟨-, rfl⟩ := Prod.mk.inj (Except.ok.inj (hload.symm.trans hload'))
  obtain ⟨hworld, hcallers, hbase⟩ := start_running hstart
  have hfirst : first.Inside [] m.size m.size := by
    refine ⟨?_, ?_⟩
    · rw [hcallers]
      exact .owner hbase
    · rw [hworld]
  refine ⟨hfirst.of_moves (hmoves.lift id fun _ _ hmove => ⟨hmove, Nat.zero_le _⟩), ?_⟩
  refine World.Precedes.of_moves ?_ hmoves
  rw [hworld]
  exact .refl _

/-- An `alloca` makes memory grow by what its cell takes. -/
theorem Image.Moves.inside_of_alloca {out : Nat} {ty : Ty} {rest : List Instr} {address : Nat}
    {n : Memory} (h : image.Moves s t) (hrest : s.frame.rest = .alloca out ty :: rest)
    (hallocate : s.world.memory.allocate ty = .ok (address, n)) :
    t.Inside s.callers s.frame.base (Object.finish ⟨address, ty⟩) := by
  unfold Image.Moves Image.step at h
  rw [hrest] at h
  obtain ⟨u, hexec, h⟩ := Except.bind_eq_ok.mp h
  obtain rfl := Progress.running.inj (Except.ok.inj h)
  obtain ⟨⟨address', n'⟩, hallocate', hexec⟩ := Except.bind_eq_ok.mp hexec
  obtain ⟨rfl, rfl⟩ := Prod.mk.inj (Except.ok.inj (hallocate.symm.trans hallocate'))
  obtain rfl := Except.ok.inj hexec
  obtain ⟨-, -, rfl, -⟩ := Memory.allocate_eq hallocate
  refine ⟨.owner rfl, ?_⟩
  show address + ty.width ≤ max s.world.memory.size (address + max ty.width 1)
  omega

/-- What is `InUse` lies in memory as a whole. -/
theorem InUse.finish_le {o : Object} (h : InUse p input image s o)
    (hload : load p = .ok (image, m)) (hs : Reaches p input image s) :
    o.finish ≤ s.world.memory.size := by
  rcases h with hloaded | ⟨u, next, out, rest, n, -, hrest, hallocate, hmoves, hwithin⟩
  · have hbounds := (load_loaded hload).bounds o
    rw [← load_program hload] at hbounds
    exact (hbounds hloaded).trans (inside_of_reaches hload hs).1.size
  · exact ((hmoves.inside_of_alloca hrest hallocate).of_moves hwithin).size

/-- A call that gets a frame is `Inside` of memory behind all that is there. -/
theorem Image.Moves.inside_of_deeper (h : image.Moves s t)
    (hdeeper : t.callers.length = s.callers.length + 1) :
    t.Inside ({ s.frame with rest := s.frame.rest.tail } :: s.callers) s.world.memory.size
      s.world.memory.size := by
  cases h.advance with
  | executes hrest hcall hexec =>
    obtain ⟨-, -, -, hcallers⟩ := Image.execute_world hexec hcall
    rw [hcallers] at hdeeper
    exact absurd hdeeper (Nat.ne_of_lt (Nat.lt_succ_self _))
  | answers hrest hfound hbody hxs hx =>
    exact absurd hdeeper (Nat.ne_of_lt (Nat.lt_succ_self _))
  | enters hrest hfound hbody hxs henter =>
    rw [hrest]
    exact ⟨.owner (Frame.enter_ok henter).1, Nat.le_refl _⟩
  | jumps hjump => exact absurd hdeeper (Nat.ne_of_lt (Nat.lt_succ_self _))
  | returns hrest hterm hresult hcallers hx =>
    rw [hcallers, List.length_cons] at hdeeper
    dsimp only at hdeeper
    omega

/-- A call that `Finishes` leaves memory in the size that it found, and the frames that were
there. -/
theorem Image.Finishes.restores {w : World} {frames : List Frame} (h : image.Finishes s w frames) :
    w.memory.size = s.world.memory.size
      ∧ frames = { s.frame with rest := s.frame.rest.tail } :: s.callers ∧ s.world.Precedes w := by
  cases h with
  | provided hrest hfound hbody hxs hx =>
    obtain ⟨hprecedes, hsize⟩ := primitive_world hx
    rw [hrest]
    exact ⟨hsize, rfl, hprecedes⟩
  | procedure hcall hdeeper hmoves hdepth hrest hterm hresult =>
    rename_i first last value result
    -- up to its return, the call stays inside of what it found
    have hfirst := hcall.inside_of_deeper hdeeper
    rw [hdeeper] at hmoves
    obtain ⟨hsize, hcallers⟩ := (hfirst.of_moves hmoves).left (hdepth.trans hdeeper)
    have hlast : s.world.Precedes last.world :=
      hcall.precedes.of_moves (Image.moves_of_within hmoves)
    exact ⟨hsize, hcallers, hlast.output, hlast.input⟩

/-- A run that ends in `halted` leaves memory as large as it was when the program was loaded. -/
theorem restores_of_halted {result : Option Scalar} {w : World} (hload : load p = .ok (image, m))
    (hs : Reaches p input image s) (h : image.step s = .ok (.halted result w)) :
    w.memory.size = m.size ∧ s.callers = []
      ∧ ({ memory := m, input := Text.words input } : World).Precedes w := by
  obtain ⟨-, hcallers, rfl, -⟩ := Image.step_halted h
  obtain ⟨hinside, hprecedes⟩ := inside_of_reaches hload hs
  exact ⟨(hinside.left (congrArg List.length hcallers)).1, hcallers, hprecedes.output,
    hprecedes.input⟩

end

end Machine

/-- Whatever the program, what is reserved is zero, aligned, within the limits and apart from all
that is in use: for a global, from the strings and the globals before it, and for a cell, also from
the cells of the calls under way. Bytes that were there stay; where there is no room left, the
attempt is an error, and no memory comes of it. A call that returns, be it of a function that the
machine provides, of a procedure, or of the entry function, leaves memory in the size that it found
and the frames that were there, has only added output, and has only taken words from the front of
the input. The symbols belong to the image, which no step changes. -/
theorem Code.Program.reserves_and_restores (p : Program) (input : String) :
    (∀ before g after image m, p.globals = before ++ g :: after →
        load { p with globals := before } = .ok (image, m) →
        m.Allocates (· ∈ image.objects) g.ty
          ∧ ∀ image' n, load { p with globals := before ++ [g] } = .ok (image', n) →
            ∃ address, m.allocate g.ty = .ok (address, n)
              ∧ image'.symbols = (g.name, address) :: image.symbols)
      ∧ ∀ image m, load p = .ok (image, m) →
        image.symbols.map Prod.fst = (p.entries.map Prod.fst).reverse
          ∧ (∀ s, Reaches p input image s →
            (∀ ty, s.world.memory.Allocates (InUse p input image s) ty)
              ∧ ∀ w frames, image.Finishes s w frames →
                w.memory.size = s.world.memory.size
                  ∧ frames = { s.frame with rest := s.frame.rest.tail } :: s.callers
                  ∧ s.world.Precedes w)
          ∧ (∀ result w,
            start p { memory := m, input := Text.words input } = .ok (.halted result w) →
            w.memory.size = m.size
              ∧ ({ memory := m, input := Text.words input } : World).Precedes w)
          ∧ ∀ s result w, Reaches p input image s → image.step s = .ok (.halted result w) →
            w.memory.size = m.size ∧ s.callers = []
              ∧ ({ memory := m, input := Text.words input } : World).Precedes w := by
  refine ⟨?_, fun image m hload => ⟨?_, fun s hs => ⟨?_, ?_⟩, ?_, ?_⟩⟩
  · intro before g after image m _ hload
    have hloaded := load_loaded hload
    rw [← load_program hload] at hloaded
    exact ⟨Memory.allocates hloaded.null_le hloaded.bounds g.ty,
      fun image' n hload' => allocate_of_load hload hload'⟩
  · rw [(load_loaded hload).names, List.map_reverse]
  · intro ty
    have hnull := (load_loaded hload).null_le.trans (inside_of_reaches hload hs).1.size
    exact Memory.allocates hnull (fun o ho => ho.finish_le hload hs) ty
  · intro w frames hfinishes
    exact hfinishes.restores
  · intro result w hstart
    exact (start_halted hstart).symm
  · intro s result w hs hhalted
    exact restores_of_halted hload hs hhalted

/-- A program whose entry has a cell, and calls a function that has another one. -/
def Code.Program.stacking : Program where
  name := "Stacking"
  target := "any"
  strings := [⟨"note", [0x6F]⟩]
  globals := [⟨"flag", .int 1⟩]
  functions :=
    [{ name := "fill", parameters := [], result := .void
       body := .blocks
        #[{ name := "first", instrs := [.alloca 0 (.array 3 (.int 8))]
            terminator := some (.ret none) }] },
     { name := entryName, parameters := [], result := .status
       body := .blocks
        #[{ name := "second", instrs := [.alloca 0 (.int 1), .call none "fill" .void []]
            terminator := some (.ret (some (.int 0 32))) }] }]

theorem Code.Program.reserves_and_restores_stacking :
    ∃ image m s t o address n w frames, load Program.stacking = .ok (image, m)
      ∧ Reaches Program.stacking "" image s ∧ HasCell Program.stacking "" image s o
      ∧ s.world.memory.allocate (.array 3 (.int 8)) = .ok (address, n)
      ∧ o.Apart ⟨address, .array 3 (.int 8)⟩ ∧ Reaches Program.stacking "" image t
      ∧ image.Finishes t w frames ∧ w.memory.size = t.world.memory.size := by
  have hrun : ((reach? Program.stacking "" 0).bind fun r => (running? (r.1.step r.2)).bind fun s₁ =>
      (running? (r.1.step s₁)).bind fun s₂ => (running? (r.1.step s₂)).map fun s₃ => decide
        (r.2.frame.rest = [.alloca 0 (.int 1), .call none "fill" .void []]
          ∧ (r.2.world.memory.allocate (.int 1)).toOption.map Prod.fst = some 32
          ∧ (s₂.world.memory.allocate (.array 3 (.int 8))).isOk = true
          ∧ [r.2, s₁, s₂, s₃].map (·.callers.length) = [0, 0, 1, 1] ∧ s₃.frame.rest = []
          ∧ s₃.frame.block.terminator = some (.ret none))) = some true := by
    decide +kernel
  obtain ⟨⟨image, s₀⟩, hreach, hrun⟩ := Option.bind_eq_some_iff.mp hrun
  obtain ⟨s₁, hs₁, hrun⟩ := Option.bind_eq_some_iff.mp hrun
  obtain ⟨s₂, hs₂, hrun⟩ := Option.bind_eq_some_iff.mp hrun
  obtain ⟨s₃, hs₃, hrun⟩ := Option.map_eq_some_iff.mp hrun
  obtain ⟨hrest, haddress, hok, hdepths, hrest₃, hterm⟩ := of_decide_eq_true hrun
  simp only [List.map_cons, List.map_nil, List.cons.injEq, and_true] at hdepths
  obtain ⟨hdepth₀, hdepth₁, hdepth₂, hdepth₃⟩ := hdepths
  have hmove₁ : image.Moves s₀ s₁ := running?_eq_some.mp hs₁
  have hmove₂ : image.Moves s₁ s₂ := running?_eq_some.mp hs₂
  have hmove₃ : image.Moves s₂ s₃ := running?_eq_some.mp hs₃
  have hreaches := reaches_of_reach? hreach
  obtain ⟨m, first, hload, hstart, hmoves⟩ := hreaches
  have hreaches₁ : Reaches Program.stacking "" image s₁ :=
    ⟨m, first, hload, hstart, hmoves.tail hmove₁⟩
  have hreaches₂ : Reaches Program.stacking "" image s₂ :=
    ⟨m, first, hload, hstart, (hmoves.tail hmove₁).tail hmove₂⟩
  obtain ⟨⟨_, n₀⟩, hallocate₀, rfl⟩ := Option.map_eq_some_iff.mp haddress
  have hcell : HasCell Program.stacking "" image s₂ ⟨32, .int 1⟩ :=
    ⟨s₀, s₁, 0, _, n₀, ⟨m, first, hload, hstart, hmoves⟩, hrest, eq_ok_of_toOption hallocate₀,
      hmove₁, .single ⟨hmove₂, by omega⟩⟩
  have hfinishes : image.Finishes s₁ s₃.left s₃.callers :=
    .procedure hmove₂ (by omega) (.single ⟨hmove₃, by omega⟩) (by omega) hrest₃ hterm rfl
  obtain ⟨-, hall⟩ := Program.reserves_and_restores Program.stacking ""
  obtain ⟨-, hreached, -⟩ := hall image m hload
  have hallocates := (hreached s₂ hreaches₂).1 (.array 3 (.int 8))
  obtain ⟨r, hallocate⟩ := Except.exists_of_isOk hok
  rw [Memory.Allocates, hallocate] at hallocates
  exact ⟨image, m, s₂, s₁, _, r.1, r.2, _, _, hload, hreaches₂, hcell, hallocate,
    hallocates.apart _ (.inr hcell), hreaches₁, hfinishes,
    ((hreached s₁ hreaches₁).2 _ _ hfinishes).1⟩

end Oberon
