import Oberon.Proofs.Names
import Oberon.Proofs.TypedRuns

/-!
# Loading programs

Loading puts the string constants of a program and then its globals into memory. What is loaded
is found by its name if names are different, the strings read as they are in the program, and
the globals are the first objects of a typed memory.
-/

namespace Oberon.Machine

open Code

/-! ## Symbols -/

/-- Where names are different, an entry is found by its name. -/
theorem lookup_of_mem {symbols : List (String × Nat)} (hnodup : (symbols.map Prod.fst).Nodup)
    {name : String} {address : Nat} (h : (name, address) ∈ symbols) :
    symbols.lookup name = some address := by
  obtain ⟨before, after, rfl⟩ := List.mem_iff_append.mp h
  refine List.lookup_eq_some_iff.mpr ⟨before, after, rfl, fun p hp => bne_iff_ne.mpr fun heq => ?_⟩
  rw [List.map_append, List.map_cons] at hnodup
  exact (List.nodup_append.mp hnodup).2.2 p.1 (List.mem_map_of_mem hp) name List.mem_cons_self
    heq.symm

/-! ## Strings -/

/-- The bytes that strings take up in memory. -/
def textSize (strings : List StringConstant) : Nat :=
  (strings.map fun c => c.bytes.length + 1).sum

/-- What `loadStrings` does to memory and symbols. -/
structure LoadsStrings (strings : List StringConstant) (m n : Memory)
    (symbols symbols' : List (String × Nat)) : Prop where
  size : n.size = m.size + textSize strings
  get : ∀ i < m.size, n.get i = m.get i
  names : symbols'.map Prod.fst = (strings.map (·.name)).reverse ++ symbols.map Prod.fst
  mono : symbols ⊆ symbols'
  text : ∀ c ∈ strings, ∃ address, (c.name, address) ∈ symbols' ∧ m.size ≤ address
    ∧ address + c.bytes.length < n.size ∧ n.HasText address c.bytes

theorem loadStrings_spec (strings : List StringConstant) (m : Memory)
    (symbols : List (String × Nat)) :
    LoadsStrings strings m (loadStrings strings (m, symbols)).1 symbols
      (loadStrings strings (m, symbols)).2 := by
  induction strings generalizing m symbols with
  | nil => exact ⟨rfl, fun _ _ => rfl, rfl, List.Subset.refl _, List.forall_mem_nil _⟩
  | cons c rest ih =>
    rw [loadStrings]
    set m₁ := (m.extend (m.size + c.bytes.length + 1)).setAll m.size c.bytes
    -- the text and the zero byte behind it, which is not written but is there
    have hsize : m₁.size = m.size + c.bytes.length + 1 := by
      rw [Memory.size_setAll]
      show max m.size _ = _
      omega
    have hold : ∀ i < m.size, m₁.get i = m.get i := fun i hi =>
      Memory.get_setAll_of_outside _ (.inl hi)
    have htext : m₁.HasText m.size c.bytes := by
      refine ⟨fun hb => Memory.get_setAll _ ?_ hb, ?_⟩
      · show _ ≤ max m.size _
        omega
      · rw [Memory.get_setAll_of_outside _ (.inr (Nat.le_refl _))]
        exact Memory.get_of_size_le m (by omega)
    have hrest := ih m₁ ((c.name, m.size) :: symbols)
    refine ⟨?_, ?_, ?_, fun s hs => hrest.mono (List.mem_cons_of_mem _ hs), ?_⟩
    · have hsplit : textSize (c :: rest) = c.bytes.length + 1 + textSize rest := by simp [textSize]
      rw [hrest.size, hsize, hsplit]
      omega
    · intro i hi
      rw [hrest.get i (by omega), hold i hi]
    · rw [hrest.names, List.map_cons, List.map_cons, List.reverse_cons, List.append_assoc]
      rfl
    · refine List.forall_mem_cons.mpr ⟨⟨m.size, hrest.mono List.mem_cons_self, Nat.le_refl _, ?_,
        htext.congr fun i hi => hrest.get i (by omega)⟩, fun d hd => ?_⟩
      · rw [hrest.size]
        omega
      · obtain ⟨address, hmem, hle, hlt, hd⟩ := hrest.text d hd
        exact ⟨address, hmem, by omega, hlt, hd⟩

/-! ## Globals -/

/-- The symbols after `loadGlobals`; each global has an entry. -/
theorem symbols_loadGlobals {globals : List Global} {m n : Memory}
    {symbols symbols' : List (String × Nat)}
    (h : loadGlobals globals (m, symbols) = .ok (n, symbols')) :
    symbols'.map Prod.fst = (globals.map (·.name)).reverse ++ symbols.map Prod.fst
      ∧ symbols ⊆ symbols' := by
  induction globals generalizing m symbols with
  | nil =>
    obtain ⟨rfl, rfl⟩ := Prod.mk.inj (Except.ok.inj h)
    exact ⟨rfl, List.Subset.refl _⟩
  | cons g rest ih =>
    rw [loadGlobals] at h
    obtain ⟨⟨address, m₁⟩, -, h⟩ := Except.bind_eq_ok.mp h
    obtain ⟨hnames, hsub⟩ := ih h
    refine ⟨?_, fun s hs => hsub (List.mem_cons_of_mem _ hs)⟩
    rw [hnames, List.map_cons, List.map_cons, List.reverse_cons, List.append_assoc]
    rfl

theorem Memory.allocate_error {m : Memory} {ty : Ty} {e : Fault}
    (h : m.allocate ty = .error e) : e = .outOfMemory maxMemory := by
  unfold Memory.allocate at h
  dsimp only at h
  split at h
  · exact (Except.error.inj h).symm
  · split at h
    · cases h
    · exact (Except.error.inj h).symm

theorem loadGlobals_error {globals : List Global} {m : Memory} {symbols : List (String × Nat)}
    {e : Fault} (h : loadGlobals globals (m, symbols) = .error e) : e = .outOfMemory maxMemory := by
  induction globals generalizing m symbols with
  | nil => cases h
  | cons g rest ih =>
    rw [loadGlobals] at h
    cases hallocate : m.allocate g.ty with
    | ok allocated =>
      rw [hallocate] at h
      exact ih h
    | error e' =>
      rw [hallocate] at h
      obtain rfl := Except.error.inj h
      exact Memory.allocate_error hallocate

/-- `Memory.allocate` takes the next multiple of eight, and memory ends behind the value. -/
theorem Memory.allocate_eq {m n : Memory} {ty : Ty} {address : Nat}
    (h : m.allocate ty = .ok (address, n)) :
    ty.size? = some ty.width ∧ address = (m.size + 7) / 8 * 8
      ∧ n = m.extend (address + max ty.width 1) ∧ address + max ty.width 1 ≤ maxMemory := by
  unfold Memory.allocate at h
  dsimp only at h
  cases hty : ty.size? with
  | none =>
    rw [hty] at h
    cases h
  | some bytes =>
    rw [hty] at h
    obtain rfl := Ty.eq_width_of_size? hty
    dsimp only at h
    split at h
    · obtain ⟨rfl, rfl⟩ := Prod.mk.inj (Except.ok.inj h)
      exact ⟨rfl, rfl, rfl, ‹_›⟩
    · cases h

theorem Memory.allocate_ok {m n : Memory} {ty : Ty} {address : Nat}
    (h : m.allocate ty = .ok (address, n)) :
    m.size ≤ address ∧ address + ty.width ≤ maxMemory ∧ m.size ≤ n.size
      ∧ ∀ i, n.get i = m.get i := by
  obtain ⟨-, haddress, rfl, hmax⟩ := Memory.allocate_eq h
  exact ⟨by omega, by omega, Nat.le_max_left _ _, fun _ => rfl⟩

theorem get_loadGlobals {globals : List Global} {m n : Memory}
    {symbols symbols' : List (String × Nat)}
    (h : loadGlobals globals (m, symbols) = .ok (n, symbols')) (i : Nat) : n.get i = m.get i := by
  induction globals generalizing m symbols with
  | nil =>
    obtain ⟨rfl, -⟩ := Prod.mk.inj (Except.ok.inj h)
    rfl
  | cons g rest ih =>
    rw [loadGlobals] at h
    obtain ⟨⟨address, m₁⟩, hallocate, h⟩ := Except.bind_eq_ok.mp h
    exact (ih h).trans ((Memory.allocate_ok hallocate).2.2.2 i)

/-- `loadGlobals` gives each global memory of its own behind what there was. -/
theorem mem_loadGlobals {globals : List Global} {m n : Memory}
    {symbols symbols' : List (String × Nat)}
    (h : loadGlobals globals (m, symbols) = .ok (n, symbols')) :
    m.size ≤ n.size ∧ ∀ g ∈ globals, ∃ address, (g.name, address) ∈ symbols'
      ∧ m.size ≤ address ∧ address + g.ty.width ≤ maxMemory := by
  induction globals generalizing m symbols with
  | nil =>
    obtain ⟨rfl, -⟩ := Prod.mk.inj (Except.ok.inj h)
    exact ⟨Nat.le_refl _, List.forall_mem_nil _⟩
  | cons g rest ih =>
    rw [loadGlobals] at h
    obtain ⟨⟨address, m₁⟩, hallocate, h⟩ := Except.bind_eq_ok.mp h
    obtain ⟨hle, hfinish, hsize, -⟩ := Memory.allocate_ok hallocate
    obtain ⟨hsize', hfound⟩ := ih h
    have hsymbol : (g.name, address) ∈ symbols' := (symbols_loadGlobals h).2 List.mem_cons_self
    refine ⟨hsize.trans hsize', List.forall_mem_cons.mpr ⟨⟨address, hsymbol, hle, hfinish⟩, ?_⟩⟩
    intro g' hg'
    obtain ⟨a, ha, hle', hfinish'⟩ := hfound g' hg'
    exact ⟨a, ha, hsize.trans hle', hfinish'⟩

/-- Two globals that share no byte: they are `Apart` where `symbols` has them. -/
def GlobalsApart (symbols : List (String × Nat)) (g g' : Global) : Prop :=
  ∃ a a', (g.name, a) ∈ symbols ∧ (g'.name, a') ∈ symbols
    ∧ Object.Apart ⟨a, g.ty⟩ ⟨a', g'.ty⟩

instance (symbols : List (String × Nat)) : Std.Symm (GlobalsApart symbols) :=
  ⟨fun _ _ ⟨a, a', ha, ha', hapart⟩ => ⟨a', a, ha', ha, hapart.symm⟩⟩

/-- `loadGlobals` makes an object for each global, in typed memory. -/
theorem loadGlobals_typed {image : Image} {floor : Nat} {globals : List Global} {m n : Memory}
    {objects : List Object} {symbols symbols' : List (String × Nat)}
    (h : loadGlobals globals (m, symbols) = .ok (n, symbols'))
    (hm : m.Typed image floor objects) (hglobals : ∀ g ∈ globals, g.ty.IsProper) :
    ∃ more, n.Typed image floor more ∧ objects ⊆ more
      ∧ (∀ g ∈ globals, ∃ address, (g.name, address) ∈ symbols' ∧ ⟨address, g.ty⟩ ∈ more
        ∧ m.size ≤ address)
      ∧ globals.Pairwise (GlobalsApart symbols') := by
  induction globals generalizing m objects symbols with
  | nil =>
    obtain ⟨rfl, rfl⟩ := Prod.mk.inj (Except.ok.inj h)
    exact ⟨objects, hm, List.Subset.refl _, List.forall_mem_nil _, .nil⟩
  | cons g rest ih =>
    obtain ⟨hg, hrest⟩ := List.forall_mem_cons.mp hglobals
    rw [loadGlobals] at h
    obtain ⟨⟨address, m₁⟩, hallocate, h⟩ := Except.bind_eq_ok.mp h
    have haddress := (Memory.allocate_ok hallocate).1
    rcases hm.allocate hg with herror | ⟨address', m₂, hok, -, hsize, hm₂⟩
    · exact nomatch hallocate.symm.trans herror
    · obtain ⟨rfl, rfl⟩ := Prod.mk.inj (Except.ok.inj (hallocate.symm.trans hok))
      obtain ⟨more, hmore, hsub, hfound, hapart⟩ := ih h hm₂ hrest
      have hsymbol : (g.name, address) ∈ symbols' := (symbols_loadGlobals h).2 List.mem_cons_self
      have hfinish := (hm₂.bounds _ List.mem_cons_self).2.1
      refine ⟨more, hmore, fun o ho => hsub (List.mem_cons_of_mem _ ho),
        List.forall_mem_cons.mpr ⟨⟨address, hsymbol, hsub List.mem_cons_self, haddress⟩,
          fun g' hg' => ?_⟩, List.pairwise_cons.mpr ⟨fun g' hg' => ?_, hapart⟩⟩
      · obtain ⟨a, ha, hobject, hle⟩ := hfound g' hg'
        exact ⟨a, ha, hobject, hsize.trans hle⟩
      · -- what comes later lies behind
        obtain ⟨a, ha, -, hle⟩ := hfound g' hg'
        exact ⟨address, a, hsymbol, ha, .inl (hfinish.trans hle)⟩

/-- Each of `globals` is in an object of its own. -/
structure Image.Places (image : Image) (objects : List Object) (globals : List Global) : Prop where
  found : ∀ g ∈ globals, ∃ address, image.symbols.lookup g.name = some address
    ∧ ⟨address, g.ty⟩ ∈ objects
  apart : ∀ g ∈ globals, ∀ g' ∈ globals, g ≠ g' → ∀ {a a' : Nat},
    image.symbols.lookup g.name = some a → image.symbols.lookup g'.name = some a' →
      Object.Apart ⟨a, g.ty⟩ ⟨a', g'.ty⟩

theorem Image.Places.hasGlobals {image : Image} {objects : List Object} {globals : List Global}
    (h : image.Places objects globals) : image.HasGlobals objects globals := by
  intro g hg
  obtain ⟨address, hlookup, hobject⟩ := h.found g hg
  exact ⟨address, hlookup, _, hobject, .refl _⟩

end Oberon.Machine

namespace Oberon

open Code Machine

/-! ## Programs -/

/-- The strings of a program fit into the 64 bits of an address. A machine holds them in one row
of bytes, so that a program with more of them cannot be loaded at all. -/
def Code.Program.IsAddressable (p : Program) : Prop :=
  nullPage + textSize p.strings ≤ 2 ^ 64

/-- A typed program in which everything is found by its name, functions by `function?`. -/
structure Code.Program.Linked (signatures : List Signature) (p : Program) : Prop
    extends p.Typed signatures where
  symbols : (p.globals.map (·.name) ++ p.strings.map (·.name)).Nodup
  procedures : (signatures.map (·.symbol)).Nodup
  dots : ∀ sig ∈ signatures, '.' ∈ sig.symbol.toList

theorem Module.linked_of_compile {m : Module} {platform : Platform} {p : Program}
    (h : m.compile platform = .ok p) (hm : m.HasPlainNames) : p.Linked m.signatures := by
  obtain ⟨hnodup, hdots⟩ := symbolsOf_names m.name hm.procedures
  rw [← Module.symbol_signatures h] at hnodup hdots
  exact ⟨Module.typed_of_compile h, Module.nodup_symbols h hm.nonempty hm.name, hnodup,
    fun sig hsig => hdots _ (List.mem_map_of_mem hsig)⟩

namespace Code.Program

variable {signatures : List Signature} {p : Program}

/-- What the functions of a program refer to. -/
def linkage (p : Program) (signatures : List Signature) : Linkage :=
  ⟨p.globals, p.strings, signatures⟩

/-- `load` fails only for a program that takes too much memory. -/
theorem load_error {e : Fault} (h : load p = .error e) : e = .outOfMemory maxMemory := by
  unfold load at h
  cases hload : loadGlobals p.globals (loadStrings p.strings (.initial, [])) with
  | error e' =>
    rw [hload] at h
    obtain rfl := Except.error.inj h
    exact loadGlobals_error hload
  | ok loaded =>
    rw [hload] at h
    exact nomatch h

/-- All that is loaded from a program that is `Linked` has a name of its own. -/
theorem Linked.nodup_symbols (h : p.Linked signatures) {n : Memory} {symbols : List (String × Nat)}
    (hglobals : loadGlobals p.globals (loadStrings p.strings (.initial, [])) = .ok (n, symbols)) :
    (symbols.map Prod.fst).Nodup := by
  have hstrings := loadStrings_spec p.strings .initial []
  rw [(symbols_loadGlobals hglobals).1, hstrings.names, List.map_nil, List.append_nil,
    ← List.reverse_append, List.nodup_reverse]
  exact (List.perm_append_comm.nodup_iff).mp h.symbols

theorem Linked.image (h : p.Linked signatures) (symbols : List (String × Nat)) :
    Image.Linked ⟨p, symbols⟩ (p.linkage signatures) :=
  ⟨rfl, fun _ hsig => h.function?_symbol h.procedures h.dots (List.mem_cons_of_mem _ hsig),
    fun _ hf => h.function?_primitive h.dots hf⟩

/-- `load` of a program that is `Linked` has all its names, texts and globals, which are zero. -/
theorem Linked.load_typed (h : p.Linked signatures) (hp : p.IsAddressable) {image : Image}
    {m : Memory} (hload : load p = .ok (image, m)) :
    ∃ floor objects, image.program = p ∧ image.Linked (p.linkage signatures)
      ∧ m.Typed image floor objects ∧ image.Places objects p.globals
      ∧ ∀ i, floor ≤ i → m.get i = 0 := by
  obtain ⟨⟨n, symbols⟩, hglobals, hpure⟩ := Except.bind_eq_ok.mp hload
  obtain ⟨rfl, rfl⟩ := Prod.mk.inj (Except.ok.inj hpure)
  have hstrings := loadStrings_spec p.strings .initial []
  have hsub := (symbols_loadGlobals hglobals).2
  have hnodup := h.nodup_symbols hglobals
  set m₀ := (loadStrings p.strings (.initial, [])).1
  -- the texts come first; whatever lies above them is an object or free
  have htexts : Image.HasTexts ⟨p, symbols⟩ m₀.size m₀ := by
    refine ⟨Nat.le_refl _, ?_, ?_, fun c hc => ?_⟩
    · rw [hstrings.size]
      exact Nat.le_add_right _ _
    · rw [hstrings.size]
      exact hp
    · obtain ⟨address, hmem, hnull, hlt, htext⟩ := hstrings.text c hc
      exact ⟨address, lookup_of_mem hnodup (hsub hmem), hnull, hlt, htext⟩
  have hm₀ : m₀.Typed ⟨p, symbols⟩ m₀.size [] := by
    refine ⟨htexts, List.forall_mem_nil _, List.forall_mem_nil _, .nil, ?_⟩
    rintro a ⟨o, ho, -⟩
    exact nomatch ho
  obtain ⟨objects, hm, -, hfound, hapart⟩ := loadGlobals_typed hglobals hm₀ h.isProper.globals
  refine ⟨m₀.size, objects, rfl, h.image symbols, hm, ⟨fun g hg => ?_, ?_⟩, fun i hi => ?_⟩
  · obtain ⟨address, hmem, hobject, -⟩ := hfound g hg
    exact ⟨address, lookup_of_mem hnodup hmem, hobject⟩
  · intro g hg g' hg' hne a a' ha ha'
    obtain ⟨b, b', hb, hb', hapart⟩ := hapart.forall hg hg' hne
    obtain rfl := Option.some.inj (ha.symm.trans (lookup_of_mem hnodup hb))
    obtain rfl := Option.some.inj (ha'.symm.trans (lookup_of_mem hnodup hb'))
    exact hapart
  · rw [get_loadGlobals hglobals]
    exact Memory.get_of_size_le _ hi

/-- `start` of a program that is `Linked` gives a typed state. -/
theorem Linked.start_typed (h : p.Linked signatures) {image : Image} {m : Memory} {floor : Nat}
    {objects : List Object} (hlinked : image.Linked (p.linkage signatures))
    (hm : m.Typed image floor objects) (hglobals : image.HasGlobals objects p.globals)
    (input : List String) :
    ∃ s Γ, start p { memory := m, input } = .ok (.running s)
      ∧ s.Typed image (p.linkage signatures) floor objects Γ [] := by
  obtain ⟨f, hfind, himpl⟩ := h.function?_symbol h.procedures h.dots
    (List.mem_cons_self : entrySignature ∈ entrySignature :: signatures)
  obtain ⟨blocks, -, hbody, -⟩ := himpl.body
  have harguments : List.Forall₂ (fun x k => Scalar.Fits image objects k x) []
      (entrySignature.parameters.map Parameter.kind) := .nil
  obtain ⟨g, Γ, henter, hΓ, hresult, hg, hbase, hout⟩ :=
    Frame.enter_typed himpl hbody hglobals harguments m.size none
  refine ⟨{ world := { memory := m, input }, frame := g, callers := [] }, Γ, ?_,
    hlinked, hΓ, hm, hg, hbase.le, .nil⟩
  have hfind : p.function? entryName = some f := hfind
  simp only [start, hfind, hbody]
  show (Frame.enter f.name blocks [] m.size none >>= _) = _
  rw [henter]
  rfl

end Code.Program

end Oberon
