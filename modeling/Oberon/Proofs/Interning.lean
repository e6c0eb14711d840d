import Oberon.Proofs.Names

/-!
# Interned strings

All bodies of a program draw their string constants from one stock: literals, constants and the
formats of input and output alike. A constant is looked up by its bytes and named by its position,
so the constants are numbered and no bytes are there twice. A compilation changes the stock by
interning only, whatever it compiles, so a constant keeps its name and its place to the end.
-/

namespace Oberon

open Code Relation

/-! ## Stocks -/

namespace Stock

/-- The bytes that the name of a constant stands for. -/
def bytes? (s : Stock) (name : String) : Option (List UInt8) :=
  (s.strings.find? (·.name == name)).map (·.bytes)

/-- The constants are named by their positions, as `Numbered` says, and no two of them have the same
bytes. -/
structure IsInterned (s : Stock) : Prop where
  numbered : s.Numbered
  distinct : (s.strings.map (·.bytes)).Nodup

variable {s t : Stock} {bytes : List UInt8}

theorem find?_bytes_eq_none :
    s.strings.find? (·.bytes == bytes) = none ↔ bytes ∉ s.strings.map (·.bytes) := by
  simp [List.find?_eq_none]

/-- `Stock.intern` finds the first constant of the bytes, or adds one at the end. -/
theorem intern_cases (s : Stock) (bytes : List UInt8) :
    (∃ c, s.strings.find? (·.bytes == bytes) = some c ∧ s.intern bytes = (c.name, s))
      ∨ ∃ name, s.strings.find? (·.bytes == bytes) = none
        ∧ s.intern bytes = (name, { s with strings := s.strings ++ [⟨name, bytes⟩] }) := by
  unfold intern
  cases hfound : s.strings.find? (·.bytes == bytes) with
  | some c => exact .inl ⟨c, rfl, rfl⟩
  | none => exact .inr ⟨_, rfl, rfl⟩

/-- `Stock.intern` adds one constant at most, and none if the bytes are there. -/
theorem exists_added (s : Stock) (bytes : List UInt8) :
    ∃ added, (s.intern bytes).2.strings = s.strings ++ added ∧ added.length ≤ 1
      ∧ (added = [] ↔ bytes ∈ s.strings.map (·.bytes)) := by
  rcases s.intern_cases bytes with ⟨c, hfound, hintern⟩ | ⟨name, hnone, hintern⟩
  · have hbytes : c.bytes = bytes := by simpa using List.find?_some hfound
    have hmem : bytes ∈ s.strings.map (·.bytes) :=
      List.mem_map.mpr ⟨c, List.mem_of_find?_eq_some hfound, hbytes⟩
    rw [hintern]
    exact ⟨[], (List.append_nil _).symm, Nat.zero_le 1, iff_of_true rfl hmem⟩
  · rw [hintern]
    exact ⟨[⟨name, bytes⟩], rfl, le_rfl,
      iff_of_false (List.cons_ne_nil _ _) (find?_bytes_eq_none.mp hnone)⟩

/-- The bytes given to `intern` lead to the constant whose name was given for them. -/
theorem find?_intern (s : Stock) (bytes : List UInt8) :
    ∃ c, (s.intern bytes).2.strings.find? (·.bytes == bytes) = some c
      ∧ c.name = (s.intern bytes).1 := by
  rcases s.intern_cases bytes with ⟨c, hfound, hintern⟩ | ⟨name, hnone, hintern⟩
  · rw [hintern]
    exact ⟨c, hfound, rfl⟩
  · rw [hintern, List.find?_append, hnone]
    exact ⟨⟨name, bytes⟩, by simp, rfl⟩

/-- What `intern` has added or found is found again, whatever was added since then. -/
theorem intern_later (h : (s.intern bytes).2.strings <+: t.strings) :
    t.intern bytes = ((s.intern bytes).1, t) := by
  obtain ⟨c, hfound, hname⟩ := s.find?_intern bytes
  obtain ⟨rest, hrest⟩ := h
  have hlater : t.strings.find? (·.bytes == bytes) = some c := by
    rw [← hrest, List.find?_append, hfound]
    rfl
  rcases t.intern_cases bytes with ⟨d, hd, hintern⟩ | ⟨name, hnone, -⟩
  · obtain rfl := Option.some.inj (hd.symm.trans hlater)
    rw [hintern, hname]
  · rw [hlater] at hnone
    cases hnone

namespace IsInterned

/-- `IsInterned` is kept by `intern`. -/
theorem intern (h : s.IsInterned) (bytes : List UInt8) : (s.intern bytes).2.IsInterned := by
  refine ⟨(s.grows_intern bytes).numbered h.numbered, ?_⟩
  rcases s.intern_cases bytes with ⟨c, -, hintern⟩ | ⟨name, hnone, hintern⟩
  · rw [hintern]
    exact h.distinct
  · have hnew := find?_bytes_eq_none.mp hnone
    rw [hintern]
    simp only [List.map_append, List.map_cons, List.map_nil]
    exact h.distinct.append (List.nodup_singleton _) (by simpa using hnew)

/-- Names differ where `IsInterned` holds, so each stands for its own constant. -/
theorem bytes?_name (h : s.IsInterned) {c : StringConstant} (hc : c ∈ s.strings) :
    s.bytes? c.name = some c.bytes := by
  have hnames : (s.strings.map (·.name)).Nodup := by
    rw [show s.strings.map (·.name) = _ from h.numbered]
    exact nodup_stringNames _
  unfold bytes?
  cases hfound : s.strings.find? (·.name == c.name) with
  | none =>
    have hother := List.find?_eq_none.mp hfound c hc
    simp at hother
  | some d =>
    have hsame : d.name = c.name := by simpa using List.find?_some hfound
    rw [List.inj_on_of_nodup_map hnames (List.mem_of_find?_eq_some hfound) hc hsame]
    rfl

/-- A name that `intern` gave for bytes stands for them, whatever was added since then. -/
theorem bytes?_intern (h : t.IsInterned) (hkept : (s.intern bytes).2.strings <+: t.strings) :
    t.bytes? (s.intern bytes).1 = some bytes := by
  obtain ⟨c, hc, hbytes, hname⟩ := s.exists_intern bytes
  rw [hname, h.bytes?_name (List.IsPrefix.subset hkept hc), hbytes]

/-- No other bytes get the same name from `intern` later. -/
theorem intern_eq_iff (h : t.IsInterned) (hkept : (s.intern bytes).2.strings <+: t.strings)
    {other : List UInt8} : (t.intern other).1 = (s.intern bytes).1 ↔ other = bytes := by
  constructor
  · intro hname
    -- once the other bytes are interned too, the one name stands for both
    have hother := (h.intern other).bytes?_intern (s := t) List.prefix_rfl
    have hbytes := (h.intern other).bytes?_intern
      (List.IsPrefix.trans hkept (t.grows_intern other).strings)
    rw [hname, hbytes] at hother
    exact (Option.some.inj hother).symm
  · rintro rfl
    rw [intern_later hkept]

theorem name_of_getElem? (h : s.IsInterned) {i : Nat} {c : StringConstant}
    (hc : s.strings[i]? = some c) : c.name = ".str." ++ toString i := by
  have hnumbered : s.strings.map (·.name) = _ := h.numbered
  have hname : (s.strings.map (·.name))[i]? = some c.name := by rw [List.getElem?_map, hc]; rfl
  have hlt : i < s.strings.length := (List.getElem?_eq_some_iff.mp hc).1
  rw [hnumbered, List.getElem?_map, List.getElem?_range hlt] at hname
  exact (Option.some.inj hname).symm

end IsInterned

/-- A stock that became another one by `Stock.intern`. -/
structure Accrues (s t : Stock) : Prop where
  strings : s.strings <+: t.strings
  isInterned : s.IsInterned → t.IsInterned

namespace Accrues

variable {u : Stock}

/-- `Accrues` does not depend on the other parts of a stock. -/
theorem of_eq (h : t.strings = s.strings) : s.Accrues t := by
  refine ⟨h ▸ List.prefix_rfl, fun hs => ⟨?_, ?_⟩⟩
  · unfold Numbered
    rw [h]
    exact hs.numbered
  · rw [h]
    exact hs.distinct

theorem trans (h : s.Accrues t) (h' : t.Accrues u) : s.Accrues u :=
  ⟨h.strings.trans h'.strings, h'.isInterned ∘ h.isInterned⟩

/-- `Stock.intern` is a step of `Accrues`. -/
theorem intern (s : Stock) (bytes : List UInt8) : s.Accrues (s.intern bytes).2 :=
  ⟨(s.grows_intern bytes).strings, fun h => h.intern bytes⟩

end Accrues

end Stock

/-! ## Compilations -/

theorem Emission.Changes.accrues {s t : Emission} (h : s.Changes t) : s.stock.Accrues t.stock := by
  cases h with
  | extend h =>
    cases h with
    | push h => exact .of_eq rfl
    | define h hcell => exact .of_eq rfl
    | string text => exact .intern s.stock (Text.utf8Bytes text)
  | cell ty => exact .of_eq rfl
  | terminate t => exact .of_eq rfl
  | move label => exact .of_eq rfl
  | block name => exact .of_eq rfl

/-- A step of a compilation, be it in a declaration, in a body or between two of them. -/
inductive Session.Advances : Session → Session → Prop
  | emit (s : Session) {e : Emission} (h : s.emission.Changes e) : Advances s (s.withEmission e)
  | name (s : Session) (name : String) (named : Named) : Advances s (s.bind name named)
  | types (s : Session) (types : TypeTable) : Advances s (s.withTypes types)
  | global (s : Session) (g : Global) : Advances s { s with globals := s.globals ++ [g] }
  | enter (s : Session) : Advances s { s with env := s.env.push, types := s.types.push }
  | leave (s : Session) : Advances s s.left
  | start (s : Session) : Advances s s.started
  | finish (s : Session) (f : Function) (outer : Draft) : Advances s (s.finished f outer)

namespace Session

variable {s t : Session}

/-- Each step of `Advances` interns strings, or leaves the stock as it is. -/
theorem Advances.accrues (h : s.Advances t) : s.stock.Accrues t.stock := by
  cases h with
  | emit h => exact h.accrues
  | name name named => exact .of_eq rfl
  | types types => exact .of_eq rfl
  | global g => exact .of_eq rfl
  | enter => exact .of_eq rfl
  | leave => exact .of_eq rfl
  | start => exact .of_eq rfl
  | finish f outer => exact .of_eq rfl

/-- Whatever is compiled by `Advances`, strings are interned. -/
theorem accrues_of_advances (h : ReflTransGen Advances s t) : s.stock.Accrues t.stock := by
  induction h with
  | refl => exact .of_eq rfl
  | tail _ hstep ih => exact ih.trans hstep.accrues

theorem Names.advances (h : s.Names t) : s.Advances t := by
  cases h with
  | name name h => exact .name s name _
  | resolve h => exact .types s _
  | type name definition => exact .types s _

theorem Declares.advances (h : s.Declares t) : ReflTransGen Advances s t := by
  cases h with
  | names h => exact .single h.advances
  | emit h =>
    induction h with
    | refl => exact .refl
    | tail _ hstep ih => exact ih.tail (.emit (s.withEmission _) hstep)

theorem Collects.advances (h : s.Collects t) : s.Advances t := by
  cases h with
  | names h => exact h.advances
  | global g => exact .global s g

theorem advances_of_declares (h : ReflTransGen Declares s t) : ReflTransGen Advances s t := by
  induction h with
  | refl => exact .refl
  | tail _ hstep ih => exact ih.trans hstep.advances

/-- Procedures are compiled step by step, by `Advances`. -/
theorem invariant_advances (s : Session) :
    Invariant (fun (_ : List Unit) t => ReflTransGen Advances s t) fun _ => [] where
  declares := fun hs h => hs.trans h.advances
  opens := by
    intro _ t types name sig hs
    -- the signature is resolved and bound outside of the section that is entered
    have hnamed := (hs.tail (.types t types)).tail (.name _ name (.procedure sig))
    exact (hnamed.tail (.start _)).tail (.enter _)
  closes := by
    intro _ r t sig ht
    exact (ht.tail (.finish t _ r.draft)).tail (.leave _)

theorem advances_compileProcedures {unit : String} {procedures : List Procedure} {u : Unit}
    (h : compileProcedures unit procedures s = .ok (u, t)) : ReflTransGen Advances s t := by
  apply (invariant_advances s).compileProcedures h
  · exact .refl
  · exact []

/-- A state in which a compilation can be, by steps of `Advances`. -/
def IsReached (s : Session) : Prop :=
  ReflTransGen Advances { functions := Module.primitives } s

/-- In every state of a compilation, strings are `IsInterned`. -/
theorem IsReached.isInterned (h : s.IsReached) : s.stock.IsInterned :=
  (accrues_of_advances h).isInterned ⟨rfl, List.nodup_nil⟩

/-- The operand for the address of a string constant, and the session that has the constant. -/
def string (s : Session) (bytes : List UInt8) : Value × Session :=
  (.string (s.stock.intern bytes).1, { s with stock := (s.stock.intern bytes).2 })

theorem emit_string (s : Session) (text : String) :
    Compile.emit (Emit.string text) s = .ok (s.string (Text.utf8Bytes text)) :=
  rfl

end Session

/-- A compilation that succeeds ends in a state that `IsReached` and has the constants of the
program. -/
theorem Module.isReached_of_compile {m : Module} {platform : Platform} {p : Program}
    (h : m.compile platform = .ok p) :
    ∃ s : Session, s.IsReached ∧ s.stock.strings = p.strings := by
  obtain ⟨a, b, c, d, e, entry, ha, hb, hc, hd, he, rfl⟩ := Module.compile_ok h
  have hbegun : Session.IsReached .begun := .single (.enter _)
  have hdeclared : c.IsReached := hbegun.trans (ReflTransGen.mono
    (fun _ _ => Session.Collects.advances) _ _ (Module.collects_of_sections ha hb hc))
  have hprocedures : d.IsReached := hdeclared.trans (Session.advances_compileProcedures hd)
  have hbody : e.IsReached := (hprocedures.tail (.start d)).trans
    (Session.advances_of_declares (Compile.traces_statements _ _ he))
  exact ⟨e, hbody, rfl⟩

/-- Strings are neither lost nor duplicated. The constants of a program are named by their positions
and have different bytes. At any point of a compilation, the operand for some bytes names a constant
that has just these bytes; the constants that were there stay, and at most one is added. At any
later point the same bytes, and no others, have the same operand, and nothing is added for them. -/
theorem Module.strings_interned :
    (∀ {m : Module} {platform : Platform} {p : Program}, m.compile platform = .ok p →
      (∃ s : Session, s.IsReached ∧ s.stock.strings = p.strings)
        ∧ (∀ (i : Nat) (c : StringConstant), p.strings[i]? = some c →
          c.name = ".str." ++ toString i)
        ∧ (p.strings.map (·.bytes)).Nodup)
      ∧ ∀ {s t : Session} {bytes : List UInt8} {v : Value}, s.IsReached → s.string bytes = (v, t) →
        (∀ text, Text.utf8Bytes text = bytes → Compile.emit (Emit.string text) s = .ok (v, t))
        ∧ (∃ added, t.stock.strings = s.stock.strings ++ added ∧ added.length ≤ 1
          ∧ (added = [] ↔ bytes ∈ s.stock.strings.map (·.bytes)))
        ∧ ∀ {u : Session}, ReflTransGen Session.Advances t u →
          (∃ name, v = .string name ∧ u.stock.bytes? name = some bytes)
          ∧ u.string bytes = (v, u) ∧ ∀ other, (u.string other).1 = v ↔ other = bytes := by
  constructor
  · intro m platform p h
    obtain ⟨s, hreached, hstrings⟩ := Module.isReached_of_compile h
    have hs := hreached.isInterned
    rw [← hstrings]
    exact ⟨⟨s, hreached, rfl⟩, fun i c hc => hs.name_of_getElem? hc, hs.distinct⟩
  · intro s t bytes v hreached hstring
    obtain ⟨rfl, rfl⟩ := Prod.mk.inj hstring
    refine ⟨?_, s.stock.exists_added bytes, fun {u} hlater => ?_⟩
    · rintro text rfl
      exact s.emit_string text
    · have haccrues := Session.accrues_of_advances hlater
      have hu : u.stock.IsInterned := haccrues.isInterned (hreached.isInterned.intern bytes)
      refine ⟨⟨_, rfl, hu.bytes?_intern haccrues.strings⟩, ?_, fun other => ?_⟩
      · rw [Session.string, Stock.intern_later haccrues.strings]
      · rw [Session.string, Value.string.injEq, hu.intern_eq_iff haccrues.strings]

/-- A module that writes the text of a format, in a procedure and in its body, and reads by the
format by which it writes. -/
def Module.sharing : Module where
  name := "M"
  declarations :=
    { constants := [("s", .literal (.string "%s"))]
      vars := [(["x"], .integer)]
      procedures := [.mk "P" [] none {} [.call "WRITE" [.literal (.string "%s")]]] }
  body := some
    [.call "WRITE" [.designator "s" []], .call "WRITELN" [], .call "READ" [.designator "x" []],
      .call "WRITE" [.designator "x" []]]

theorem Module.strings_interned_sharing :
    ∃ p, Module.sharing.compile .native = .ok p
      ∧ p.strings.map (·.bytes) = [[37, 115], [], [37, 108, 108, 100]]
      ∧ (p.strings.map (·.bytes)).Nodup
      ∧ (∀ c, p.strings[2]? = some c → c.name = ".str.2")
      ∧ ∃ s : Session, s.IsReached ∧ s.stock.strings = p.strings
        ∧ (∀ v t, s.string [] = (v, t) → t.string [] = (v, t) ∧ (t.string [37, 115]).1 ≠ v) := by
  have hok : (Module.sharing.compile .native).isOk = true := by decide +kernel
  have hbytes : ∀ p ∈ (Module.sharing.compile .native).toOption,
      p.strings.map (·.bytes) = [[37, 115], [], [37, 108, 108, 100]] := by
    decide +kernel
  obtain ⟨p, hp⟩ := Except.exists_of_isOk hok
  obtain ⟨⟨s, hreached, hstrings⟩, hnames, hnodup⟩ := Module.strings_interned.1 hp
  refine ⟨p, hp, hbytes p (by rw [hp]; rfl), hnodup, fun c hc => hnames 2 c hc, s, hreached,
    hstrings, ?_⟩
  intro v t hstring
  obtain ⟨-, -, hlater⟩ := Module.strings_interned.2 hreached hstring
  obtain ⟨-, hsame, hothers⟩ := hlater .refl
  exact ⟨hsame, fun heq => absurd ((hothers _).mp heq) (by decide)⟩

end Oberon
