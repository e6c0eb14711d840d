import Mathlib.Logic.Equiv.Prod
import Oberon.Proofs.WellFormed

/-!
# What the checker demands

The checker goes through functions, blocks and instructions, and carries along the temporaries that
it has seen. What it demands is said here of the program as it stands, in six rules, without an
order and with nothing carried along. In particular no two instructions define the same temporary,
wherever in the program they are. For this, the list of all that is defined is read as a table, from
the place of an instruction to what it defines, level by level.
-/

namespace Oberon

open Code

/-! ## Lists as tables -/

section

variable {α β ι κ : Type}

/-- A list has the entries of a table `at?`: the same ones, and none twice if the table has none
twice. -/
structure Tabulates (at? : ι → Option α) (l : List α) : Prop where
  mem : ∀ a, a ∈ l ↔ ∃ x, at? x = some a
  nodup : l.Nodup ↔ ∀ x y a, at? x = some a → at? y = some a → x = y

theorem pairwise_iff_of_symm {R : α → α → Prop} (hR : ∀ a b, R a b → R b a) {l : List α} :
    l.Pairwise R ↔ ∀ (i j : Nat) (a b : α), l[i]? = some a → l[j]? = some b → i ≠ j → R a b := by
  rw [List.pairwise_iff_getElem]
  constructor
  · intro h i j a b ha hb hne
    obtain ⟨hi, rfl⟩ := List.getElem?_eq_some_iff.mp ha
    obtain ⟨hj, rfl⟩ := List.getElem?_eq_some_iff.mp hb
    rcases Nat.lt_or_gt_of_ne hne with hlt | hlt
    · exact h i j hi hj hlt
    · exact hR _ _ (h j i hj hi hlt)
  · intro h i j hi hj hlt
    exact h i j _ _ (List.getElem?_eq_getElem hi) (List.getElem?_eq_getElem hj) hlt.ne

/-- If `at?` `Tabulates` a list by the places in `ι`, then along an equivalence it does so by the
places in `κ`. -/
theorem Tabulates.reindex {at? : ι → Option α} {l : List α} (h : Tabulates at? l) (e : κ ≃ ι) :
    Tabulates (fun x => at? (e x)) l := by
  refine ⟨fun a => (h.mem a).trans e.surjective.exists, h.nodup.trans ?_⟩
  constructor
  · intro hunique x y a hx hy
    exact e.injective (hunique _ _ a hx hy)
  · intro hunique
    rw [e.surjective.forall₂]
    intro x y a hx hy
    rw [hunique x y a hx hy]

/-- What `Tabulates` a `flatMap`: the place in the list comes first, then that in the table of its
entry. -/
theorem Tabulates.flatMap {at? : β → ι → Option α} {f : β → List α}
    (h : ∀ b, Tabulates (at? b) (f b)) (l : List β) :
    Tabulates (fun x : Nat × ι => l[x.1]?.bind (at? · x.2)) (l.flatMap f) := by
  refine ⟨fun a => ?_, ?_⟩
  · rw [List.mem_flatMap]
    constructor
    · rintro ⟨b, hb, ha⟩
      obtain ⟨i, hi⟩ := List.mem_iff_getElem?.mp hb
      obtain ⟨x, hx⟩ := ((h b).mem a).mp ha
      exact ⟨(i, x), Option.bind_eq_some_iff.mpr ⟨b, hi, hx⟩⟩
    · rintro ⟨x, hx⟩
      obtain ⟨b, hb, hab⟩ := Option.bind_eq_some_iff.mp hx
      exact ⟨b, List.mem_of_getElem? hb, ((h b).mem a).mpr ⟨x.2, hab⟩⟩
  -- apart: each table has no entry twice, and no two tables share one
  · have hsymm (b c : β) (h : ∀ a ∈ f b, ∀ a' ∈ f c, a ≠ a') : ∀ a ∈ f c, ∀ a' ∈ f b, a ≠ a' :=
      fun a ha a' ha' => (h a' ha' a ha).symm
    rw [List.Nodup, List.pairwise_flatMap, pairwise_iff_of_symm hsymm]
    constructor
    · rintro ⟨hinside, hbetween⟩ x y a hx hy
      obtain ⟨b, hb, hab⟩ := Option.bind_eq_some_iff.mp hx
      obtain ⟨c, hc, hac⟩ := Option.bind_eq_some_iff.mp hy
      have hfirst : x.1 = y.1 := by
        by_contra hne
        exact hbetween x.1 y.1 b c hb hc hne a (((h b).mem a).mpr ⟨x.2, hab⟩) a
          (((h c).mem a).mpr ⟨y.2, hac⟩) rfl
      obtain rfl : b = c := Option.some.inj (hb.symm.trans (hfirst ▸ hc))
      have hsecond := (h b).nodup.mp (hinside b (List.mem_of_getElem? hb)) x.2 y.2 a hab hac
      exact Prod.ext hfirst hsecond
    · intro hunique
      refine ⟨fun b hb => (h b).nodup.mpr fun x y a hx hy => ?_, ?_⟩
      · obtain ⟨i, hi⟩ := List.mem_iff_getElem?.mp hb
        have heq := hunique (i, x) (i, y) a (Option.bind_eq_some_iff.mpr ⟨b, hi, hx⟩)
          (Option.bind_eq_some_iff.mpr ⟨b, hi, hy⟩)
        exact (Prod.mk.inj heq).2
      · rintro i j b c hb hc hne a ha _ ha' rfl
        obtain ⟨x, hx⟩ := ((h b).mem a).mp ha
        obtain ⟨y, hy⟩ := ((h c).mem a).mp ha'
        have heq := hunique (i, x) (j, y) a (Option.bind_eq_some_iff.mpr ⟨b, hb, hx⟩)
          (Option.bind_eq_some_iff.mpr ⟨c, hc, hy⟩)
        exact hne (Prod.mk.inj heq).1

theorem tabulates_toList (o : Option α) : Tabulates (fun _ : Unit => o) o.toList := by
  cases o with
  | none => exact ⟨by simp, by simp⟩
  | some a => exact ⟨by simp [eq_comm], by simp⟩

theorem tabulates_filterMap (f : β → Option α) (l : List β) :
    Tabulates (fun x : Nat => l[x]?.bind f) (l.filterMap f) := by
  rw [List.filterMap_eq_flatMap_toList]
  exact (Tabulates.flatMap (fun b => tabulates_toList (f b)) l).reindex (Equiv.prodPUnit Nat).symm

end

/-! ## The rules -/

namespace Code

/-- Block `b` is one of the blocks of the generated function `f` of a program. -/
def Program.HasBlock (p : Program) (f : Function) (b : Block) : Prop :=
  f ∈ p.functions ∧ ∃ blocks, f.body = .blocks blocks ∧ b ∈ blocks

/-- The temporary that an instruction defines, its `output`, by the numbers of its function, of its
block in the function, and of itself in the block. -/
def Program.outputAt? (p : Program) (place : Nat × Nat × Nat) : Option Nat :=
  p.functions[place.1]?.bind fun f =>
    f.blocks[place.2.1]?.bind fun b => b.instrs[place.2.2]?.bind Instr.output

/-- What a program has to be like. -/
structure Program.Conforms (p : Program) : Prop where
  nonempty : ∀ f ∈ p.functions, ∀ blocks, f.body = .blocks blocks → 0 < blocks.size
  terminated : ∀ f b, p.HasBlock f b → ∃ t, b.terminator = some t
  targets : ∀ f b t, p.HasBlock f b → b.terminator = some t →
    ∀ label ∈ t.successors, label < f.blocks.size
  distinct : ∀ x y temp, p.outputAt? x = some temp → p.outputAt? y = some temp → x = y
  callees : ∀ f b, p.HasBlock f b → ∀ out target result arguments,
    .call out target result arguments ∈ b.instrs → ∃ g ∈ p.functions, g.name = target
  returns : ∀ f b value, p.HasBlock f b → b.terminator = some (.ret value) →
    (∃ v, value = some v ∧ v.ty = f.result) ∨ (value = none ∧ f.result = .void)

variable {p : Program}

theorem Program.hasBlock_iff {f : Function} {b : Block} :
    p.HasBlock f b ↔ f ∈ p.functions ∧ b ∈ f.blocks := by
  unfold HasBlock Function.blocks
  cases f.body <;> simp

/-- The `outputs` of all functions differ just if no two instructions define the same temporary, by
`outputAt?`. -/
theorem Program.nodup_outputs_iff : (p.functions.flatMap Function.outputs).Nodup
    ↔ ∀ x y temp, p.outputAt? x = some temp → p.outputAt? y = some temp → x = y := by
  have hblock (b : Block) : Tabulates (fun i : Nat => b.instrs[i]?.bind Instr.output) b.outputs :=
    tabulates_filterMap Instr.output b.instrs
  have hfunction (f : Function) := Tabulates.flatMap hblock f.blocks.toList
  have hprogram := Tabulates.flatMap hfunction p.functions
  simp only [Array.getElem?_toList] at hprogram
  exact hprogram.nodup

theorem Terminator.returns_ret_iff {result : Ty} {value : Option Value} :
    (Terminator.ret value).Returns result
      ↔ (∃ v, value = some v ∧ v.ty = result) ∨ (value = none ∧ result = .void) := by
  cases value with
  | none => simp [Returns, eq_comm]
  | some v => simp [Returns]

theorem Instr.wellFormed_iff {i : Instr} : i.WellFormed p ↔ ∀ out target result arguments,
    i = .call out target result arguments → ∃ g ∈ p.functions, g.name = target := by
  constructor
  · rintro h out target result arguments rfl
    exact h target rfl
  · intro h name hname
    cases i with
    | call out target result arguments =>
      obtain rfl := Option.some.inj hname
      exact h out target result arguments rfl
    | _ => cases hname

theorem Terminator.wellFormed_iff {f : Function} {t : Terminator} : t.WellFormed f
    ↔ (∀ label ∈ t.successors, label < f.blocks.size) ∧ ∀ value, t = .ret value →
      (∃ v, value = some v ∧ v.ty = f.result) ∨ (value = none ∧ f.result = .void) := by
  constructor
  · rintro ⟨htargets, hreturns⟩
    refine ⟨htargets, ?_⟩
    rintro value rfl
    exact returns_ret_iff.mp hreturns
  · rintro ⟨htargets, hreturns⟩
    refine ⟨htargets, ?_⟩
    cases t with
    | ret value => exact returns_ret_iff.mpr (hreturns value rfl)
    | jump target => trivial
    | branch condition onTrue onFalse => trivial

/-- The rules of `Conforms` say of the whole program what `WellFormed` says of its functions one by
one. -/
theorem Program.conforms_iff_wellFormed : p.Conforms ↔ p.WellFormed := by
  constructor
  · intro h
    refine ⟨fun f hf => ⟨?_, fun b hb => ?_⟩, nodup_outputs_iff.mpr h.distinct⟩
    · intro hgenerated
      cases hbody : f.body with
      | external => simp [Function.isExternal, hbody] at hgenerated
      | blocks blocks =>
        rw [Function.blocks, hbody]
        exact (h.nonempty f hf blocks hbody).ne'
    · have hblock : p.HasBlock f b := hasBlock_iff.mpr ⟨hf, hb⟩
      obtain ⟨t, ht⟩ := h.terminated f b hblock
      refine ⟨fun i hi => Instr.wellFormed_iff.mpr ?_, t, ht, Terminator.wellFormed_iff.mpr ?_⟩
      · rintro out target result arguments rfl
        exact h.callees f b hblock out target result arguments hi
      · refine ⟨h.targets f b t hblock ht, ?_⟩
        rintro value rfl
        exact h.returns f b value hblock ht
  · intro h
    -- a block of the program is a block of one of its functions, with all that is known of it
    have hwell {f : Function} {b : Block} (hblock : p.HasBlock f b) : b.WellFormed p f := by
      obtain ⟨hf, hb⟩ := hasBlock_iff.mp hblock
      exact (h.functions f hf).blocks b hb
    have hend {f : Function} {b : Block} {t : Terminator} (hblock : p.HasBlock f b)
        (ht : b.terminator = some t) : t.WellFormed f := by
      obtain ⟨t', ht', hwf⟩ := (hwell hblock).terminator
      exact Option.some.inj (ht'.symm.trans ht) ▸ hwf
    constructor
    case nonempty =>
      intro f hf blocks hbody
      have hsize := (h.functions f hf).nonempty (by rw [Function.isExternal, hbody])
      rw [Function.blocks, hbody] at hsize
      exact Nat.pos_of_ne_zero hsize
    case terminated =>
      intro f b hblock
      obtain ⟨t, ht, -⟩ := (hwell hblock).terminator
      exact ⟨t, ht⟩
    case targets => exact fun f b t hblock ht => (Terminator.wellFormed_iff.mp (hend hblock ht)).1
    case distinct => exact nodup_outputs_iff.mp h.temporaries
    case callees =>
      intro f b hblock out target result arguments hi
      exact Instr.wellFormed_iff.mp ((hwell hblock).code _ hi) out target result arguments rfl
    case returns =>
      intro f b value hblock ht
      exact (Terminator.wellFormed_iff.mp (hend hblock ht)).2 value rfl

/-- The checker accepts a program just if it obeys the rules. -/
theorem Program.check_eq_ok_iff_conforms (p : Program) : p.check = .ok () ↔ p.Conforms :=
  check_eq_ok.trans conforms_iff_wellFormed.symm

end Code

end Oberon
