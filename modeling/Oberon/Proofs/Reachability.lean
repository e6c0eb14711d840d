import Mathlib.Logic.Relation
import Oberon.Code.Reachable

/-!
# Reachability

The search for reachable blocks keeps a list of labels that it still has to visit. A label may stand
there several times, and there may be labels of blocks that do not exist. Each round takes the first
label: it marks a block, or leaves one label less. So the search ends. Whatever it has marked can be
reached, and what a marked block leads to is marked or still to be visited; when nothing is left to
visit, the marked blocks are just those that can be reached.
-/

namespace Oberon.Code.Function

open Relation

/-- One block leads to another, which is one of its `successors`. -/
def Leads (f : Function) (source target : Nat) : Prop :=
  target ∈ f.successors source

/-- One block `Leads` to another one that exists. -/
def LeadsInto (f : Function) (source target : Nat) : Prop :=
  f.Leads source target ∧ target < f.blocks.size

/-! ## Rounds -/

/-- A search under way: the labels still to visit, and for each block whether it is marked. -/
structure Search where
  pending : List Nat
  seen : Array Bool

/-- A round of `Function.mark`. -/
inductive Round (f : Function) : Search → Search → Prop
  | visit {label : Nat} {pending : List Nat} {seen : Array Bool} (h : seen[label]? = some false) :
    Round f ⟨label :: pending, seen⟩ ⟨f.successors label ++ pending, seen.setIfInBounds label true⟩
  /-- The block is marked already, or does not exist. -/
  | pass {label : Nat} {pending : List Nat} {seen : Array Bool} (h : seen[label]? ≠ some false) :
    Round f ⟨label :: pending, seen⟩ ⟨pending, seen⟩

/-- The search before its first round. -/
def Search.initial (f : Function) : Search :=
  ⟨[0], Array.replicate f.blocks.size false⟩

/-- No search has rounds without end: each `Round` marks a block, or marks none and leaves a label
less. -/
theorem wellFounded_round (f : Function) : WellFounded fun y x => f.Round x y := by
  let left (x : Search) : Nat × Nat := (x.seen.count false, x.pending.length)
  have hlex : WellFounded (InvImage (Prod.Lex (· < ·) (· < ·)) left) :=
    InvImage.wf left (Prod.lex Nat.lt_wfRel Nat.lt_wfRel).wf
  refine Subrelation.wf (fun {y x} hround => ?_) hlex
  cases hround with
  | visit h => exact .left _ _ (count_false_setIfInBounds_lt h)
  | pass h => exact .right _ (Nat.lt_succ_self _)

/-- `Function.mark` goes from round to round until nothing is left to visit. -/
theorem rounds_mark (f : Function) (pending : List Nat) (seen : Array Bool) :
    ReflTransGen f.Round ⟨pending, seen⟩ ⟨[], f.mark pending seen⟩ := by
  fun_induction mark f pending seen with
  | case1 seen => exact .refl
  | case2 seen label rest h ih => exact .head (.visit h) ih
  | case3 seen label rest h ih => exact .head (.pass h) ih

/-! ## What rounds keep -/

/-- A label that is marked, or still to be visited. -/
def Search.Knows (x : Search) (label : Nat) : Prop :=
  x.seen[label]? = some true ∨ label ∈ x.pending

/-- A search that has marked and means to visit only what can be reached, and that `Knows` where its
marked blocks lead. -/
structure Search.IsFair (f : Function) (x : Search) : Prop where
  size : x.seen.size = f.blocks.size
  first : 0 < f.blocks.size → x.Knows 0
  sound : ∀ l < f.blocks.size, x.Knows l → ReflTransGen f.LeadsInto 0 l
  closed : ∀ a b, x.seen[a]? = some true → f.LeadsInto a b → x.Knows b

namespace Search

variable {f : Function} {x y : Search}

theorem isFair_initial (f : Function) : (initial f).IsFair f := by
  have hnone (l : Nat) : (initial f).seen[l]? ≠ some true := by
    intro h
    obtain ⟨hl, htrue⟩ := Array.getElem?_eq_some_iff.mp h
    rw [show (initial f).seen[l] = false from Array.getElem_replicate ..] at htrue
    cases htrue
  refine ⟨Array.size_replicate, fun _ => .inr List.mem_cons_self, ?_, ?_⟩
  · rintro l - (hseen | hpending)
    · exact absurd hseen (hnone l)
    · obtain rfl := List.mem_singleton.mp hpending
      exact .refl
  · exact fun a b hseen _ => absurd hseen (hnone a)

/-- A flag that was set, or is set now. -/
theorem getElem?_setIfInBounds_eq_true {seen : Array Bool} {label l : Nat}
    (hlabel : label < seen.size) :
    (seen.setIfInBounds label true)[l]? = some true ↔ l = label ∨ seen[l]? = some true := by
  rw [Array.getElem?_setIfInBounds]
  by_cases hl : label = l
  · subst hl
    simp [hlabel]
  · rw [if_neg hl]
    exact ⟨.inr, fun h => h.resolve_left (Ne.symm hl)⟩

/-- What a search `Knows` it goes on to know. -/
theorem Knows.round (hround : f.Round x y) (hx : x.seen.size = f.blocks.size) {l : Nat}
    (hl : l < f.blocks.size) (h : x.Knows l) : y.Knows l := by
  cases hround with
  | @visit label pending seen hnew =>
    have hlabel : label < seen.size := (Array.getElem?_eq_some_iff.mp hnew).1
    rw [Knows, getElem?_setIfInBounds_eq_true hlabel]
    rcases h with hseen | hpending
    · exact .inl (.inr hseen)
    · rcases List.mem_cons.mp hpending with rfl | hrest
      · exact .inl (.inl rfl)
      · exact .inr (List.mem_append_right _ hrest)
  | @pass label pending seen hold =>
    rcases h with hseen | hpending
    · exact .inl hseen
    · rcases List.mem_cons.mp hpending with rfl | hrest
      · -- the block exists, and if it is not unmarked it is marked
        have hlt : l < seen.size := hx.symm ▸ hl
        rw [Array.getElem?_eq_getElem hlt] at hold
        have htrue : seen[l] = true := by simpa using hold
        exact .inl (Array.getElem?_eq_some_iff.mpr ⟨hlt, htrue⟩)
      · exact .inr hrest

theorem IsFair.round (hx : x.IsFair f) (hround : f.Round x y) : y.IsFair f := by
  have hfirst (h : 0 < f.blocks.size) : y.Knows 0 := (hx.first h).round hround hx.size h
  cases hround with
  | @visit label pending seen hnew =>
    have hsize : seen.size = f.blocks.size := hx.size
    have hlabel : label < seen.size := (Array.getElem?_eq_some_iff.mp hnew).1
    have hpath : ReflTransGen f.LeadsInto 0 label :=
      hx.sound label (hsize ▸ hlabel) (.inr List.mem_cons_self)
    refine ⟨Array.size_setIfInBounds.trans hsize, hfirst, ?_, ?_⟩
    · intro l hl hknows
      rw [Knows, getElem?_setIfInBounds_eq_true hlabel] at hknows
      -- known before, or a successor of the block that is visited
      rcases hknows with (rfl | hseen) | hpending
      · exact hpath
      · exact hx.sound l hl (.inl hseen)
      · rcases List.mem_append.mp hpending with hnext | hrest
        · exact hpath.tail ⟨hnext, hl⟩
        · exact hx.sound l hl (.inr (List.mem_cons_of_mem _ hrest))
    · intro a b ha hab
      rcases (getElem?_setIfInBounds_eq_true hlabel).mp ha with rfl | hseen
      · exact .inr (List.mem_append_left _ hab.1)
      · exact (hx.closed a b hseen hab).round (.visit hnew) hsize hab.2
  | @pass label pending seen hold =>
    refine ⟨hx.size, hfirst, ?_, ?_⟩
    · exact fun l hl hknows => hx.sound l hl (hknows.imp_right (List.mem_cons_of_mem _))
    · exact fun a b ha hab => (hx.closed a b ha hab).round (.pass hold) hx.size hab.2

theorem IsFair.rounds (hx : x.IsFair f) (hrounds : ReflTransGen f.Round x y) : y.IsFair f := by
  induction hrounds with
  | refl => exact hx
  | tail _ hround ih => exact ih.round hround

/-- At the end of a search that `IsFair`, what can be reached is marked. -/
theorem IsFair.complete {seen : Array Bool} (hx : IsFair f ⟨[], seen⟩) {l : Nat}
    (hblocks : 0 < f.blocks.size) (hpath : ReflTransGen f.LeadsInto 0 l) :
    seen[l]? = some true := by
  have hseen {l : Nat} (h : Knows ⟨[], seen⟩ l) : seen[l]? = some true :=
    h.resolve_right List.not_mem_nil
  induction hpath with
  | refl => exact hseen (hx.first hblocks)
  | @tail a b _ hab ih => exact hseen (hx.closed a b ih hab)

end Search

/-- The search for reachable blocks ends, whatever the blocks are and wherever their terminators
lead: no search has rounds without end, and this one comes to the flags of `reachable` with nothing
left to visit. There is one flag for each block, and a flag is set just if a path leads to its block
from the first one, along jumps and branches to blocks that exist. -/
theorem reachable_iff_path (f : Function) :
    (WellFounded fun y x => f.Round x y)
      ∧ ReflTransGen f.Round (.initial f) ⟨[], f.reachable⟩
      ∧ f.reachable.size = f.blocks.size
      ∧ ∀ i, f.reachable[i]? = some true
          ↔ i < f.blocks.size ∧ ReflTransGen f.LeadsInto 0 i := by
  have hrounds : ReflTransGen f.Round (.initial f) ⟨[], f.reachable⟩ := f.rounds_mark _ _
  have hfair := (Search.isFair_initial f).rounds hrounds
  refine ⟨f.wellFounded_round, hrounds, hfair.size, fun i => ⟨?_, ?_⟩⟩
  · intro hseen
    have hi : i < f.blocks.size := hfair.size ▸ (Array.getElem?_eq_some_iff.mp hseen).1
    exact ⟨hi, hfair.sound i hi (.inl hseen)⟩
  · rintro ⟨hi, hpath⟩
    exact hfair.complete (Nat.zero_lt_of_lt hi) hpath

end Oberon.Code.Function
