import Mathlib.Data.ENat.Basic
import Oberon.Proofs.CheckedRuns
import Oberon.Proofs.Following

/-!
# Fuel

Fuel decides whether a run finishes, and nothing else. A run with any budget takes the same steps
as a run with any other, up to where the smaller one ends: a run that has not ended after `n` steps
is out of fuel with a budget of `n`, and one that has ended stays as it ended with every greater
budget. So each program and input has a threshold, which is the number of steps that the run takes.
What a run ends with from there on is a result, unless the machine breaks down, as it does where a
program loads or stores a value of more than eight bytes.
-/

namespace Oberon.Machine

open Code

/-- A result that has nothing to do with the budget of the run: it is not `outOfFuel`. -/
def IsFinal (r : Except Fault Execution) : Prop :=
  ∀ budget, r ≠ .error (.outOfFuel budget)

/-- A run that is still under way when it has taken `n` steps. -/
def Lasts (p : Program) (input : String) (n : Nat) : Prop :=
  ∃ image m s, load p = .ok (image, m)
    ∧ start p { memory := m, input := Text.words input } = .ok (.running s) ∧ image.Lasts n s

/-! ## One state -/

theorem isFinal_ok (x : Execution) : IsFinal (.ok x) :=
  nofun

theorem isFinal_error {e : Fault} (h : ∀ budget, e ≠ .outOfFuel budget) : IsFinal (.error e) := by
  intro budget he
  exact h budget (Except.error.inj he)

/-- A machine that cannot take `n` steps ends in the same way with every budget from `n` on. -/
theorem Image.run_of_not_lasts {image : Image} {n : Nat} {s : State} (h : ¬ image.Lasts n s) :
    ∃ r, IsFinal r ∧ ∀ budget fuel, n ≤ fuel → image.run budget fuel s = r := by
  induction n generalizing s with
  | zero => exact absurd trivial h
  | succ n ih =>
    -- all budgets that are great enough pay for the first step
    have hpays {fuel : Nat} (hfuel : n + 1 ≤ fuel) : ∃ less, fuel = less + 1 ∧ n ≤ less :=
      ⟨fuel - 1, by omega, by omega⟩
    cases hstep : image.step s with
    | error e =>
      refine ⟨.error e, isFinal_error (image.step_faults s hstep).ne_outOfFuel, ?_⟩
      intro budget fuel hfuel
      obtain ⟨less, rfl, -⟩ := hpays hfuel
      rw [Image.run, hstep]
    | ok progress =>
      cases progress with
      | halted result world =>
        refine ⟨.ok (.ofResult result world), isFinal_ok _, ?_⟩
        intro budget fuel hfuel
        obtain ⟨less, rfl, -⟩ := hpays hfuel
        rw [Image.run, hstep]
      | running t =>
        have hrest : ¬ image.Lasts n t := fun hlasts => h ⟨t, hstep, hlasts⟩
        obtain ⟨r, hfinal, hr⟩ := ih hrest
        refine ⟨r, hfinal, ?_⟩
        intro budget fuel hfuel
        obtain ⟨less, rfl, hless⟩ := hpays hfuel
        rw [Image.run, hstep]
        exact hr budget less hless

/-! ## Whole runs -/

section

variable {p : Program} {input : String} {n k : Nat}

theorem Lasts.mono (h : Lasts p input n) (hle : k ≤ n) : Lasts p input k := by
  obtain ⟨image, m, s, hload, hstart, hlasts⟩ := h
  exact ⟨image, m, s, hload, hstart, hlasts.mono hle⟩

/-- A run that `Lasts` has used up its budget. -/
theorem Lasts.run_eq_outOfFuel (h : Lasts p input n) :
    run p input n = .error (.outOfFuel n) := by
  obtain ⟨image, m, s, hload, hstart, hlasts⟩ := h
  rw [run_of_start hload hstart]
  exact hlasts.run_eq n

/-- A run that has ended, and `Lasts` no more, stays as it ended with every greater budget. -/
theorem exists_result_of_not_lasts (h : ¬ Lasts p input n) :
    ∃ r, IsFinal r ∧ ∀ fuel, n ≤ fuel → run p input fuel = r := by
  cases hload : load p with
  | error e =>
    exact ⟨.error e, isFinal_error (load_faults p hload).ne_outOfFuel, fun fuel _ =>
      run_of_load_error hload input fuel⟩
  | ok loaded =>
    obtain ⟨image, m⟩ := loaded
    cases hstart : start p { memory := m, input := Text.words input } with
    | error e =>
      exact ⟨.error e, isFinal_error (start_faults p _ hstart).ne_outOfFuel, fun fuel _ =>
        run_of_start_error hload hstart fuel⟩
    | ok progress =>
      cases progress with
      | halted result world =>
        exact ⟨.ok (.ofResult result world), isFinal_ok _, fun fuel _ =>
          run_of_halted hload hstart fuel⟩
      | running s =>
        have hends : ¬ image.Lasts n s := fun hlasts => h ⟨image, m, s, hload, hstart, hlasts⟩
        obtain ⟨r, hfinal, hr⟩ := Image.run_of_not_lasts hends
        refine ⟨r, hfinal, fun fuel hfuel => ?_⟩
        rw [run_of_start hload hstart]
        exact hr fuel fuel hfuel

end

/-- Every program has a threshold on every input, which is infinite if the run never ends and the
number of its steps if it does. With a budget below the threshold the run is out of fuel; from the
threshold on it ends in one and the same way, which is not about fuel. It ends with a result, be it
an `Execution` or a fault, unless an instruction of the program loads or stores more than eight
bytes, on which the machine can break down. -/
theorem exists_threshold (p : Program) (input : String) :
    ∃ (k : ℕ∞) (r : Except Fault Execution), (∀ n : ℕ, n < k ↔ Lasts p input n)
      ∧ (∀ n : ℕ, n < k → run p input n = .error (.outOfFuel n))
      ∧ (∀ n : ℕ, k ≤ n → run p input n = r) ∧ (∀ budget, r ≠ .error (.outOfFuel budget))
      ∧ ∀ count, r = .error (.crash count) → 8 < count ∧ p.Accesses count := by
  by_cases hall : ∀ n, Lasts p input n
  · refine ⟨⊤, .ok ⟨0, ""⟩, fun n => ?_, fun n _ => (hall n).run_eq_outOfFuel, fun n hn => ?_,
      isFinal_ok _, fun _ hcrash => nomatch hcrash⟩
    · simpa using hall n
    · simp at hn
  · -- the first number of steps that the run does not last
    have hends : ∃ n, ¬ Lasts p input n := not_forall.mp hall
    obtain ⟨k, hk, hless⟩ : ∃ k, ¬ Lasts p input k ∧ ∀ n < k, Lasts p input n := by
      classical
      refine ⟨Nat.find hends, Nat.find_spec hends, fun n hn => ?_⟩
      exact not_not.mp (Nat.find_min hends hn)
    obtain ⟨r, hfinal, hr⟩ := exists_result_of_not_lasts hk
    refine ⟨k, r, fun n => ?_, fun n hn => ?_, fun n hn => ?_, hfinal, fun count hcrash => ?_⟩
    · rw [Nat.cast_lt]
      refine ⟨hless n, fun hlasts => ?_⟩
      by_contra hge
      exact hk (hlasts.mono (by omega))
    · exact (hless n (Nat.cast_lt.mp hn)).run_eq_outOfFuel
    · exact hr n (Nat.cast_le.mp hn)
    · exact accesses_of_crash ((hr k le_rfl).trans hcrash)

/-- A program that was not generated: it loads an integer of 128 bits, and its checker has nothing
against that. -/
def wide : Program where
  name := "Wide"
  target := "any"
  functions :=
    [{ name := entryName, parameters := [], result := .status
       body := .blocks
         #[{ name := "entry", instrs := [.alloca 0 (.int 128), .load 1 (.int 128) (.temp 0 .ptr)]
             terminator := some (.ret (some (.int 0 32))) }] }]

/-- The machine breaks down at the second step of `wide`, so that there is no threshold
from which on a run has a result. -/
theorem wide_crashes : wide.check = .ok ()
    ∧ ¬ ∃ (k : ℕ∞) (r : Except Fault Execution),
      (∀ n : ℕ, n < k → run wide "" n = .error (.outOfFuel n))
        ∧ (∀ n : ℕ, k ≤ n → run wide "" n = r)
        ∧ (∀ budget, r ≠ .error (.outOfFuel budget)) ∧ ∀ count, r ≠ .error (.crash count) := by
  have hrun : run wide "" 2 = .error (.crash 16) := by decide +kernel
  refine ⟨by decide +kernel, ?_⟩
  rintro ⟨k, r, hbelow, habove, -, hreturned⟩
  rcases lt_or_ge ((2 : ℕ) : ℕ∞) k with hlt | hge
  · exact nomatch (hbelow 2 hlt).symm.trans hrun
  · exact hreturned 16 ((habove 2 hge).symm.trans hrun)

end Oberon.Machine
