/-
# Fair interleavings end

A poll that is never answered runs for ever, so an outline alone cannot promise that
a script ends: an environment that is never scheduled answers nothing. This module
says that nothing else can go wrong. An interleaving that never ends is unfair to the
environment: from some point on the environment has a step to take at every moment
and never gets to take one. One that stops has stopped because the script is done.

The environment must not be able to keep itself busy for ever, which a rank that
falls with each of its steps rules out. The proof is on the work left and the rank,
in this order: a run along which neither falls repeats a single poll.
-/

import DotMatrixPrinter.LineScript.Interleaving
import Mathlib.Data.Prod.Lex

namespace DotMatrixPrinter.LineScript

universe u v w

variable {P : Type u} {κ : Type v} {σ : Type w} {W : Plant P κ σ}
  {s s' : Script P κ} {x y : σ}

/-! ## Work -/

/-- Is the command more than a delay? -/
def Command.isWork : Command P κ → Bool
  | .pause _ => false
  | _ => true

/-- The commands of a script that are more than a delay. -/
def work (s : Script P κ) : ℕ := s.countP Command.isWork

/-- An environment step leaves the script alone. -/
theorem Step.env_of_none (h : Step W s x none s' y) : s' = s ∧ W.env x y := by
  cases h with
  | env henv => exact ⟨rfl, henv⟩

/-- A step of the script does some of its work, or changes nothing in the plant. -/
theorem Step.work_of_some {e : Event P κ} (h : Step W s x (some e) s' y) :
    work s' < work s ∨ (work s' = work s ∧ y = x) := by
  cases h with
  | write | note | sample | leave =>
      exact Or.inl (by simp [work, List.countP_cons, Command.isWork])
  | pause | again => exact Or.inr ⟨by simp [work, List.countP_cons, Command.isWork], rfl⟩

/-- A command that goes ahead is gone after the script's next step. -/
theorem Step.eq_of_goesAhead {c : Command P κ} {e : Event P κ} (hc : GoesAhead W x c)
    (h : Step W (c :: s) x (some e) s' y) : s' = s := by
  cases h with
  | write | note | sample | leave | pause => rfl
  | again hinput => exact absurd hinput hc

/-- A command that goes ahead has a step. -/
theorem exists_step_of_goesAhead {c : Command P κ} (hc : GoesAhead W x c) (s : Script P κ) :
    ∃ e s' y, Step W (c :: s) x e s' y := by
  cases c with
  | write line level => exact ⟨_, _, _, .write hc⟩
  | pause us => exact ⟨_, _, _, .pause us⟩
  | sample => exact ⟨_, _, _, .sample⟩
  | pollWhile level us => exact ⟨_, _, _, .leave hc⟩
  | note mark => exact ⟨_, _, _, .note mark⟩

/-- Where nobody has a step the script is done. -/
theorem CanFinish.eq_nil (h : CanFinish W s x) (hstuck : ∀ e s' y, ¬ Step W s x e s' y) :
    s = [] := by
  cases s with
  | nil => rfl
  | cons c s =>
      have hrest (y : σ) : ¬ W.env x y := fun henv => hstuck _ _ _ (.env henv)
      rcases exists_step_of_goesAhead (h.goesAhead hrest) s with ⟨e, s', y, hstep⟩
      exact absurd hstep (hstuck e s' y)

/-! ## Interleavings that never end -/

/-- An interleaving that never ends. -/
structure Endless (W : Plant P κ σ) (s : Script P κ) (x : σ) where
  script : ℕ → Script P κ
  state : ℕ → σ
  event : ℕ → Option (Event P κ)
  script_zero : script 0 = s
  state_zero : state 0 = x
  step : ∀ n, Step W (script n) (state n) (event n) (script (n + 1)) (state (n + 1))

namespace Endless

/-- An environment that has a step at every moment from some point on takes one. -/
def Fair (ρ : Endless W s x) : Prop :=
  ∀ n, (∀ m, n ≤ m → ∃ y, W.env (ρ.state m) y) → ∃ m, n ≤ m ∧ ρ.event m = none

/-- The interleaving from its `n`-th moment on. -/
def drop (ρ : Endless W s x) (n : ℕ) : Endless W (ρ.script n) (ρ.state n) where
  script m := ρ.script (n + m)
  state m := ρ.state (n + m)
  event m := ρ.event (n + m)
  script_zero := rfl
  state_zero := rfl
  step m := ρ.step (n + m)

theorem Fair.drop {ρ : Endless W s x} (h : ρ.Fair) (n : ℕ) : (ρ.drop n).Fair := by
  intro m henv
  have hlater : ∀ k, n + m ≤ k → ∃ y, W.env (ρ.state k) y := by
    intro k hk
    have hshift : ∃ y, W.env (ρ.state (n + (k - n))) y := henv (k - n) (by omega)
    rwa [show n + (k - n) = k by omega] at hshift
  rcases h (n + m) hlater with ⟨k, hk, hnone⟩
  refine ⟨k - n, by omega, ?_⟩
  show ρ.event (n + (k - n)) = none
  rwa [show n + (k - n) = k by omega]

/-- Every moment is reached by a run. -/
theorem exists_run (ρ : Endless W s x) (n : ℕ) :
    ∃ trace, Run W s x trace (ρ.script n) (ρ.state n) := by
  induction n with
  | zero =>
      rw [ρ.script_zero, ρ.state_zero]
      exact ⟨[], .start⟩
  | succ n ih =>
      rcases ih with ⟨trace, hrun⟩
      exact ⟨_, hrun.extend (ρ.step n)⟩

/-- While the plant stays as it is and is at rest, every step shortens the script, so
there is no such interleaving. -/
theorem false_of_rest (ρ : Endless W s x)
    (hfinish : ∀ trace s' y, Run W s x trace s' y → CanFinish W s' y)
    (hstate : ∀ n, ρ.state n = x) (hrest : ∀ y, ¬ W.env x y) : False := by
  have hshorter (n : ℕ) : (ρ.script (n + 1)).length < (ρ.script n).length := by
    rcases ρ.exists_run n with ⟨trace, hrun⟩
    have hcan := hfinish trace _ _ hrun
    have hstep := ρ.step n
    rw [hstate n] at hcan hstep
    cases he : ρ.event n with
    | none =>
        rw [he] at hstep
        exact absurd hstep.env_of_none.2 (hrest _)
    | some e =>
        rw [he] at hstep
        cases hscript : ρ.script n with
        | nil =>
            rw [hscript] at hstep
            cases hstep
        | cons c rest =>
            rw [hscript] at hcan hstep
            rw [hstep.eq_of_goesAhead (hcan.goesAhead hrest), List.length_cons]
            exact Nat.lt_succ_self _
  have hbound (n : ℕ) : (ρ.script n).length + n ≤ (ρ.script 0).length := by
    induction n with
    | zero => exact le_rfl
    | succ n ih =>
        have hless := hshorter n
        omega
  have hmany := hbound ((ρ.script 0).length + 1)
  omega

/-- An interleaving that never ends is unfair, when every point it can reach can still
finish and the environment's rank falls with each of its steps. -/
theorem not_fair (rank : σ → ℕ) (hrank : ∀ x y, W.env x y → rank y < rank x)
    (ρ : Endless W s x)
    (hfinish : ∀ trace s' y, Run W s x trace s' y → CanFinish W s' y) : ¬ ρ.Fair := by
  induction hm : toLex (work s, rank x) using WellFoundedLT.induction generalizing s x with
  | _ m ih =>
      intro hfair
      -- Whatever does some work or takes a step of the environment gets closer to the end.
      have hcloser (n : ℕ)
          (hless : toLex (work (ρ.script n), rank (ρ.state n)) < toLex (work s, rank x)) :
          False := by
        rcases ρ.exists_run n with ⟨trace, hrun⟩
        exact ih _ (hm ▸ hless) (ρ.drop n)
          (fun _ _ _ hlater => hfinish _ _ _ (hrun.trans hlater)) rfl (hfair.drop n)
      have hsame (n : ℕ) : work (ρ.script n) = work s ∧ ρ.state n = x := by
        induction n with
        | zero => exact ⟨by rw [ρ.script_zero], ρ.state_zero⟩
        | succ n hn =>
            have hstep := ρ.step n
            cases he : ρ.event n with
            | none =>
                rw [he] at hstep
                rcases hstep.env_of_none with ⟨hscript, henv⟩
                rw [hn.2] at henv
                refine (hcloser (n + 1) (Prod.Lex.toLex_lt_toLex.mpr (Or.inr ⟨?_, ?_⟩))).elim
                · rw [hscript, hn.1]
                · exact hrank _ _ henv
            | some e =>
                rw [he] at hstep
                rcases hstep.work_of_some with hless | ⟨hwork, hstate⟩
                · rw [hn.1] at hless
                  exact (hcloser (n + 1) (Prod.Lex.toLex_lt_toLex.mpr (Or.inl hless))).elim
                · exact ⟨hwork.trans hn.1, hstate.trans hn.2⟩
      by_cases hrest : ∀ y, ¬ W.env x y
      · exact ρ.false_of_rest hfinish (fun n => (hsame n).2) hrest
      · push Not at hrest
        rcases hrest with ⟨y, henv⟩
        rcases hfair 0 (fun n _ => ⟨y, by rw [(hsame n).2]; exact henv⟩) with ⟨n, -, hnone⟩
        have hstep := ρ.step n
        rw [hnone] at hstep
        have hmoved := hstep.env_of_none.2
        rw [(hsame n).2, (hsame (n + 1)).2] at hmoved
        exact lt_irrefl _ (hrank _ _ hmoved)

end Endless

/-! ## Termination -/

/-- However the two sides are scheduled, the script ends unless the environment is
starved. -/
structure Terminates (W : Plant P κ σ) (s : Script P κ) (x : σ) : Prop where
  /-- An interleaving that cannot go on has finished the script. -/
  stuck : ∀ trace s' y, Run W s x trace s' y → (∀ e s'' z, ¬ Step W s' y e s'' z) → s' = []
  /-- An interleaving that goes on for ever is unfair to the environment. -/
  endless : ∀ ρ : Endless W s x, ¬ ρ.Fair

/-- A script whose every point can finish terminates. -/
theorem terminates_of_canFinish (rank : σ → ℕ) (hrank : ∀ x y, W.env x y → rank y < rank x)
    (hfinish : ∀ trace s' y, Run W s x trace s' y → CanFinish W s' y) : Terminates W s x where
  stuck trace s' y hrun hstuck := (hfinish trace s' y hrun).eq_nil hstuck
  endless ρ := ρ.not_fair rank hrank hfinish

end DotMatrixPrinter.LineScript
