/-
# Prompt interleavings

One kind of interleaving is singled out here: the environment moves until it is at rest
whenever the script is about to do something, so every poll ends at its first reading.
What the script shows is then known in advance. Every script that can be finished from
wherever it gets to has such an interleaving.

A map of plants that the script cannot see through carries interleavings from one plant
to another, with the same trace. So what the map changes the script cannot find out.
-/

import DotMatrixPrinter.LineScript.Interleaving

namespace DotMatrixPrinter.LineScript

universe u v w

variable {P : Type u} {κ : Type v} {σ τ : Type w}

/-! ## What is seen when every poll ends at once -/

/-- The events of a command that is answered at once. What a sample reads is not known in
advance. -/
def Command.prompt : Command P κ → Trace P κ
  | .write line level => [.write line level]
  | .pause us => [.pause us]
  | .sample => []
  | .pollWhile level _ => [.read !level]
  | .note mark => [.note mark]

/-- The events of a script whose polls end at their first readings. -/
def promptTrace (s : Script P κ) : Trace P κ := s.flatMap Command.prompt

@[simp]
theorem promptTrace_append (s₁ s₂ : Script P κ) :
    promptTrace (s₁ ++ s₂) = promptTrace s₁ ++ promptTrace s₂ := List.flatMap_append

variable {W : Plant P κ σ} {W' : Plant P κ τ} {s s₁ s₂ s' : Script P κ} {x y z : σ}
  {trace trace' : Trace P κ}

/-- A command that goes ahead has its prompt step. -/
theorem exists_prompt_step {c : Command P κ} (hc : GoesAhead W x c) (hsample : c ≠ .sample)
    (s : Script P κ) : ∃ y, Run W (c :: s) x c.prompt s y := by
  cases c with
  | write line level => exact ⟨_, .single (.write hc)⟩
  | pause us => exact ⟨_, .single (.pause us)⟩
  | sample => exact absurd rfl hsample
  | note mark => exact ⟨_, .single (.note mark)⟩
  | pollWhile level us =>
      have hinput : W.input x = !level := Bool.eq_not.mpr hc
      have hleave : Run W (.pollWhile level us :: s) x [.read (W.input x)] s x :=
        .single (.leave hc)
      rw [hinput] at hleave
      exact ⟨x, hleave⟩

/-- Every script that can always be finished has a prompt interleaving, if the
environment comes to rest when it is left alone. -/
theorem exists_prompt
    (hrest : ∀ x, ∃ y, Relation.ReflTransGen W.env x y ∧ ∀ z, ¬ W.env y z)
    (hsample : .sample ∉ s)
    (hfinish : ∀ trace s' y, Run W s x trace s' y → CanFinish W s' y) :
    ∃ y, Run W s x (promptTrace s) [] y := by
  induction s generalizing x with
  | nil => exact ⟨x, .start⟩
  | cons c s ih =>
      simp only [List.mem_cons, not_or] at hsample
      obtain ⟨y, henv, hstill⟩ := hrest x
      have hahead := (hfinish _ _ _ (.of_env henv)).goesAhead hstill
      obtain ⟨z, hstep⟩ := exists_prompt_step hahead (Ne.symm hsample.1) s
      have hhere := (Run.of_env henv).trans hstep
      rw [List.nil_append] at hhere
      obtain ⟨y', hlater⟩ := ih hsample.2 fun _ _ _ hrun => hfinish _ _ _ (hhere.trans hrun)
      exact ⟨y', hhere.trans hlater⟩

/-! ## Maps of plants -/

/-- A map the script cannot see through: the input is the same, a write waits no longer,
and the environment can do what it could. -/
structure Plant.Maps (W : Plant P κ σ) (W' : Plant P κ τ) (f : σ → τ) : Prop where
  input : ∀ x, W'.input (f x) = W.input x
  mayWrite : ∀ x line level, W.mayWrite x line level → W'.mayWrite (f x) line level
  write : ∀ x line level, W'.write (f x) line level = f (W.write x line level)
  note : ∀ x mark, W'.note (f x) mark = f (W.note x mark)
  env : ∀ x y, W.env x y → W'.env (f x) (f y)

variable {f : σ → τ}

theorem Plant.Maps.step (hf : W.Maps W' f) {e : Option (Event P κ)} (h : Step W s x e s' y) :
    Step W' s (f x) e s' (f y) := by
  cases h with
  | env h => exact .env (hf.env _ _ h)
  | pause us => exact .pause us
  | write h =>
      rw [← hf.write]
      exact .write (hf.mayWrite _ _ _ h)
  | note mark =>
      rw [← hf.note]
      exact .note mark
  | sample =>
      rw [← hf.input]
      exact .sample
  | leave h =>
      rw [← hf.input] at h ⊢
      exact .leave h
  | again h =>
      rw [← hf.input] at h
      exact .again h

/-- A map of plants carries interleavings, and the script sees the same. -/
theorem Plant.Maps.run (hf : W.Maps W' f) (h : Run W s x trace s' y) :
    Run W' s (f x) trace s' (f y) := by
  induction h with
  | start => exact .start
  | extend _ step ih => exact ih.extend (hf.step step)

/-- Two scripts run in sequence. -/
theorem Run.seq (h : Run W s₁ x trace [] y) (h' : Run W s₂ y trace' s' z) :
    Run W (s₁ ++ s₂) x (trace ++ trace') s' z :=
  (h.append s₂).trans h'

end DotMatrixPrinter.LineScript
