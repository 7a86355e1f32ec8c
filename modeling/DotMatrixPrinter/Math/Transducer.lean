/-
# Transducers and their refinement

A transducer answers every input with a new state and a list of outputs. A
fallible one may instead have no answer, which is how a program that would leave
defined behavior appears. A fallible transducer refines a total one when a
relation between their states is preserved by every step, one concrete input
standing for a list of abstract ones and each concrete output for a list of
abstract ones. Refinement then holds of whole runs, and says of the concrete
machine both that it never fails and what it puts out.
-/

import Mathlib.Data.Nat.Notation
import Mathlib.Data.List.Basic

namespace DotMatrixPrinter.Math

universe u v w

/-- A total machine with outputs. -/
structure Transducer (σ : Type u) (ι : Type v) (ο : Type w) where
  step : σ → ι → σ × List ο

/-- A machine with outputs whose step may have no result. -/
structure FallibleTransducer (σ : Type u) (ι : Type v) (ο : Type w) where
  step : σ → ι → Option (σ × List ο)

variable {σ τ : Type*} {ι ι' : Type*} {ο ο' : Type*}

namespace Transducer

variable (N : Transducer τ ι ο)

/-- Feed a list of inputs, collecting the outputs. -/
def run : τ → List ι → τ × List ο
  | y, [] => (y, [])
  | y, i :: inputs =>
      ((run (N.step y i).1 inputs).1, (N.step y i).2 ++ (run (N.step y i).1 inputs).2)

@[simp]
theorem run_nil (y : τ) : N.run y [] = (y, []) := rfl

@[simp]
theorem run_singleton (y : τ) (i : ι) : N.run y [i] = N.step y i := by
  simp [run]

theorem run_append (y : τ) (first later : List ι) :
    N.run y (first ++ later) =
      ((N.run (N.run y first).1 later).1,
        (N.run y first).2 ++ (N.run (N.run y first).1 later).2) := by
  induction first generalizing y with
  | nil => simp
  | cons i first ih => simp [run, ih]

/-- A machine that goes where another one goes, and puts out what that one puts out
after a translation, does so on every run. -/
theorem run_map {N : Transducer τ ι ο} {N' : Transducer τ ι ο'} {f : ο → ο'}
    (h : ∀ y i, N'.step y i = ((N.step y i).1, (N.step y i).2.map f)) (y : τ)
    (inputs : List ι) : N'.run y inputs = ((N.run y inputs).1, (N.run y inputs).2.map f) := by
  induction inputs generalizing y with
  | nil => rfl
  | cons i inputs ih => rw [run, run, h, ih, List.map_append]

/-- A machine that begins every answer with its input loses none of them. -/
theorem run_injective {N : Transducer τ ι ο} {echo : ι → ο} (hecho : Function.Injective echo)
    (h : ∀ y i, ∃ rest, (N.step y i).2 = echo i :: rest) {y : τ} {first later : List ι}
    (heq : (N.run y first).2 = (N.run y later).2) : first = later := by
  induction first generalizing y later with
  | nil =>
      cases later with
      | nil => rfl
      | cons j later =>
          obtain ⟨rest, hrest⟩ := h y j
          simp [run, hrest] at heq
  | cons i first ih =>
      obtain ⟨rest, hrest⟩ := h y i
      cases later with
      | nil => simp [run, hrest] at heq
      | cons j later =>
          obtain ⟨rest', hrest'⟩ := h y j
          have hhead : echo i = echo j := by
            simp only [run, hrest, hrest', List.cons_append, List.cons.injEq] at heq
            exact heq.1
          obtain rfl := hecho hhead
          simp only [run] at heq
          rw [ih (List.append_cancel_left heq)]

end Transducer

namespace FallibleTransducer

variable (M : FallibleTransducer σ ι ο)

/-- Feed a list of inputs, collecting the outputs, as long as every step has a result. -/
def run : σ → List ι → Option (σ × List ο)
  | x, [] => some (x, [])
  | x, i :: inputs =>
      (M.step x i).bind fun first =>
        (run first.1 inputs).map fun later => (later.1, first.2 ++ later.2)

variable {M}

theorem run_cons_of_step {x x' x'' : σ} {i : ι} {inputs : List ι} {here later : List ο}
    (hstep : M.step x i = some (x', here)) (hrun : M.run x' inputs = some (x'', later)) :
    M.run x (i :: inputs) = some (x'', here ++ later) := by
  simp [run, hstep, hrun]

/-- A run that has a result is continued by a step that has one. -/
theorem run_concat_of_step {x x' x'' : σ} {inputs : List ι} {i : ι} {before here : List ο}
    (hrun : M.run x inputs = some (x', before)) (hstep : M.step x' i = some (x'', here)) :
    M.run x (inputs ++ [i]) = some (x'', before ++ here) := by
  induction inputs generalizing x before with
  | nil =>
      simp only [run, Option.some.injEq, Prod.mk.injEq] at hrun
      rw [← hrun.1] at hstep
      rw [← hrun.2]
      simp [run, hstep]
  | cons j inputs ih =>
      simp only [run, Option.bind_eq_some_iff, Option.map_eq_some_iff, Prod.exists,
        Prod.mk.injEq] at hrun
      rcases hrun with ⟨y, first, hfirst, z, later, hlater, rfl, rfl⟩
      rw [List.append_assoc]
      exact run_cons_of_step hfirst (ih hlater)

variable (M) in
/-- A refinement of a total machine. `feed` is the abstract input a concrete one
stands for, `view` the abstract output a concrete one shows. -/
structure Refines (N : Transducer τ ι' ο') (feed : ι → List ι') (view : ο → List ο')
    (R : σ → τ → Prop) : Prop where
  step : ∀ x y i, R x y → ∃ x' out, M.step x i = some (x', out) ∧
    R x' (N.run y (feed i)).1 ∧ out.flatMap view = (N.run y (feed i)).2

/-- Related machines stay related, the concrete one always has a next state, and it
shows exactly the abstract outputs. -/
theorem Refines.run {N : Transducer τ ι' ο'} {feed : ι → List ι'} {view : ο → List ο'}
    {R : σ → τ → Prop} (h : M.Refines N feed view R) {x : σ} {y : τ} (hxy : R x y)
    (inputs : List ι) :
    ∃ x' out, M.run x inputs = some (x', out) ∧
      R x' (N.run y (inputs.flatMap feed)).1 ∧
      out.flatMap view = (N.run y (inputs.flatMap feed)).2 := by
  induction inputs generalizing x y with
  | nil => exact ⟨x, [], rfl, hxy, rfl⟩
  | cons i inputs ih =>
      rcases h.step x y i hxy with ⟨x', here, hstep, hrel, hhere⟩
      rcases ih hrel with ⟨x'', later, hrun, hrel', hlater⟩
      refine ⟨x'', here ++ later, run_cons_of_step hstep hrun, ?_, ?_⟩
      · rw [List.flatMap_cons, N.run_append]
        exact hrel'
      · rw [List.flatMap_cons, N.run_append, List.flatMap_append, hhere, hlater]

/-- A run that is given ends in a related state and shows exactly the abstract outputs. -/
theorem Refines.of_run {N : Transducer τ ι' ο'} {feed : ι → List ι'} {view : ο → List ο'}
    {R : σ → τ → Prop} (h : M.Refines N feed view R) {x x' : σ} {y : τ} (hxy : R x y)
    {inputs : List ι} {out : List ο} (hrun : M.run x inputs = some (x', out)) :
    R x' (N.run y (inputs.flatMap feed)).1 ∧
      out.flatMap view = (N.run y (inputs.flatMap feed)).2 := by
  rcases h.run hxy inputs with ⟨x'', out', hrun', hrel, hout⟩
  obtain ⟨rfl, rfl⟩ := Prod.mk.inj (Option.some.inj (hrun'.symm.trans hrun))
  exact ⟨hrel, hout⟩

/-- An invariant of the state and of everything put out so far, under which every
step has a result, holds along every run, and every run has a result. -/
theorem run_of_invariant {J : σ → List ο → Prop}
    (hstep : ∀ x before i, J x before → ∃ x' here, M.step x i = some (x', here) ∧
      J x' (before ++ here))
    {x : σ} {before : List ο} (hx : J x before) (inputs : List ι) :
    ∃ x' out, M.run x inputs = some (x', out) ∧ J x' (before ++ out) := by
  induction inputs generalizing x before with
  | nil => exact ⟨x, [], rfl, by simpa using hx⟩
  | cons i inputs ih =>
      rcases hstep x before i hx with ⟨x', here, hhere, hx'⟩
      rcases ih hx' with ⟨x'', later, hlater, hx''⟩
      refine ⟨x'', here ++ later, run_cons_of_step hhere hlater, ?_⟩
      rw [← List.append_assoc]
      exact hx''

end FallibleTransducer

end DotMatrixPrinter.Math
