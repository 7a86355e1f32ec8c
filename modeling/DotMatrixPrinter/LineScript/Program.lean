/-
# Programs that answer inputs with scripts

A program waits for an input, answers it with a script, and is deaf until that script
has been run. Here such a program is a machine whose outputs have a script each, and it
is run against a plant: a move is a step of the interleaving of the script with the
environment, or, when nothing is left of the script, the next input.

Two results carry over from scripts to programs. Wherever a program has got to, its
moves on the plant are one interleaved run of the scripts of all its answers, so an
outline of that long script holds at every point. And a program that moves on for ever
without starving the environment takes inputs again and again, if each of its points
can still finish.
-/

import DotMatrixPrinter.LineScript.Fairness
import DotMatrixPrinter.Math.Transducer

namespace DotMatrixPrinter.LineScript

universe u v w

variable {P : Type u} {κ : Type v} {σ : Type w} {τ ι ο : Type*}

/-- A machine, and the script each of its outputs stands for. -/
structure Program (P : Type u) (κ : Type v) (τ ι ο : Type*) where
  machine : Math.FallibleTransducer τ ι ο
  script : ο → Script P κ

/-- The memory of a program, what is left of its last answer, and the plant. -/
structure Config (P : Type u) (κ : Type v) (σ : Type w) (τ : Type*) where
  memory : τ
  script : Script P κ
  plant : σ

/-- What one move does. -/
inductive Action (P : Type u) (κ : Type v) (ι : Type*)
  /-- A step of the script, with its event, or of the environment. -/
  | step (event : Option (Event P κ))
  /-- The program takes an input. -/
  | take (input : ι)

/-- The event of a move, if it has one. -/
def Action.event : Action P κ ι → Option (Event P κ)
  | .step e => e
  | .take _ => none

/-- The input of a move, if it takes one. -/
def Action.input : Action P κ ι → Option ι
  | .step _ => none
  | .take i => some i

/-- One move of a program on a plant. -/
inductive Move (A : Program P κ τ ι ο) (W : Plant P κ σ) :
    Config P κ σ τ → Action P κ ι → Config P κ σ τ → Prop
  | step {m : τ} {s s' : Script P κ} {x y : σ} {e : Option (Event P κ)}
      (h : Step W s x e s' y) : Move A W ⟨m, s, x⟩ (.step e) ⟨m, s', y⟩
  | take {m m' : τ} {x : σ} {i : ι} {out : List ο} (h : A.machine.step m i = some (m', out)) :
      Move A W ⟨m, [], x⟩ (.take i) ⟨m', out.flatMap A.script, x⟩

/-- Moves in a row, with the inputs they took and the events they caused. -/
inductive Reaches (A : Program P κ τ ι ο) (W : Plant P κ σ) (c : Config P κ σ τ) :
    List ι → Trace P κ → Config P κ σ τ → Prop
  | start : Reaches A W c [] [] c
  | extend {inputs : List ι} {trace : Trace P κ} {d d' : Config P κ σ τ} {a : Action P κ ι}
      (prior : Reaches A W c inputs trace d) (move : Move A W d a d') :
      Reaches A W c (inputs ++ a.input.toList) (trace ++ a.event.toList) d'

variable {A : Program P κ τ ι ο} {W : Plant P κ σ} {c d : Config P κ σ τ}
  {inputs : List ι} {trace : Trace P κ}

namespace Reaches

/-- A run of what is left of the script, the program taking no input. -/
theorem of_run {m : τ} {s s' : Script P κ} {x y : σ} (h : Run W s x trace s' y) :
    Reaches A W ⟨m, s, x⟩ [] trace ⟨m, s', y⟩ := by
  induction h with
  | start => exact .start
  | extend _ step ih => exact ih.extend (.step step)

theorem trans {e : Config P κ σ τ} {inputs' : List ι} {trace' : Trace P κ}
    (h : Reaches A W c inputs trace d) (h' : Reaches A W d inputs' trace' e) :
    Reaches A W c (inputs ++ inputs') (trace ++ trace') e := by
  induction h' with
  | start => simpa using h
  | extend _ move ih =>
      rw [← List.append_assoc, ← List.append_assoc]
      exact ih.extend move

/-- The moves of a program are one interleaved run of the scripts of all its answers,
and its memory is that of its machine. -/
theorem exists_run (h : Reaches A W c inputs trace d) :
    ∃ out, A.machine.run c.memory inputs = some (d.memory, out) ∧
      Run W (c.script ++ out.flatMap A.script) c.plant trace d.script d.plant := by
  induction h with
  | start =>
      refine ⟨[], rfl, ?_⟩
      rw [List.flatMap_nil, List.append_nil]
      exact .start
  | extend _ move ih =>
      rcases ih with ⟨out, hmachine, hrun⟩
      cases move with
      | step hstep =>
          refine ⟨out, ?_, hrun.extend hstep⟩
          rw [Action.input, Option.toList_none, List.append_nil]
          exact hmachine
      | @take m m' x i here hstep =>
          refine ⟨out ++ here, Math.FallibleTransducer.run_concat_of_step hmachine hstep, ?_⟩
          have hlonger := hrun.append (here.flatMap A.script)
          rw [List.flatMap_append, ← List.append_assoc, Action.event, Option.toList_none,
            List.append_nil]
          exact hlonger

end Reaches

/-! ## Programs that move on for ever -/

/-- Moves without end. -/
structure Forever (A : Program P κ τ ι ο) (W : Plant P κ σ) (c : Config P κ σ τ) where
  config : ℕ → Config P κ σ τ
  action : ℕ → Action P κ ι
  config_zero : config 0 = c
  move : ∀ n, Move A W (config n) (action n) (config (n + 1))

namespace Forever

variable (ρ : Forever A W c)

/-- The inputs taken in the first `n` moves. -/
def taken : ℕ → List ι
  | 0 => []
  | n + 1 => taken n ++ (ρ.action n).input.toList

/-- An environment that has a step at every moment from some point on takes one. -/
def Fair : Prop :=
  ∀ n, (∀ m, n ≤ m → ∃ y, W.env (ρ.config m).plant y) → ∃ m, n ≤ m ∧ ρ.action m = .step none

/-- Every moment is reached. -/
theorem reaches (n : ℕ) : ∃ trace, Reaches A W c (ρ.taken n) trace (ρ.config n) := by
  induction n with
  | zero =>
      rw [ρ.config_zero]
      exact ⟨[], .start⟩
  | succ n ih =>
      rcases ih with ⟨trace, hprior⟩
      exact ⟨_, hprior.extend (ρ.move n)⟩

theorem taken_isPrefix {n m : ℕ} (h : n ≤ m) : ρ.taken n <+: ρ.taken m := by
  induction m, h using Nat.le_induction with
  | base => exact List.prefix_rfl
  | succ m _ ih => exact ih.trans (List.prefix_append _ _)

/-- The moves from the `n`-th on, if none of them takes an input. -/
def tail (n : ℕ) (hdeaf : ∀ m, n ≤ m → ∀ i, ρ.action m ≠ .take i) :
    Endless W (ρ.config n).script (ρ.config n).plant where
  script m := (ρ.config (n + m)).script
  state m := (ρ.config (n + m)).plant
  event m := (ρ.action (n + m)).event
  script_zero := rfl
  state_zero := rfl
  step m := by
    have hmove := ρ.move (n + m)
    cases ha : ρ.action (n + m) with
    | take i => exact absurd ha (hdeaf (n + m) (Nat.le_add_right n m) i)
    | step e =>
        rw [ha] at hmove
        generalize ρ.config (n + m) = d, ρ.config (n + m + 1) = d' at hmove
        cases hmove with
        | step h => exact h

theorem fair_tail {n : ℕ} {hdeaf : ∀ m, n ≤ m → ∀ i, ρ.action m ≠ .take i} (h : ρ.Fair) :
    (ρ.tail n hdeaf).Fair := by
  intro k henv
  have hlater : ∀ m, n + k ≤ m → ∃ y, W.env (ρ.config m).plant y := by
    intro m hm
    have hshift : ∃ y, W.env (ρ.config (n + (m - n))).plant y := henv (m - n) (by omega)
    rwa [show n + (m - n) = m by omega] at hshift
  rcases h (n + k) hlater with ⟨m, hm, hnone⟩
  refine ⟨m - n, by omega, ?_⟩
  show (ρ.action (n + (m - n))).event = none
  rw [show n + (m - n) = m by omega, hnone]
  rfl

/-- A program that is fair to its environment takes inputs again and again, when every
point it can reach can still finish and the environment's rank falls with each of its
steps. -/
theorem exists_take (rank : σ → ℕ) (hrank : ∀ x y, W.env x y → rank y < rank x)
    (hfinish : ∀ inputs trace d, Reaches A W c inputs trace d → CanFinish W d.script d.plant)
    (hfair : ρ.Fair) (n : ℕ) : ∃ m i, n ≤ m ∧ ρ.action m = .take i := by
  by_contra hnever
  push Not at hnever
  have hdeaf : ∀ m, n ≤ m → ∀ i, ρ.action m ≠ .take i := fun m hm i => hnever m i hm
  refine (ρ.tail n hdeaf).not_fair rank hrank ?_ (ρ.fair_tail hfair)
  intro trace s y hrun
  rcases ρ.reaches n with ⟨before, hprior⟩
  exact hfinish _ _ ⟨(ρ.config n).memory, s, y⟩ (hprior.trans (.of_run hrun))

/-- One move in front of endless ones. -/
def cons {c' : Config P κ σ τ} {a : Action P κ ι} (h : Move A W c' a c) (ρ : Forever A W c) :
    Forever A W c' where
  config
    | 0 => c'
    | n + 1 => ρ.config n
  action
    | 0 => a
    | n + 1 => ρ.action n
  config_zero := rfl
  move
    | 0 => by
        show Move A W c' a (ρ.config 0)
        rw [ρ.config_zero]
        exact h
    | n + 1 => ρ.move n

/-- The same move again and again, if it changes nothing. -/
def stay {a : Action P κ ι} (h : Move A W c a c) : Forever A W c where
  config _ := c
  action _ := a
  config_zero := rfl
  move _ := h

end Forever

/-- Endless moves from a point that is reached are the end of endless moves from the
start. -/
theorem Reaches.exists_forever (h : Reaches A W c inputs trace d) (ρ : Forever A W d) :
    ∃ (ρ' : Forever A W c) (n : ℕ), ∀ m, ρ'.config (n + m) = ρ.config m ∧
      ρ'.action (n + m) = ρ.action m := by
  induction h with
  | start => exact ⟨ρ, 0, fun m => by simp⟩
  | extend _ move ih =>
      rcases ih (ρ.cons move) with ⟨ρ', n, htail⟩
      refine ⟨ρ', n + 1, fun m => ?_⟩
      rw [Nat.add_assoc, Nat.add_comm 1 m]
      exact htail (m + 1)

end DotMatrixPrinter.LineScript
