/-
# Scripts interleaved with an environment

A script does not run against a list of readings fixed in advance when the input
answers what the script writes. Here a script runs against a plant: a state the
writes change, an input computed from it, and steps the environment takes on its
own between any two commands. Every order of command steps and environment steps
is a run.

`Outline` is the triple of this setting. It asks of every interleaving that an
assertion holds whenever a command is next, that the postcondition holds whenever
the script is done, and that from wherever the run has got it can still finish.
Its rules compose outlines along a script; each rule for a single command asks
for assertions that the environment's steps preserve. `exec_of_run` connects the
two semantics: an interleaved run that finishes is a run on the readings it saw.
-/

import DotMatrixPrinter.LineScript.Basic
import Mathlib.Logic.Relation

namespace DotMatrixPrinter.LineScript

universe u v w

variable {P : Type u} {κ : Type v} {σ : Type w}

/-- What a script runs against. `mayWrite` is the timing the two sides agree on:
a write that would come too early for the environment waits. -/
structure Plant (P : Type u) (κ : Type v) (σ : Type w) where
  input : σ → Bool
  mayWrite : σ → P → Bool → Prop
  write : σ → P → Bool → σ
  note : σ → κ → σ
  env : σ → σ → Prop

/-- One step: either the environment moves or the script's next command does. -/
inductive Step (W : Plant P κ σ) :
    Script P κ → σ → Option (Event P κ) → Script P κ → σ → Prop
  | env {s : Script P κ} {x y : σ} (h : W.env x y) : Step W s x none s y
  | write {s : Script P κ} {x : σ} {line : P} {level : Bool} (h : W.mayWrite x line level) :
      Step W (.write line level :: s) x (some (.write line level)) s (W.write x line level)
  | pause {s : Script P κ} {x : σ} (us : ℕ) :
      Step W (.pause us :: s) x (some (.pause us)) s x
  | note {s : Script P κ} {x : σ} (mark : κ) :
      Step W (.note mark :: s) x (some (.note mark)) s (W.note x mark)
  | sample {s : Script P κ} {x : σ} : Step W (.sample :: s) x (some (.read (W.input x))) s x
  | leave {s : Script P κ} {x : σ} {level : Bool} {us : ℕ} (h : W.input x ≠ level) :
      Step W (.pollWhile level us :: s) x (some (.read (W.input x))) s x
  | again {s : Script P κ} {x : σ} {level : Bool} {us : ℕ} (h : W.input x = level) :
      Step W (.pollWhile level us :: s) x (some (.read level))
        (.pause us :: .pollWhile level us :: s) x

/-- An interleaved run, with the script's events in order. -/
inductive Run (W : Plant P κ σ) (s : Script P κ) (x : σ) :
    Trace P κ → Script P κ → σ → Prop
  | start : Run W s x [] s x
  | extend {trace : Trace P κ} {s' s'' : Script P κ} {y z : σ} {e : Option (Event P κ)}
      (prior : Run W s x trace s' y) (step : Step W s' y e s'' z) :
      Run W s x (trace ++ e.toList) s'' z

variable {W : Plant P κ σ} {s s₁ s₂ s' s'' : Script P κ} {x y z : σ}
  {trace trace' : Trace P κ} {e : Option (Event P κ)}

namespace Run

theorem single (h : Step W s x e s' y) : Run W s x e.toList s' y := by
  simpa using Run.extend Run.start h

theorem trans (h : Run W s x trace s' y) (h' : Run W s' y trace' s'' z) :
    Run W s x (trace ++ trace') s'' z := by
  induction h' with
  | start => simpa using h
  | extend _ step ih => simpa using ih.extend step

/-- What holds at the start and is preserved by every step holds at the end. -/
theorem invariant {J : Script P κ → σ → Prop} (h : Run W s x trace s' y) (hstart : J s x)
    (hstep : ∀ {s' s'' y z e}, J s' y → Step W s' y e s'' z → J s'' z) : J s' y := by
  induction h with
  | start => exact hstart
  | extend _ step ih => exact hstep ih step

/-- The environment alone may move any number of times. -/
theorem of_env (h : Relation.ReflTransGen W.env x y) : Run W s x [] s y := by
  induction h with
  | refl => exact .start
  | tail _ henv ih => exact ih.extend (.env henv)

end Run

/-- A step of a script is a step of the script with more commands behind it. -/
theorem Step.append (h : Step W s₁ x e s' y) (s₂ : Script P κ) :
    Step W (s₁ ++ s₂) x e (s' ++ s₂) y := by
  cases h with
  | env h => exact .env h
  | write h => exact .write h
  | pause us => exact .pause us
  | note mark => exact .note mark
  | sample => exact .sample
  | leave h => exact .leave h
  | again h => exact .again h

/-- While commands of the first script are left, a step does not reach the second. -/
theorem Step.of_append {c : Command P κ} (h : Step W (c :: s₁ ++ s₂) x e s'' y) :
    ∃ s', s'' = s' ++ s₂ ∧ Step W (c :: s₁) x e s' y := by
  cases h with
  | env h => exact ⟨c :: s₁, rfl, .env h⟩
  | write h => exact ⟨s₁, rfl, .write h⟩
  | pause us => exact ⟨s₁, rfl, .pause us⟩
  | note mark => exact ⟨s₁, rfl, .note mark⟩
  | sample => exact ⟨s₁, rfl, .sample⟩
  | leave h => exact ⟨s₁, rfl, .leave h⟩
  | again h => exact ⟨_ :: _ :: s₁, rfl, .again h⟩

theorem Run.append (h : Run W s₁ x trace s' y) (s₂ : Script P κ) :
    Run W (s₁ ++ s₂) x trace (s' ++ s₂) y := by
  induction h with
  | start => exact .start
  | extend _ step ih => exact ih.extend (step.append s₂)

/-- A run of two scripts in sequence is still in the first, or has finished the
first and is in the second. -/
theorem Run.split (h : Run W (s₁ ++ s₂) x trace s'' y) :
    (∃ s', s'' = s' ++ s₂ ∧ Run W s₁ x trace s' y) ∨
      ∃ first later m, Run W s₁ x first [] m ∧ Run W s₂ m later s'' y := by
  induction h with
  | start => exact Or.inl ⟨s₁, rfl, .start⟩
  | extend _ step ih =>
      rcases ih with ⟨s', rfl, hrun⟩ | ⟨first, later, m, hfirst, hlater⟩
      · cases s' with
        | nil => exact Or.inr ⟨_, _, _, hrun, Run.single step⟩
        | cons c s' =>
            rcases step.of_append with ⟨s', rfl, hstep⟩
            exact Or.inl ⟨s', rfl, hrun.extend hstep⟩
      · exact Or.inr ⟨first, _, m, hfirst, hlater.extend step⟩

/-! ## Interleaved runs are runs on readings -/

/-- The readings of a trace. -/
def readings (trace : Trace P κ) : List Bool :=
  trace.filterMap fun
    | .read level => some level
    | _ => none

@[simp]
theorem readings_append (first later : Trace P κ) :
    readings (first ++ later) = readings first ++ readings later :=
  List.filterMap_append

/-- One step, seen from the script: what was left to run ran on one event more. -/
theorem exec_of_step (h : Step W s x e s' y) {rs rest : List Bool} {later : Trace P κ}
    (hlater : exec s' rs = some (later, rest)) :
    exec s (readings e.toList ++ rs) = some (e.toList ++ later, rest) := by
  cases h with
  | env h => exact hlater
  | write h => exact exec_cons_eq_some.mpr ⟨_, _, _, rfl, hlater, rfl⟩
  | pause us => exact exec_cons_eq_some.mpr ⟨_, _, _, rfl, hlater, rfl⟩
  | note mark => exact exec_cons_eq_some.mpr ⟨_, _, _, rfl, hlater, rfl⟩
  | sample => exact exec_cons_eq_some.mpr ⟨_, _, _, rfl, hlater, rfl⟩
  | leave h =>
      refine exec_cons_eq_some.mpr ⟨_, _, _, ?_, hlater, rfl⟩
      simp [Command.exec, poll, h, readings]
  | again h =>
      obtain ⟨_, _, _, hpause, hpoll, rfl⟩ := exec_cons_eq_some.mp hlater
      obtain ⟨polled, _, later, hloop, htail, rfl⟩ := exec_cons_eq_some.mp hpoll
      simp only [Command.exec, Option.some.injEq, Prod.mk.injEq] at hpause hloop
      obtain ⟨rfl, rfl⟩ := hpause
      refine exec_cons_eq_some.mpr ⟨.read _ :: .pause _ :: polled, _, later, ?_, htail, rfl⟩
      simp [Command.exec, poll, readings, hloop]

/-- A run that has got to `s'` is the beginning of every run on readings that ends as
`s'` does. -/
theorem exec_append_of_run (h : Run W s x trace s' y) {rs rest : List Bool}
    {later : Trace P κ} (hlater : exec s' rs = some (later, rest)) :
    exec s (readings trace ++ rs) = some (trace ++ later, rest) := by
  induction h generalizing rs later with
  | start => exact hlater
  | extend _ step ih =>
      have hstep := ih (exec_of_step step hlater)
      simpa using hstep

/-- An interleaved run that finishes is a run of the script on the readings the
environment gave it. -/
theorem exec_of_run (h : Run W s x trace [] y) :
    exec s (readings trace) = some (trace, []) := by
  simpa using exec_append_of_run h (exec_nil [])

/-! ## Outlines -/

/-- The script can still be finished from here. -/
def CanFinish (W : Plant P κ σ) (s : Script P κ) (x : σ) : Prop :=
  ∃ trace y, Run W s x trace [] y

/-- The command goes ahead as things are: a write need not wait, a poll ends. -/
def GoesAhead (W : Plant P κ σ) (x : σ) : Command P κ → Prop
  | .write line level => W.mayWrite x line level
  | .pollWhile level _ => W.input x ≠ level
  | _ => True

/-- Where the environment is at rest, a script that can still be finished is not
blocked: a blocked command would leave everything as it is for good. -/
theorem CanFinish.goesAhead {c : Command P κ} (h : CanFinish W (c :: s) x)
    (hrest : ∀ y, ¬ W.env x y) : GoesAhead W x c := by
  by_contra hblocked
  rcases h with ⟨trace, y, hrun⟩
  have hpoint := hrun.invariant
    (J := fun s' y => y = x ∧ (s' = c :: s ∨ ∃ us, s' = .pause us :: c :: s))
    ⟨rfl, Or.inl rfl⟩ (by
      rintro _ s'' _ z e ⟨rfl, rfl | ⟨us, rfl⟩⟩ hstep
      · cases hstep with
        | env h => exact absurd h (hrest z)
        | write h | leave h => exact absurd h hblocked
        | pause | note | sample => exact absurd trivial hblocked
        | again h => exact ⟨rfl, Or.inr ⟨_, rfl⟩⟩
      · cases hstep with
        | env h => exact absurd h (hrest z)
        | pause => exact ⟨rfl, Or.inl rfl⟩)
  rcases hpoint with ⟨-, hnil | ⟨us, hnil⟩⟩
  · cases hnil
  · cases hnil

/-- What an outline promises of a point an interleaving has reached. -/
structure Outlined (W : Plant P κ σ) (I : Command P κ → σ → Prop) (R : σ → Prop)
    (s : Script P κ) (x : σ) : Prop where
  next : ∀ c rest, s = c :: rest → I c x
  done : s = [] → R x
  canFinish : CanFinish W s x

/-- Every point of every interleaving that starts in `Q` meets the outline. -/
def Outline (W : Plant P κ σ) (I : Command P κ → σ → Prop) (Q : σ → Prop)
    (s : Script P κ) (R : σ → Prop) : Prop :=
  ∀ x, Q x → ∀ trace s' y, Run W s x trace s' y → Outlined W I R s' y

/-- An assertion the environment cannot falsify. -/
def Stable (W : Plant P κ σ) (Q : σ → Prop) : Prop := ∀ x y, Q x → W.env x y → Q y

variable {I : Command P κ → σ → Prop} {Q M R : σ → Prop}

namespace Outline

theorem nil (hQ : Stable W Q) : Outline W I Q [] Q := by
  intro x hx trace s' y hrun
  have hpoint := hrun.invariant (J := fun s' y => s' = [] ∧ Q y) ⟨rfl, hx⟩ (by
    rintro _ _ y z e ⟨rfl, hy⟩ hstep
    cases hstep with
    | env h => exact ⟨rfl, hQ y z hy h⟩)
  obtain ⟨rfl, hy⟩ := hpoint
  exact ⟨fun c rest h => by simp at h, fun _ => hy, [], y, .start⟩

theorem consequence {Q' R' : σ → Prop} (h : Outline W I Q s R) (hQ : ∀ x, Q' x → Q x)
    (hR : ∀ x, R x → R' x) : Outline W I Q' s R' := by
  intro x hx trace s' y hrun
  have hpoint := h x (hQ x hx) trace s' y hrun
  exact ⟨hpoint.next, fun hnil => hR y (hpoint.done hnil), hpoint.canFinish⟩

theorem append (h₁ : Outline W I Q s₁ M) (h₂ : Outline W I M s₂ R) :
    Outline W I Q (s₁ ++ s₂) R := by
  intro x hx trace s'' y hrun
  rcases hrun.split with ⟨s', rfl, hfirst⟩ | ⟨first, later, m, hfirst, hlater⟩
  · have hpoint := h₁ x hx _ _ _ hfirst
    obtain ⟨trace', m, hfinish⟩ := hpoint.canFinish
    have hmid := (h₁ x hx _ _ _ (hfirst.trans hfinish)).done rfl
    obtain ⟨trace'', z, hrest⟩ := (h₂ m hmid _ _ _ .start).canFinish
    refine ⟨?_, ?_, _, z, (hfinish.append s₂).trans hrest⟩
    · intro c rest heq
      cases s' with
      | nil => exact (h₂ y (hpoint.done rfl) _ _ _ .start).next c rest heq
      | cons c' s' =>
          obtain ⟨rfl, -⟩ := List.cons.inj heq
          exact hpoint.next _ _ rfl
    · intro heq
      obtain ⟨rfl, rfl⟩ := List.append_eq_nil_iff.mp heq
      exact (h₂ y (hpoint.done rfl) _ _ _ .start).done rfl
  · exact h₂ m ((h₁ x hx _ _ _ hfirst).done rfl) _ _ _ hlater

/-- A command that is not a poll: the environment keeps the precondition until the
command's step is taken, and can always make it possible. -/
private theorem command {c : Command P κ} (hQ : Stable W Q) (hR : Stable W R)
    (hI : ∀ x, Q x → I c x)
    (hstep : ∀ {x s' y e}, Q x → Step W [c] x (some e) s' y → s' = [] ∧ R y)
    (hlive : ∀ x, Q x → ∃ y z e, Relation.ReflTransGen W.env x y ∧ Step W [c] y e [] z) :
    Outline W I Q [c] R := by
  intro x hx trace s' y hrun
  have hpoint := hrun.invariant
    (J := fun s' y => (s' = [c] ∧ Q y) ∨ (s' = [] ∧ R y)) (Or.inl ⟨rfl, hx⟩) (by
      rintro _ s'' y z e (⟨rfl, hy⟩ | ⟨rfl, hy⟩) hs
      · cases e with
        | some e => exact Or.inr (hstep hy hs)
        | none => cases hs with
          | env h => exact Or.inl ⟨rfl, hQ y z hy h⟩
      · cases hs with
        | env h => exact Or.inr ⟨rfl, hR y z hy h⟩)
  rcases hpoint with ⟨rfl, hy⟩ | ⟨rfl, hy⟩
  · obtain ⟨m, z, e, henv, hs⟩ := hlive y hy
    refine ⟨?_, fun h => by simp at h, _, z, (Run.of_env henv).extend hs⟩
    intro c' rest heq
    obtain ⟨rfl, -⟩ := List.cons.inj heq
    exact hI y hy
  · exact ⟨fun c rest h => by simp at h, fun _ => hy, [], y, .start⟩

theorem write {line : P} {level : Bool} (hQ : Stable W Q) (hR : Stable W R)
    (hI : ∀ x, Q x → I (.write line level) x)
    (hstep : ∀ x, Q x → W.mayWrite x line level → R (W.write x line level))
    (hlive : ∀ x, Q x → ∃ y, Relation.ReflTransGen W.env x y ∧ W.mayWrite y line level) :
    Outline W I Q [.write line level] R := by
  refine command hQ hR hI (fun hx hs => ?_) (fun x hx => ?_)
  · cases hs with
    | write h => exact ⟨rfl, hstep _ hx h⟩
  · obtain ⟨y, henv, hmay⟩ := hlive x hx
    exact ⟨y, _, _, henv, .write hmay⟩

theorem pause {us : ℕ} (hQ : Stable W Q) (hI : ∀ x, Q x → I (.pause us) x) :
    Outline W I Q [.pause us] Q := by
  refine command hQ hQ hI (fun hx hs => ?_) (fun x _ => ⟨x, x, _, .refl, .pause us⟩)
  cases hs with
  | pause => exact ⟨rfl, hx⟩

theorem note {mark : κ} (hQ : Stable W Q) (hR : Stable W R)
    (hI : ∀ x, Q x → I (.note mark) x) (hstep : ∀ x, Q x → R (W.note x mark)) :
    Outline W I Q [.note mark] R := by
  refine command hQ hR hI (fun hx hs => ?_) (fun x _ => ⟨x, _, _, .refl, .note mark⟩)
  cases hs with
  | note => exact ⟨rfl, hstep _ hx⟩

theorem sample (hQ : Stable W Q) (hI : ∀ x, Q x → I .sample x) : Outline W I Q [.sample] Q := by
  refine command hQ hQ hI (fun hx hs => ?_) (fun x _ => ⟨x, x, _, .refl, .sample⟩)
  cases hs with
  | sample => exact ⟨rfl, hx⟩

/-- A poll keeps its precondition until the input has changed. -/
theorem pollWhile {level : Bool} {us : ℕ} (hQ : Stable W Q) (hR : Stable W R)
    (hI : ∀ x, Q x → I (.pollWhile level us) x ∧ I (.pause us) x)
    (hstep : ∀ x, Q x → W.input x ≠ level → R x)
    (hlive : ∀ x, Q x → ∃ y, Relation.ReflTransGen W.env x y ∧ W.input y ≠ level) :
    Outline W I Q [.pollWhile level us] R := by
  intro x hx trace s' y hrun
  have hpoint := hrun.invariant
    (J := fun s' y => (s' = [.pollWhile level us] ∧ Q y) ∨
      (s' = [.pause us, .pollWhile level us] ∧ Q y) ∨ (s' = [] ∧ R y))
    (Or.inl ⟨rfl, hx⟩) (by
      rintro _ s'' y z e (⟨rfl, hy⟩ | ⟨rfl, hy⟩ | ⟨rfl, hy⟩) hs
      · cases hs with
        | env h => exact Or.inl ⟨rfl, hQ y z hy h⟩
        | leave h => exact Or.inr (Or.inr ⟨rfl, hstep y hy h⟩)
        | again h => exact Or.inr (Or.inl ⟨rfl, hy⟩)
      · cases hs with
        | env h => exact Or.inr (Or.inl ⟨rfl, hQ y z hy h⟩)
        | pause => exact Or.inl ⟨rfl, hy⟩
      · cases hs with
        | env h => exact Or.inr (Or.inr ⟨rfl, hR y z hy h⟩))
  have hfinish (hy : Q y) : CanFinish W [.pollWhile level us] y := by
    obtain ⟨z, henv, hinput⟩ := hlive y hy
    exact ⟨_, z, (Run.of_env henv).extend (.leave hinput)⟩
  rcases hpoint with ⟨rfl, hy⟩ | ⟨rfl, hy⟩ | ⟨rfl, hy⟩
  · refine ⟨?_, fun h => by simp at h, hfinish hy⟩
    intro c rest heq
    obtain ⟨rfl, -⟩ := List.cons.inj heq
    exact (hI y hy).1
  · obtain ⟨_, z, hrest⟩ := hfinish hy
    refine ⟨?_, fun h => by simp at h, _, z, (Run.single (.pause us)).trans hrest⟩
    intro c rest heq
    obtain ⟨rfl, -⟩ := List.cons.inj heq
    exact (hI y hy).2
  · exact ⟨fun c rest h => by simp at h, fun _ => hy, [], y, .start⟩

/-- Pieces run in order, with an assertion that accumulates what has been run. -/
theorem flatMap {ι : Type*} {body : ι → Script P κ} {F : List ι → σ → Prop}
    (hF : ∀ done, Stable W (F done))
    (h : ∀ done i, Outline W I (F done) (body i) (F (done ++ [i]))) (done items : List ι) :
    Outline W I (F done) (items.flatMap body) (F (done ++ items)) := by
  induction items generalizing done with
  | nil => simpa using nil (hF done)
  | cons i items ih =>
      have hrest := ih (done ++ [i])
      rw [List.append_assoc, List.singleton_append] at hrest
      rw [List.flatMap_cons]
      exact (h done i).append hrest

end Outline

end DotMatrixPrinter.LineScript
