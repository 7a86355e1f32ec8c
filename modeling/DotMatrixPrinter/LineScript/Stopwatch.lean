/-
# Timing of the output lines

A stopwatch for every output line: its level, and how long it has had it. Timing rules
are about the moment a line is driven: what is driven late enough may be driven. Such a
rule can only gain from waiting longer. So it is enough to look at the prompt run of a
script, in which every poll ends at its first reading: what it meets, every run meets,
and every run that is still under way.
-/

import DotMatrixPrinter.LineScript.Prompt
import Mathlib.Order.Monotone.Basic

namespace DotMatrixPrinter.LineScript

universe u v w

variable {P : Type u} {κ : Type v} {σ : Type w}

/-- The level of every line and for how long it has had it, in microseconds. -/
@[ext]
structure Stopwatch (P : Type u) where
  level : P → Bool
  since : P → ℕ

namespace Stopwatch

/-- The same levels, each held at least as long. -/
instance : Preorder (Stopwatch P) where
  le x y := x.level = y.level ∧ ∀ line, x.since line ≤ y.since line
  le_refl x := ⟨rfl, fun _ => le_rfl⟩
  le_trans _ _ _ h h' := ⟨h.1.trans h'.1, fun line => (h.2 line).trans (h'.2 line)⟩

/-- Let time pass. -/
def wait (x : Stopwatch P) (us : ℕ) : Stopwatch P :=
  { x with since := fun line => x.since line + us }

@[simp]
theorem wait_level (x : Stopwatch P) (us : ℕ) : (x.wait us).level = x.level := rfl

@[simp]
theorem wait_since (x : Stopwatch P) (us : ℕ) (line : P) :
    (x.wait us).since line = x.since line + us := rfl

theorem wait_mono (us : ℕ) : Monotone fun x : Stopwatch P => x.wait us :=
  fun _ _ h => ⟨h.1, fun line => Nat.add_le_add_right (h.2 line) us⟩

theorem le_wait (x : Stopwatch P) (us : ℕ) : x ≤ x.wait us :=
  ⟨rfl, fun line => Nat.le_add_right (x.since line) us⟩

variable [DecidableEq P]

/-- Drive a line. Only a change of level restarts its watch. -/
def drive (x : Stopwatch P) (line : P) (level : Bool) : Stopwatch P :=
  if x.level line = level then x
  else ⟨Function.update x.level line level, Function.update x.since line 0⟩

/-- One event. -/
def next (x : Stopwatch P) : Event P κ → Stopwatch P
  | .write line level => x.drive line level
  | .pause us => x.wait us
  | .read _ | .note _ => x

/-- The watches after a trace. -/
def after (x : Stopwatch P) (trace : Trace P κ) : Stopwatch P := trace.foldl next x

theorem after_append (x : Stopwatch P) (first later : Trace P κ) :
    x.after (first ++ later) = (x.after first).after later :=
  List.foldl_append

@[simp]
theorem drive_level_self (x : Stopwatch P) (line : P) (level : Bool) :
    (x.drive line level).level line = level := by
  by_cases h : x.level line = level <;> simp [drive, h]

@[simp]
theorem drive_level_of_ne (x : Stopwatch P) {line other : P} (h : other ≠ line) (level : Bool) :
    (x.drive line level).level other = x.level other := by
  by_cases hsame : x.level line = level <;> simp [drive, hsame, h]

@[simp]
theorem drive_since_of_ne (x : Stopwatch P) {line other : P} (h : other ≠ line) (level : Bool) :
    (x.drive line level).since other = x.since other := by
  by_cases hsame : x.level line = level <;> simp [drive, hsame, h]

/-- A line whose level changes starts its watch again. -/
theorem drive_since_self {x : Stopwatch P} {line : P} {level : Bool} (h : x.level line ≠ level) :
    (x.drive line level).since line = 0 := by
  simp [drive, h]

/-- A line that is driven to the level it has keeps its watch running. -/
theorem drive_of_eq {x : Stopwatch P} {line : P} {level : Bool} (h : x.level line = level) :
    x.drive line level = x :=
  if_pos h

theorem drive_mono (line : P) (level : Bool) :
    Monotone fun x : Stopwatch P => x.drive line level := by
  intro x y h
  simp only [drive, h.1]
  split
  · exact h
  · refine ⟨rfl, fun line' => ?_⟩
    by_cases heq : line' = line
    · simp [heq]
    · simpa [heq] using h.2 line'

end Stopwatch

/-! ## Runs that take longer -/

/-- The second trace is the first with readings and pauses in between. -/
inductive Delayed : Trace P κ → Trace P κ → Prop
  | nil : Delayed [] []
  | keep (e : Event P κ) {quick slow : Trace P κ} (later : Delayed quick slow) :
      Delayed (e :: quick) (e :: slow)
  | read (level : Bool) {quick slow : Trace P κ} (later : Delayed quick slow) :
      Delayed quick (.read level :: slow)
  | pause (us : ℕ) {quick slow : Trace P κ} (later : Delayed quick slow) :
      Delayed quick (.pause us :: slow)

theorem Delayed.append {quick quick' slow slow' : Trace P κ} (h : Delayed quick slow)
    (h' : Delayed quick' slow') : Delayed (quick ++ quick') (slow ++ slow') := by
  induction h with
  | nil => exact h'
  | keep e _ ih => exact ih.keep e
  | read level _ ih => exact ih.read level
  | pause us _ ih => exact ih.pause us

theorem delayed_poll {level : Bool} {us : ℕ} {rs rest : List Bool} {trace : Trace P κ}
    (h : poll level us rs = some (trace, rest)) : Delayed [.read !level] trace := by
  induction rs generalizing trace with
  | nil => simp [poll] at h
  | cons r rs ih =>
      by_cases hr : r = level
      · simp only [poll, if_pos hr, Option.map_eq_some_iff, Prod.exists, Prod.mk.injEq] at h
        obtain ⟨later, _, hlater, rfl, rfl⟩ := h
        exact .read r (.pause us (ih hlater))
      · simp only [poll, if_neg hr, Option.some.injEq, Prod.mk.injEq] at h
        obtain ⟨rfl, rfl⟩ := h
        rw [Bool.eq_not.mpr hr]
        exact .keep _ .nil

theorem delayed_command {c : Command P κ} {rs rest : List Bool} {trace : Trace P κ}
    (h : c.exec rs = some (trace, rest)) : Delayed c.prompt trace := by
  cases c with
  | pollWhile level us => exact delayed_poll h
  | sample =>
      cases rs with
      | nil => simp [Command.exec] at h
      | cons r rs =>
          simp only [Command.exec, Option.some.injEq, Prod.mk.injEq] at h
          obtain ⟨rfl, rfl⟩ := h
          exact .read r .nil
  | write | pause | note =>
      simp only [Command.exec, Option.some.injEq, Prod.mk.injEq] at h
      obtain ⟨rfl, rfl⟩ := h
      exact .keep _ .nil

/-- Every run is the prompt one, delayed. -/
theorem delayed_exec {s : Script P κ} {rs rest : List Bool} {trace : Trace P κ}
    (h : exec s rs = some (trace, rest)) : Delayed (promptTrace s) trace := by
  induction s generalizing rs trace with
  | nil =>
      simp only [exec_nil, Option.some.injEq, Prod.mk.injEq] at h
      rw [← h.1]
      exact .nil
  | cons c s ih =>
      obtain ⟨first, mid, later, hfirst, hlater, rfl⟩ := exec_cons_eq_some.mp h
      exact (delayed_command hfirst).append (ih hlater)

/-! ## Rules for driving a line -/

variable [DecidableEq P]

/-- Whenever a line is driven the rule holds, of the watches just before, the line and
the level. -/
def Timed (A : Stopwatch P → P → Bool → Prop) : Stopwatch P → Trace P κ → Prop
  | _, [] => True
  | x, .write line level :: trace => A x line level ∧ Timed A (x.drive line level) trace
  | x, .pause us :: trace => Timed A (x.wait us) trace
  | x, .read _ :: trace => Timed A x trace
  | x, .note _ :: trace => Timed A x trace

variable {A : Stopwatch P → P → Bool → Prop} {x y : Stopwatch P}

theorem timed_append {first later : Trace P κ} :
    Timed A x (first ++ later) ↔ Timed A x first ∧ Timed A (x.after first) later := by
  induction first generalizing x with
  | nil => simp [Timed, Stopwatch.after]
  | cons e first ih =>
      cases e with
      | write line level => simp only [List.cons_append, Timed, ih, and_assoc]; rfl
      | pause | read | note => exact ih

/-- The rule at one chosen event. -/
theorem Timed.at_write {earlier later : Trace P κ} {line : P} {level : Bool}
    (h : Timed A x (earlier ++ .write line level :: later)) : A (x.after earlier) line level :=
  (timed_append.mp h).2.1

/-- A rule that waiting cannot break holds of the slow run if it holds of the quick
one. -/
theorem Timed.of_delayed (hA : ∀ line level, Monotone fun x => A x line level)
    {quick slow : Trace P κ} (h : Delayed quick slow) (hxy : x ≤ y) (hquick : Timed A x quick) :
    Timed A y slow ∧ x.after quick ≤ y.after slow := by
  induction h generalizing x y with
  | nil => exact ⟨trivial, hxy⟩
  | keep e _ ih =>
      cases e with
      | write line level =>
          obtain ⟨hslow, hle⟩ := ih (Stopwatch.drive_mono line level hxy) hquick.2
          exact ⟨⟨hA line level hxy hquick.1, hslow⟩, hle⟩
      | pause us => exact ih (Stopwatch.wait_mono us hxy) hquick
      | read | note => exact ih hxy hquick
  | read level _ ih => exact ih hxy hquick
  | pause us _ ih => exact ih (hxy.trans (y.le_wait us)) hquick

/-! ## Paced scripts -/

/-- From watches in `Q` the prompt run of the script follows the rule and leaves them
in `R`. -/
def Paced (A : Stopwatch P → P → Bool → Prop) (Q : Stopwatch P → Prop) (s : Script P κ)
    (R : Stopwatch P → Prop) : Prop :=
  ∀ x, Q x → Timed A x (promptTrace s) ∧ R (x.after (promptTrace s))

variable {Q M R : Stopwatch P → Prop} {s s₁ s₂ : Script P κ} {trace : Trace P κ}

namespace Paced

theorem nil : Paced A Q ([] : Script P κ) Q := fun _ hx => ⟨trivial, hx⟩

theorem append (h₁ : Paced A Q s₁ M) (h₂ : Paced A M s₂ R) : Paced A Q (s₁ ++ s₂) R := by
  intro x hx
  obtain ⟨hfirst, hmid⟩ := h₁ x hx
  obtain ⟨hlater, hpost⟩ := h₂ _ hmid
  rw [promptTrace_append, timed_append, Stopwatch.after_append]
  exact ⟨⟨hfirst, hlater⟩, hpost⟩

theorem consequence {Q' R' : Stopwatch P → Prop} (h : Paced A Q s R) (hQ : ∀ x, Q' x → Q x)
    (hR : ∀ x, R x → R' x) : Paced A Q' s R' :=
  fun x hx => ⟨(h x (hQ x hx)).1, hR _ (h x (hQ x hx)).2⟩

/-- What every piece restores, the pieces in a row restore. -/
theorem flatMap {ι : Type*} {body : ι → Script P κ} (h : ∀ i, Paced A Q (body i) Q)
    (items : List ι) : Paced A Q (items.flatMap body) Q := by
  induction items with
  | nil => exact nil
  | cons i items ih =>
      rw [List.flatMap_cons]
      exact (h i).append ih

/-- A paced script follows the rule on every run. -/
theorem exec (hA : ∀ line level, Monotone fun x => A x line level) (hR : Monotone R)
    (h : Paced A Q s R) (hx : Q x) {rs rest : List Bool}
    (hexec : LineScript.exec s rs = some (trace, rest)) :
    Timed A x trace ∧ R (x.after trace) := by
  obtain ⟨hquick, hpost⟩ := h x hx
  obtain ⟨hslow, hle⟩ := hquick.of_delayed hA (delayed_exec hexec) le_rfl
  exact ⟨hslow, hR hle hpost⟩

/-- And on every interleaved run, as far as it has got. -/
theorem run {W : Plant P κ σ} {s' : Script P κ} {a b : σ}
    (hA : ∀ line level, Monotone fun x => A x line level) (h : Paced A Q s R) (hx : Q x)
    (hrun : Run W s a trace s' b) : Timed A x trace := by
  obtain ⟨rs, later, hlater⟩ := exists_exec s'
  have hexec := exec_append_of_run hrun (hlater [])
  have hwhole := ((h x hx).1.of_delayed hA (delayed_exec hexec) le_rfl).1
  exact (timed_append.mp hwhole).1

end Paced

end DotMatrixPrinter.LineScript
