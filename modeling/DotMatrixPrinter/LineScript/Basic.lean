/-
# Scripts over output lines and one sampled input

A bit-banged protocol is a list of commands: set an output line, wait, sample the
input, or poll the input until it changes. What such a script does depends on the
readings it gets and on nothing else, so a script is run here against the list of
readings still to come. A run that needs more readings than the list holds has
not returned, which is how a poll that is never answered appears.

A script may also leave notes: marks that touch no line and name the place in the
program a trace has reached.
-/

import Mathlib.Data.Nat.Notation
import Mathlib.Data.List.Basic

namespace DotMatrixPrinter.LineScript

universe u v

/-- One command of a script over the output lines `P` with notes in `κ`. -/
inductive Command (P : Type u) (κ : Type v)
  /-- Drive an output line. -/
  | write (line : P) (level : Bool)
  /-- Wait, in microseconds. -/
  | pause (us : ℕ)
  /-- Read the input once. -/
  | sample
  /-- While the input reads `level`, wait `us` and read it again. -/
  | pollWhile (level : Bool) (us : ℕ)
  /-- Leave a note. -/
  | note (mark : κ)
  deriving DecidableEq

/-- What is seen of a script while it runs. -/
inductive Event (P : Type u) (κ : Type v)
  | write (line : P) (level : Bool)
  | pause (us : ℕ)
  | read (level : Bool)
  | note (mark : κ)
  deriving DecidableEq

/-- Commands run in order. -/
abbrev Script (P : Type u) (κ : Type v) := List (Command P κ)

/-- Events in the order they happened. -/
abbrev Trace (P : Type u) (κ : Type v) := List (Event P κ)

variable {P : Type u} {κ : Type v}

/-! ## Running a script on readings -/

/-- Poll the input. Every reading of `level` costs one more wait; the first other
reading ends the loop. -/
def poll (level : Bool) (us : ℕ) : List Bool → Option (Trace P κ × List Bool)
  | [] => none
  | r :: rest =>
      if r = level then
        (poll level us rest).map fun out => (.read r :: .pause us :: out.1, out.2)
      else some ([.read r], rest)

/-- Run one command: its events and the readings it leaves over. -/
def Command.exec : Command P κ → List Bool → Option (Trace P κ × List Bool)
  | .write line level, rs => some ([.write line level], rs)
  | .pause us, rs => some ([.pause us], rs)
  | .sample, [] => none
  | .sample, r :: rs => some ([.read r], rs)
  | .pollWhile level us, rs => poll level us rs
  | .note mark, rs => some ([.note mark], rs)

/-- Run a script to its end. -/
def exec : Script P κ → List Bool → Option (Trace P κ × List Bool)
  | [], rs => some ([], rs)
  | c :: s, rs =>
      (c.exec rs).bind fun first =>
        (exec s first.2).map fun later => (first.1 ++ later.1, later.2)

@[simp]
theorem exec_nil (rs : List Bool) : exec ([] : Script P κ) rs = some ([], rs) := rfl

theorem exec_cons_eq_some {c : Command P κ} {s : Script P κ} {rs rest : List Bool}
    {trace : Trace P κ} :
    exec (c :: s) rs = some (trace, rest) ↔
      ∃ first mid later, c.exec rs = some (first, mid) ∧ exec s mid = some (later, rest) ∧
        trace = first ++ later := by
  simp only [exec, Option.bind_eq_some_iff, Option.map_eq_some_iff, Prod.exists, Prod.mk.injEq]
  constructor
  · rintro ⟨first, mid, hfirst, later, _, hlater, rfl, rfl⟩
    exact ⟨first, mid, later, hfirst, hlater, rfl⟩
  · rintro ⟨first, mid, later, hfirst, hlater, rfl⟩
    exact ⟨first, mid, hfirst, later, rest, hlater, rfl, rfl⟩

/-- Two scripts in sequence: the second runs on the readings the first leaves over. -/
theorem exec_append_eq_some {s₁ s₂ : Script P κ} {rs rest : List Bool} {trace : Trace P κ} :
    exec (s₁ ++ s₂) rs = some (trace, rest) ↔
      ∃ first mid later, exec s₁ rs = some (first, mid) ∧ exec s₂ mid = some (later, rest) ∧
        trace = first ++ later := by
  induction s₁ generalizing rs trace with
  | nil => simp
  | cons c s₁ ih =>
      rw [List.cons_append, exec_cons_eq_some]
      constructor
      · rintro ⟨here, mid, _, hhere, hrest, rfl⟩
        obtain ⟨first, mid', later, hfirst, hlater, rfl⟩ := ih.mp hrest
        exact ⟨here ++ first, mid', later, exec_cons_eq_some.mpr ⟨_, _, _, hhere, hfirst, rfl⟩,
          hlater, (List.append_assoc _ _ _).symm⟩
      · rintro ⟨_, mid', later, hcons, hlater, rfl⟩
        obtain ⟨here, mid, first, hhere, hfirst, rfl⟩ := exec_cons_eq_some.mp hcons
        exact ⟨here, mid, first ++ later, hhere, ih.mpr ⟨_, _, _, hfirst, hlater, rfl⟩,
          List.append_assoc _ _ _⟩

/-- Every script returns on some readings, whatever readings follow them: no poll
asks for more than one answer. -/
theorem exists_exec (s : Script P κ) :
    ∃ rs trace, ∀ rest, exec s (rs ++ rest) = some (trace, rest) := by
  induction s with
  | nil => exact ⟨[], [], fun rest => rfl⟩
  | cons c s ih =>
      obtain ⟨rs, trace, hrun⟩ := ih
      have hcommand : ∃ answer first, ∀ rest,
          c.exec (answer ++ rest) = some (first, rest) := by
        cases c with
        | write line level => exact ⟨[], [.write line level], fun rest => rfl⟩
        | pause us => exact ⟨[], [.pause us], fun rest => rfl⟩
        | sample => exact ⟨[true], [.read true], fun rest => rfl⟩
        | pollWhile level us =>
            exact ⟨[!level], [.read !level], fun rest => by cases level <;> rfl⟩
        | note mark => exact ⟨[], [.note mark], fun rest => rfl⟩
      obtain ⟨answer, first, hfirst⟩ := hcommand
      refine ⟨answer ++ rs, first ++ trace, fun rest => ?_⟩
      rw [List.append_assoc]
      exact exec_cons_eq_some.mpr ⟨first, rs ++ rest, trace, hfirst _, hrun rest, rfl⟩

/-! ## What does not depend on the readings -/

/-- The event a command is certain to cause, if it neither waits nor reads. -/
def Command.visible : Command P κ → Option (Event P κ)
  | .write line level => some (.write line level)
  | .note mark => some (.note mark)
  | .pause _ | .sample | .pollWhile _ _ => none

/-- An event that is neither a wait nor a reading. -/
def Event.visible : Event P κ → Option (Event P κ)
  | .write line level => some (.write line level)
  | .note mark => some (.note mark)
  | .pause _ | .read _ => none

/-- A poll shows nothing but waits and readings, however long it lasts. -/
theorem visible_poll {level : Bool} {us : ℕ} {rs rest : List Bool} {trace : Trace P κ}
    (h : poll level us rs = some (trace, rest)) : trace.filterMap Event.visible = [] := by
  induction rs generalizing trace with
  | nil => simp [poll] at h
  | cons r rs ih =>
      by_cases hr : r = level
      · simp only [poll, if_pos hr, Option.map_eq_some_iff, Prod.exists, Prod.mk.injEq] at h
        rcases h with ⟨later, _, hlater, rfl, rfl⟩
        simpa [Event.visible] using ih hlater
      · simp only [poll, if_neg hr, Option.some.injEq, Prod.mk.injEq] at h
        simp [← h.1, Event.visible]

theorem visible_command {c : Command P κ} {rs rest : List Bool} {trace : Trace P κ}
    (h : c.exec rs = some (trace, rest)) :
    trace.filterMap Event.visible = [c].filterMap Command.visible := by
  cases c with
  | pollWhile level us => exact visible_poll h
  | sample =>
      cases rs with
      | nil => simp [Command.exec] at h
      | cons r rs =>
          simp only [Command.exec, Option.some.injEq, Prod.mk.injEq] at h
          rw [← h.1]
          rfl
  | write line level | pause us | note mark =>
      simp only [Command.exec, Option.some.injEq, Prod.mk.injEq] at h
      rw [← h.1]
      rfl

/-- What a run shows is what its script shows, whatever the readings were. -/
theorem visible_exec {s : Script P κ} {rs rest : List Bool} {trace : Trace P κ}
    (h : exec s rs = some (trace, rest)) :
    trace.filterMap Event.visible = s.filterMap Command.visible := by
  induction s generalizing rs trace with
  | nil =>
      simp only [exec_nil, Option.some.injEq, Prod.mk.injEq] at h
      simp [← h.1]
  | cons c s ih =>
      rcases exec_cons_eq_some.mp h with ⟨first, mid, later, hfirst, hlater, rfl⟩
      rw [List.filterMap_append, visible_command hfirst, ih hlater, ← List.filterMap_append]
      rfl

/-- The write an event is, if it is one. -/
def Event.toWrite : Event P κ → Option (P × Bool)
  | .write line level => some (line, level)
  | _ => none

/-- The note an event is, if it is one. -/
def Event.toNote : Event P κ → Option κ
  | .note mark => some mark
  | _ => none

/-- The writes of a trace, in order. -/
def writes (trace : Trace P κ) : List (P × Bool) := trace.filterMap Event.toWrite

/-- The notes of a trace, in order. -/
def notes (trace : Trace P κ) : List κ := trace.filterMap Event.toNote

@[simp]
theorem writes_append (first later : Trace P κ) :
    writes (first ++ later) = writes first ++ writes later :=
  List.filterMap_append

@[simp]
theorem notes_append (first later : Trace P κ) :
    notes (first ++ later) = notes first ++ notes later :=
  List.filterMap_append

/-- The writes a script is going to make. -/
def Script.writes (s : Script P κ) : List (P × Bool) :=
  LineScript.writes (s.filterMap Command.visible)

/-- The notes a script is going to leave. -/
def Script.notes (s : Script P κ) : List κ :=
  LineScript.notes (s.filterMap Command.visible)

@[simp]
theorem Script.writes_append (s₁ s₂ : Script P κ) :
    Script.writes (s₁ ++ s₂) = Script.writes s₁ ++ Script.writes s₂ := by
  simp [Script.writes]

@[simp]
theorem Script.notes_append (s₁ s₂ : Script P κ) :
    Script.notes (s₁ ++ s₂) = Script.notes s₁ ++ Script.notes s₂ := by
  simp [Script.notes]

theorem writes_visible (trace : Trace P κ) :
    writes (trace.filterMap Event.visible) = writes trace := by
  rw [writes, writes, List.filterMap_filterMap]
  exact List.filterMap_congr fun e _ => by cases e <;> rfl

theorem notes_visible (trace : Trace P κ) :
    notes (trace.filterMap Event.visible) = notes trace := by
  rw [notes, notes, List.filterMap_filterMap]
  exact List.filterMap_congr fun e _ => by cases e <;> rfl

/-- The writes of a run are those of the script. -/
theorem writes_exec {s : Script P κ} {rs rest : List Bool} {trace : Trace P κ}
    (h : exec s rs = some (trace, rest)) : writes trace = s.writes := by
  rw [← writes_visible, visible_exec h, Script.writes]

/-- The notes of a run are those of the script. -/
theorem notes_exec {s : Script P κ} {rs rest : List Bool} {trace : Trace P κ}
    (h : exec s rs = some (trace, rest)) : notes trace = s.notes := by
  rw [← notes_visible, visible_exec h, Script.notes]

end DotMatrixPrinter.LineScript
