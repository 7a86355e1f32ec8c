/-
# Observers and their triples

An observer folds a state over the events of a trace. It reacts to writes and
notes and ignores readings and pauses, so after a script it is in a state that
does not depend on the readings the script got: the runs of a script differ, what
an observer makes of them does not.

A triple states, for a script, what an observer's state satisfies before it, what
it satisfies after it, and what holds just before every single event on the way.
Triples are proved on the script and then hold on each of its runs.
-/

import DotMatrixPrinter.LineScript.Basic

namespace DotMatrixPrinter.LineScript

universe u v w

variable {P : Type u} {κ : Type v} {σ : Type w}

/-- A state machine driven by the writes and the notes of a trace. -/
structure Observer (P : Type u) (κ : Type v) (σ : Type w) where
  onWrite : σ → P → Bool → σ
  onNote : σ → κ → σ

namespace Observer

variable (O : Observer P κ σ)

/-- One event seen. -/
def next (x : σ) : Event P κ → σ
  | .write line level => O.onWrite x line level
  | .note mark => O.onNote x mark
  | .pause _ => x
  | .read _ => x

/-- One command seen, whatever readings it is answered with. -/
def nextCommand (x : σ) : Command P κ → σ
  | .write line level => O.onWrite x line level
  | .note mark => O.onNote x mark
  | .pause _ => x
  | .sample => x
  | .pollWhile _ _ => x

/-- The state after a trace. -/
def after (x : σ) (trace : Trace P κ) : σ := trace.foldl O.next x

/-- The state after a script. -/
def afterScript (x : σ) (s : Script P κ) : σ := s.foldl O.nextCommand x

@[simp]
theorem after_nil (x : σ) : O.after x [] = x := rfl

@[simp]
theorem after_cons (x : σ) (e : Event P κ) (trace : Trace P κ) :
    O.after x (e :: trace) = O.after (O.next x e) trace := rfl

theorem after_append (x : σ) (first later : Trace P κ) :
    O.after x (first ++ later) = O.after (O.after x first) later :=
  List.foldl_append

@[simp]
theorem afterScript_nil (x : σ) : O.afterScript x [] = x := rfl

@[simp]
theorem afterScript_cons (x : σ) (c : Command P κ) (s : Script P κ) :
    O.afterScript x (c :: s) = O.afterScript (O.nextCommand x c) s := rfl

theorem afterScript_append (x : σ) (s₁ s₂ : Script P κ) :
    O.afterScript x (s₁ ++ s₂) = O.afterScript (O.afterScript x s₁) s₂ :=
  List.foldl_append

/-! ## Assertions along a trace -/

variable (A : σ → Event P κ → Prop)

/-- The assertion holds of every event and the state just before it. -/
def Along : σ → Trace P κ → Prop
  | _, [] => True
  | x, e :: trace => A x e ∧ Along (O.next x e) trace

/-- The assertion holds of every event the command can cause, whatever it reads. -/
def CommandOk (x : σ) : Command P κ → Prop
  | .write line level => A x (.write line level)
  | .note mark => A x (.note mark)
  | .pause us => A x (.pause us)
  | .sample => ∀ r, A x (.read r)
  | .pollWhile _ us => (∀ r, A x (.read r)) ∧ A x (.pause us)

/-- The assertion holds of every event the script can cause. -/
def AlongScript : σ → Script P κ → Prop
  | _, [] => True
  | x, c :: s => CommandOk A x c ∧ AlongScript (O.nextCommand x c) s

variable {A}

theorem along_append {x : σ} {first later : Trace P κ} :
    O.Along A x (first ++ later) ↔ O.Along A x first ∧ O.Along A (O.after x first) later := by
  induction first generalizing x with
  | nil => simp [Along]
  | cons e first ih => simp [Along, ih, and_assoc]

theorem alongScript_append {x : σ} {s₁ s₂ : Script P κ} :
    O.AlongScript A x (s₁ ++ s₂) ↔
      O.AlongScript A x s₁ ∧ O.AlongScript A (O.afterScript x s₁) s₂ := by
  induction s₁ generalizing x with
  | nil => simp [AlongScript]
  | cons c s₁ ih => simp [AlongScript, ih, and_assoc]

/-- An assertion along a trace, at one chosen event of it. -/
theorem Along.at_event {O : Observer P κ σ} {x : σ} {before later : Trace P κ} {e : Event P κ}
    (h : O.Along A x (before ++ e :: later)) : A (O.after x before) e :=
  (O.along_append.mp h).2.1

/-- A poll leaves the observer where it was and meets the assertion at each of its
readings. -/
theorem poll_observed {x : σ} {level : Bool} {us : ℕ} {rs rest : List Bool}
    {trace : Trace P κ} (h : poll level us rs = some (trace, rest)) :
    O.after x trace = x ∧ (CommandOk A x (.pollWhile level us) → O.Along A x trace) := by
  induction rs generalizing trace with
  | nil => simp [poll] at h
  | cons r rs ih =>
      by_cases hr : r = level
      · simp only [poll, if_pos hr, Option.map_eq_some_iff, Prod.exists, Prod.mk.injEq] at h
        obtain ⟨later, _, hlater, rfl, rfl⟩ := h
        obtain ⟨hafter, halong⟩ := ih hlater
        exact ⟨hafter, fun hok => ⟨hok.1 r, hok.2, halong hok⟩⟩
      · simp only [poll, if_neg hr, Option.some.injEq, Prod.mk.injEq] at h
        obtain ⟨rfl, rfl⟩ := h
        exact ⟨rfl, fun hok => ⟨hok.1 r, trivial⟩⟩

theorem command_observed {x : σ} {c : Command P κ} {rs rest : List Bool} {trace : Trace P κ}
    (h : c.exec rs = some (trace, rest)) :
    O.after x trace = O.nextCommand x c ∧ (CommandOk A x c → O.Along A x trace) := by
  cases c with
  | pollWhile level us => exact O.poll_observed h
  | sample =>
      cases rs with
      | nil => simp [Command.exec] at h
      | cons r rs =>
          simp only [Command.exec, Option.some.injEq, Prod.mk.injEq] at h
          obtain ⟨rfl, rfl⟩ := h
          exact ⟨rfl, fun hok => ⟨hok r, trivial⟩⟩
  | write line level | pause us | note mark =>
      simp only [Command.exec, Option.some.injEq, Prod.mk.injEq] at h
      obtain ⟨rfl, rfl⟩ := h
      exact ⟨rfl, fun hok => ⟨hok, trivial⟩⟩

/-- After a run the observer is where the script puts it, whatever was read, and what
holds of every event the script can cause holds of every event of the run. -/
theorem exec_observed {x : σ} {s : Script P κ} {rs rest : List Bool} {trace : Trace P κ}
    (h : exec s rs = some (trace, rest)) :
    O.after x trace = O.afterScript x s ∧ (O.AlongScript A x s → O.Along A x trace) := by
  induction s generalizing x rs trace with
  | nil =>
      simp only [exec_nil, Option.some.injEq, Prod.mk.injEq] at h
      simp [← h.1, Along]
  | cons c s ih =>
      obtain ⟨first, mid, later, hfirst, hlater, rfl⟩ := exec_cons_eq_some.mp h
      obtain ⟨hafter, halong⟩ := O.command_observed (A := A) (x := x) hfirst
      obtain ⟨hafter', halong'⟩ := ih (x := O.nextCommand x c) hlater
      rw [after_append, O.along_append, hafter]
      exact ⟨hafter', fun hok => ⟨halong hok.1, halong' hok.2⟩⟩

/-! ## Triples -/

variable (A) in
/-- From a state in `Q` the script meets the assertion at each of its events and
ends in a state in `R`. -/
def Triple (Q : σ → Prop) (s : Script P κ) (R : σ → Prop) : Prop :=
  ∀ x, Q x → O.AlongScript A x s ∧ R (O.afterScript x s)

variable {O} {Q M R : σ → Prop}

namespace Triple

theorem nil (h : ∀ x, Q x → R x) : O.Triple A Q [] R :=
  fun x hx => ⟨trivial, h x hx⟩

theorem cons {c : Command P κ} {s : Script P κ}
    (hc : ∀ x, Q x → CommandOk A x c ∧ M (O.nextCommand x c)) (hs : O.Triple A M s R) :
    O.Triple A Q (c :: s) R := by
  intro x hx
  obtain ⟨hok, hmid⟩ := hc x hx
  obtain ⟨halong, hpost⟩ := hs _ hmid
  exact ⟨⟨hok, halong⟩, hpost⟩

theorem append {s₁ s₂ : Script P κ} (h₁ : O.Triple A Q s₁ M) (h₂ : O.Triple A M s₂ R) :
    O.Triple A Q (s₁ ++ s₂) R := by
  intro x hx
  obtain ⟨halong₁, hmid⟩ := h₁ x hx
  obtain ⟨halong₂, hpost⟩ := h₂ _ hmid
  rw [O.alongScript_append, O.afterScript_append]
  exact ⟨⟨halong₁, halong₂⟩, hpost⟩

theorem consequence {Q' R' : σ → Prop} {s : Script P κ} (h : O.Triple A Q s R)
    (hpre : ∀ x, Q' x → Q x) (hpost : ∀ x, R x → R' x) : O.Triple A Q' s R' :=
  fun x hx => ⟨(h x (hpre x hx)).1, hpost _ (h x (hpre x hx)).2⟩

/-- An invariant of every command of a script is an invariant of the script. -/
theorem of_forall_mem {s : Script P κ}
    (h : ∀ c ∈ s, ∀ x, Q x → CommandOk A x c ∧ Q (O.nextCommand x c)) : O.Triple A Q s Q := by
  induction s with
  | nil => exact nil fun _ hx => hx
  | cons c s ih =>
      exact cons (h c List.mem_cons_self) (ih fun c' hc' => h c' (List.mem_cons_of_mem c hc'))

/-- An invariant of every piece is an invariant of the pieces run in order. -/
theorem flatMap {ι : Type*} {body : ι → Script P κ}
    (h : ∀ i, O.Triple A Q (body i) Q) (items : List ι) :
    O.Triple A Q (items.flatMap body) Q := by
  induction items with
  | nil => exact nil fun _ hx => hx
  | cons i items ih =>
      rw [List.flatMap_cons]
      exact (h i).append ih

/-- A triple holds on every run. -/
theorem exec {s : Script P κ} {rs rest : List Bool} {trace : Trace P κ} {x : σ}
    (h : O.Triple A Q s R) (hrun : LineScript.exec s rs = some (trace, rest)) (hx : Q x) :
    O.Along A x trace ∧ R (O.after x trace) := by
  obtain ⟨hafter, halong⟩ := O.exec_observed (A := A) (x := x) hrun
  rw [hafter]
  exact ⟨halong (h x hx).1, (h x hx).2⟩

end Triple

end Observer

end DotMatrixPrinter.LineScript
