/-
# How long a script takes

A script spends its time in its pauses and in the pauses of its polls, so how long it
takes is decided by the readings. `Answered` says which readings let a script return and
what it then has waited: a poll is answered by any number of readings of the level it
waits out, each of which costs one more pause, and one reading of the other level.
`exists_exec_iff` connects it with the runs of the script. A script that reads nothing
takes what its pauses add up to.
-/

import DotMatrixPrinter.LineScript.Basic
import Mathlib.Algebra.Ring.Nat

namespace DotMatrixPrinter.LineScript

universe u v

variable {P : Type u} {κ : Type v} {s s₁ s₂ : Script P κ} {rs rest : List Bool} {t : ℕ}

/-- How long an event takes. -/
def Event.duration : Event P κ → ℕ
  | .pause us => us
  | _ => 0

/-- How long a trace takes, in microseconds. -/
def elapsed (trace : Trace P κ) : ℕ := (trace.map Event.duration).sum

@[simp]
theorem elapsed_nil : elapsed ([] : Trace P κ) = 0 := rfl

@[simp]
theorem elapsed_cons (e : Event P κ) (trace : Trace P κ) :
    elapsed (e :: trace) = e.duration + elapsed trace := by
  simp [elapsed]

@[simp]
theorem elapsed_append (first later : Trace P κ) :
    elapsed (first ++ later) = elapsed first + elapsed later := by
  simp [elapsed]

/-! ## The readings a script returns on -/

/-- The script returns on exactly these readings, and it has then waited so long. -/
inductive Answered : Script P κ → List Bool → ℕ → Prop
  | nil : Answered [] [] 0
  | write {s : Script P κ} {rs : List Bool} {t : ℕ} (line : P) (level : Bool)
      (later : Answered s rs t) : Answered (.write line level :: s) rs t
  | pause {s : Script P κ} {rs : List Bool} {t : ℕ} (us : ℕ) (later : Answered s rs t) :
      Answered (.pause us :: s) rs (us + t)
  | sample {s : Script P κ} {rs : List Bool} {t : ℕ} (r : Bool) (later : Answered s rs t) :
      Answered (.sample :: s) (r :: rs) t
  | pollWhile {s : Script P κ} {rs : List Bool} {t : ℕ} (level : Bool) (us n : ℕ)
      (later : Answered s rs t) :
      Answered (.pollWhile level us :: s) (List.replicate n level ++ (!level) :: rs) (us * n + t)
  | note {s : Script P κ} {rs : List Bool} {t : ℕ} (mark : κ) (later : Answered s rs t) :
      Answered (.note mark :: s) rs t

/-! ## Composing answers -/

theorem Answered.append {rs₁ rs₂ : List Bool} {t₁ t₂ : ℕ} (h₁ : Answered s₁ rs₁ t₁)
    (h₂ : Answered s₂ rs₂ t₂) : Answered (s₁ ++ s₂) (rs₁ ++ rs₂) (t₁ + t₂) := by
  induction h₁ with
  | nil => simpa using h₂
  | write line level _ ih => exact ih.write line level
  | pause us _ ih =>
      rw [Nat.add_assoc]
      exact ih.pause us
  | sample r _ ih => exact ih.sample r
  | note mark _ ih => exact ih.note mark
  | pollWhile level us n _ ih =>
      rw [Nat.add_assoc, List.append_assoc, List.cons_append]
      exact ih.pollWhile level us n

theorem answered_append : Answered (s₁ ++ s₂) rs t ↔
    ∃ rs₁ rs₂ t₁ t₂, Answered s₁ rs₁ t₁ ∧ Answered s₂ rs₂ t₂ ∧ rs = rs₁ ++ rs₂ ∧ t = t₁ + t₂ := by
  constructor
  · intro h
    induction s₁ generalizing rs t with
    | nil => exact ⟨[], rs, 0, t, .nil, h, rfl, (Nat.zero_add t).symm⟩
    | cons c s₁ ih =>
        cases h with
        | write line level later =>
            rcases ih later with ⟨rs₁, rs₂, t₁, t₂, h₁, h₂, rfl, rfl⟩
            exact ⟨rs₁, rs₂, t₁, t₂, h₁.write line level, h₂, rfl, rfl⟩
        | pause us later =>
            rcases ih later with ⟨rs₁, rs₂, t₁, t₂, h₁, h₂, rfl, rfl⟩
            exact ⟨rs₁, rs₂, us + t₁, t₂, h₁.pause us, h₂, rfl, (Nat.add_assoc _ _ _).symm⟩
        | sample r later =>
            rcases ih later with ⟨rs₁, rs₂, t₁, t₂, h₁, h₂, rfl, rfl⟩
            exact ⟨r :: rs₁, rs₂, t₁, t₂, h₁.sample r, h₂, rfl, rfl⟩
        | note mark later =>
            rcases ih later with ⟨rs₁, rs₂, t₁, t₂, h₁, h₂, rfl, rfl⟩
            exact ⟨rs₁, rs₂, t₁, t₂, h₁.note mark, h₂, rfl, rfl⟩
        | pollWhile level us n later =>
            rcases ih later with ⟨rs₁, rs₂, t₁, t₂, h₁, h₂, rfl, rfl⟩
            exact ⟨_, rs₂, us * n + t₁, t₂, h₁.pollWhile level us n, h₂, by simp, by omega⟩
  · rintro ⟨rs₁, rs₂, t₁, t₂, h₁, h₂, rfl, rfl⟩
    exact h₁.append h₂

theorem answered_pollWhile_cons {level : Bool} {us : ℕ} :
    Answered (.pollWhile level us :: s) rs t ↔
      ∃ n rs' t', Answered s rs' t' ∧ rs = List.replicate n level ++ (!level) :: rs' ∧
        t = us * n + t' := by
  constructor
  · intro h
    cases h with
    | pollWhile _ _ n later => exact ⟨n, _, _, later, rfl, rfl⟩
  · rintro ⟨n, rs', t', later, rfl, rfl⟩
    exact .pollWhile level us n later

/-! ## Scripts that read nothing -/

/-- Does the command leave the input alone? -/
def Command.isBlind : Command P κ → Bool
  | .sample | .pollWhile _ _ => false
  | _ => true

/-- What a command waits without a reading. -/
def Command.ownPause : Command P κ → ℕ
  | .pause us => us
  | _ => 0

/-- What the pauses of a script add up to. -/
def pauses (s : Script P κ) : ℕ := (s.map Command.ownPause).sum

@[simp]
theorem pauses_append (s₁ s₂ : Script P κ) : pauses (s₁ ++ s₂) = pauses s₁ + pauses s₂ := by
  simp [pauses]

/-- A script that reads nothing returns, and takes what its pauses take. -/
theorem answered_of_blind (h : ∀ c ∈ s, c.isBlind = true) :
    Answered s rs t ↔ rs = [] ∧ t = pauses s := by
  induction s generalizing rs t with
  | nil =>
      constructor
      · intro hanswered
        cases hanswered
        exact ⟨rfl, rfl⟩
      · rintro ⟨rfl, rfl⟩
        exact .nil
  | cons c s ih =>
      have hc := h c List.mem_cons_self
      have hrest {rs : List Bool} {t : ℕ} : Answered s rs t ↔ rs = [] ∧ t = pauses s :=
        ih fun c' hc' => h c' (List.mem_cons_of_mem c hc')
      constructor
      · intro hanswered
        cases hanswered with
        | write _ _ later | note _ later => simpa [pauses, Command.ownPause] using hrest.mp later
        | pause us later => simpa [pauses, Command.ownPause] using hrest.mp later
        | sample | pollWhile => simp [Command.isBlind] at hc
      · rintro ⟨rfl, rfl⟩
        have hlater : Answered s [] (pauses s) := hrest.mpr ⟨rfl, rfl⟩
        cases c with
        | write line level => simpa [pauses, Command.ownPause] using hlater.write line level
        | note mark => simpa [pauses, Command.ownPause] using hlater.note mark
        | pause us => exact hlater.pause us
        | sample | pollWhile => simp [Command.isBlind] at hc

theorem answered_append_of_blind (h : ∀ c ∈ s₁, c.isBlind = true) :
    Answered (s₁ ++ s₂) rs t ↔ ∃ t', Answered s₂ rs t' ∧ t = pauses s₁ + t' := by
  constructor
  · intro hanswered
    obtain ⟨_, rs₂, _, t₂, h₁, h₂, rfl, rfl⟩ := answered_append.mp hanswered
    obtain ⟨rfl, rfl⟩ := (answered_of_blind h).mp h₁
    exact ⟨t₂, h₂, rfl⟩
  · rintro ⟨t', h₂, rfl⟩
    exact ((answered_of_blind h).mpr ⟨rfl, rfl⟩).append h₂

/-! ## Answers and runs -/

/-- A poll that returns has read the level it waits out some number of times, and then
the other level. -/
theorem exists_poll_iff {level : Bool} {us : ℕ} :
    (∃ trace : Trace P κ, poll level us rs = some (trace, rest) ∧ elapsed trace = t) ↔
      ∃ n, rs = List.replicate n level ++ (!level) :: rest ∧ t = us * n := by
  constructor
  · rintro ⟨trace, hpoll, rfl⟩
    induction rs generalizing trace with
    | nil => simp [poll] at hpoll
    | cons r rs ih =>
        by_cases hr : r = level
        · simp only [poll, if_pos hr, Option.map_eq_some_iff, Prod.exists, Prod.mk.injEq] at hpoll
          rcases hpoll with ⟨later, _, hlater, rfl, rfl⟩
          rcases ih later hlater with ⟨n, hrs, htime⟩
          refine ⟨n + 1, by rw [hr, hrs, List.replicate_succ, List.cons_append], ?_⟩
          rw [elapsed_cons, elapsed_cons, htime, Nat.mul_succ]
          simp only [Event.duration]
          omega
        · simp only [poll, if_neg hr, Option.some.injEq, Prod.mk.injEq] at hpoll
          rcases hpoll with ⟨rfl, rfl⟩
          exact ⟨0, by simp [Bool.eq_not_of_ne hr], by simp [Event.duration]⟩
  · rintro ⟨n, rfl, rfl⟩
    induction n with
    | zero => exact ⟨[.read !level], by simp [poll], by simp [Event.duration]⟩
    | succ n ih =>
        rcases ih with ⟨trace, hpoll, htime⟩
        refine ⟨.read level :: .pause us :: trace, ?_, ?_⟩
        · simp [List.replicate_succ, poll, hpoll]
        · rw [elapsed_cons, elapsed_cons, htime, Nat.mul_succ]
          simp only [Event.duration]
          omega

/-- A command that reads nothing returns at once, with a single event. -/
theorem exec_of_isBlind {c : Command P κ} (h : c.isBlind = true) :
    ∃ e : Event P κ, (∀ rs, c.exec rs = some ([e], rs)) ∧ e.duration = c.ownPause := by
  cases c with
  | write | pause | note => exact ⟨_, fun rs => rfl, rfl⟩
  | sample | pollWhile => simp [Command.isBlind] at h

theorem exists_command_iff_of_isBlind {c : Command P κ} (h : c.isBlind = true) :
    (∃ trace, c.exec rs = some (trace, rest) ∧ elapsed trace = t) ↔
      ∃ used, rs = used ++ rest ∧ Answered [c] used t := by
  have hanswered {used : List Bool} : Answered [c] used t ↔ used = [] ∧ t = pauses [c] :=
    answered_of_blind (by simpa using h)
  rcases exec_of_isBlind h with ⟨e, hexec, hduration⟩
  have htime : elapsed [e] = pauses [c] := by simp [pauses, hduration]
  constructor
  · rintro ⟨trace, hrun, rfl⟩
    rw [hexec] at hrun
    obtain ⟨rfl, rfl⟩ := Prod.mk.inj (Option.some.inj hrun)
    exact ⟨[], rfl, hanswered.mpr ⟨rfl, htime⟩⟩
  · rintro ⟨used, rfl, hused⟩
    obtain ⟨rfl, rfl⟩ := hanswered.mp hused
    exact ⟨[e], hexec rest, htime⟩

/-- A command that returns has been answered. -/
theorem exists_command_iff {c : Command P κ} :
    (∃ trace, c.exec rs = some (trace, rest) ∧ elapsed trace = t) ↔
      ∃ used, rs = used ++ rest ∧ Answered [c] used t := by
  cases c with
  | pollWhile level us =>
      refine exists_poll_iff.trans ?_
      constructor
      · rintro ⟨n, rfl, rfl⟩
        exact ⟨_, by simp, .pollWhile level us n .nil⟩
      · rintro ⟨used, rfl, hused⟩
        obtain ⟨n, _, _, hnil, rfl, rfl⟩ := answered_pollWhile_cons.mp hused
        cases hnil
        exact ⟨n, by simp, rfl⟩
  | sample =>
      constructor
      · rintro ⟨trace, hexec, rfl⟩
        cases rs with
        | nil => simp [Command.exec] at hexec
        | cons r rs =>
            simp only [Command.exec, Option.some.injEq, Prod.mk.injEq] at hexec
            rcases hexec with ⟨rfl, rfl⟩
            exact ⟨[r], rfl, .sample r .nil⟩
      · rintro ⟨_, rfl, hused⟩
        cases hused with
        | sample r later =>
            cases later with
            | nil => exact ⟨_, rfl, rfl⟩
  | write | pause | note => exact exists_command_iff_of_isBlind rfl

/-- When a script returns, and after how long. -/
theorem exists_exec_iff :
    (∃ trace, exec s rs = some (trace, rest) ∧ elapsed trace = t) ↔
      ∃ used, rs = used ++ rest ∧ Answered s used t := by
  induction s generalizing rs t with
  | nil =>
      constructor
      · rintro ⟨trace, hexec, rfl⟩
        simp only [exec_nil, Option.some.injEq, Prod.mk.injEq] at hexec
        rcases hexec with ⟨rfl, rfl⟩
        exact ⟨[], rfl, .nil⟩
      · rintro ⟨_, rfl, hused⟩
        cases hused
        exact ⟨[], rfl, rfl⟩
  | cons c s ih =>
      constructor
      · rintro ⟨trace, hexec, rfl⟩
        rcases exec_cons_eq_some.mp hexec with ⟨first, mid, later, hfirst, hlater, rfl⟩
        rcases exists_command_iff.mp ⟨first, hfirst, rfl⟩ with ⟨used₁, rfl, hused₁⟩
        rcases ih.mp ⟨later, hlater, rfl⟩ with ⟨used₂, rfl, hused₂⟩
        rw [elapsed_append]
        exact ⟨used₁ ++ used₂, (List.append_assoc _ _ _).symm, hused₁.append hused₂⟩
      · rintro ⟨used, rfl, hused⟩
        have hcons : Answered ([c] ++ s) used t := hused
        rcases answered_append.mp hcons with
          ⟨used₁, used₂, t₁, t₂, hused₁, hused₂, rfl, rfl⟩
        rw [List.append_assoc]
        rcases exists_command_iff.mpr ⟨used₁, rfl, hused₁⟩ with ⟨first, hfirst, rfl⟩
        rcases ih.mpr ⟨used₂, rfl, hused₂⟩ with ⟨later, hlater, rfl⟩
        exact ⟨first ++ later, exec_cons_eq_some.mpr ⟨_, _, _, hfirst, hlater, rfl⟩,
          elapsed_append first later⟩

end DotMatrixPrinter.LineScript
