/-
# The dialogue

Seen from the serial port the sketch is in one of two situations: it awaits a
selection, or a message is being typed. The mode variable and the index of the
buffer encode them, and of the pairs of values the two variables could take only a
few occur. This module says once what an iteration of `loop` does, as a step of the
dialogue with the list of its effects, and shows that every iteration is such a step.
No store and no print leaves the buffer on the way.

What a session shows on one side, as frames or on the console, is then a machine on the
dialogue that puts something out at each of its steps. The session refines every such
machine that agrees with the effects of the steps.
-/

import DotMatrixPrinter.Sketch.Loop

namespace DotMatrixPrinter

variable {T : Target}

/-- Where a session is. -/
inductive Dialog
  /-- A selection is awaited. -/
  | idle
  /-- A message is being typed; these bytes of it are not printed yet. -/
  | message (typed : List UInt8)

/-- The globals that stand for a situation. -/
inductive Tracks (cbm : CBM T) : Sketch T → Dialog → Prop
  | idle {testMode : ℤ} {data : Vector UInt8 dataMaxLength}
      (hmode : testMode = -1 ∨ testMode = 0) : Tracks cbm ⟨cbm, testMode, data, -1⟩ .idle
  | message {data : Vector UInt8 dataMaxLength} {typed : List UInt8}
      (hroom : typed.length ≤ 998) (hdata : typed <+: data.toList) :
      Tracks cbm ⟨cbm, 2, data, typed.length⟩ (.message typed)

/-- One iteration, as a step of the dialogue, with what the sketch does. -/
inductive DialogStep (cbm : CBM T) :
    Dialog → Option UInt8 → Dialog → List Effect → Prop
  | quiet (d : Dialog) : DialogStep cbm d none d []
  | ignored {val : UInt8} (h1 : val ≠ '1'.toUInt8) (h2 : val ≠ '2'.toUInt8) :
      DialogStep cbm .idle (some val) .idle [.serialPrintlnChar val]
  | selfTest {script : PinScript} (h : cbm.printSelfTest = some script) :
      DialogStep cbm .idle (some '1'.toUInt8) .idle
        (.serialPrintlnChar '1'.toUInt8 ::
          ([.serialPrintln "Now printing...", .bus script, .serialPrintln "Done."] ++ testMenu))
  | opened : DialogStep cbm .idle (some '2'.toUInt8) (.message [])
      [.serialPrintlnChar '2'.toUInt8, .serialPrintln "Type text to be printed (# ends):"]
  | ended {typed rest : List UInt8} {what : Printed} (hroom : typed.length ≤ 998)
      (h : cbm.println (typed ++ 0 :: rest) (-1) = some what) :
      DialogStep cbm (.message typed) (some '#'.toUInt8) .idle
        (.serialPrintlnChar '#'.toUInt8 ::
          ([.store typed.length 0, .printed (typed ++ 0 :: rest) what,
            .serialPrintln "Done."] ++ testMenu))
  | appended {typed : List UInt8} {val : UInt8} (hval : val ≠ '#'.toUInt8)
      (hroom : typed.length < 998) :
      DialogStep cbm (.message typed) (some val) (.message (typed ++ [val]))
        [.serialPrintlnChar val, .store typed.length val]
  | flushed {typed rest : List UInt8} {val : UInt8} {what : Printed}
      (hval : val ≠ '#'.toUInt8) (hfull : typed.length = 998)
      (h : print T (typed ++ val :: 0 :: rest) dataMaxLength = some what) :
      DialogStep cbm (.message typed) (some val) (.message [])
        [.serialPrintlnChar val, .store typed.length val, .store (typed.length + 1) 0,
          .printed (typed ++ val :: 0 :: rest) what]

/-! ## Every iteration is a step of the dialogue -/

/-- `setup` leaves the sketch waiting for a selection. -/
theorem tracks_start (T : Target) : Tracks ⟨crLf T⟩ (Sketch.start T) .idle :=
  .idle (Or.inl rfl)

theorem Tracks.cbm_eq {cbm : CBM T} {s : Sketch T} {d : Dialog} (h : Tracks cbm s d) :
    s.cbm = cbm := by
  cases h with
  | idle | message => rfl

/-- An empty message has its index at the first cell. -/
theorem tracks_opened (cbm : CBM T) (data : Vector UInt8 dataMaxLength) :
    Tracks cbm ⟨cbm, 2, data, 0⟩ (.message []) := by
  have hroom : ([] : List UInt8).length ≤ 998 := by simp
  exact .message hroom List.nil_prefix

theorem selectTestMode_of_nonpos {testMode : ℤ} (h : testMode = -1 ∨ testMode = 0)
    (val : UInt8) :
    Sketch.selectTestMode testMode val =
      if val = '1'.toUInt8 then 1 else if val = '2'.toUInt8 then 2 else testMode := by
  rw [Sketch.selectTestMode, if_pos (by omega)]

/-- An iteration that reads a byte echoes it before it acts on it. -/
theorem loop_of_handle {s s' : Sketch T} {val : UInt8} {effects : List Effect}
    (h : Sketch.handle { s with testMode := Sketch.selectTestMode s.testMode val } val =
      some (s', effects)) :
    s.loop (some val) = some (s', .serialPrintlnChar val :: effects) := by
  simp [Sketch.loop, h]

/-- The cell behind what is typed is in the buffer. -/
theorem lt_dataMaxLength {n : ℕ} (h : n ≤ 998) : n < dataMaxLength := by
  simp only [dataMaxLength]
  omega

/-- A store right behind what is typed succeeds and leaves what is typed alone. -/
theorem exists_store {s : Sketch T} {typed : List UInt8} (hdata : typed <+: s.data.toList)
    (hroom : typed.length < dataMaxLength) (value : UInt8) :
    ∃ data rest, s.store typed.length value = some { s with data := data } ∧
      data.toList = typed ++ value :: rest := by
  rcases hdata with ⟨cells, hcells⟩
  have hlength : typed.length + cells.length = dataMaxLength := by
    rw [← List.length_append, hcells, Vector.length_toList]
  cases cells with
  | nil => exact absurd hroom (by simp at hlength; omega)
  | cons cell cells =>
      refine ⟨s.data.set typed.length value hroom, cells, ?_, ?_⟩
      · rw [Sketch.store, dif_pos ⟨by omega, by omega⟩]
        rfl
      · rw [Vector.toList_set, ← hcells]
        simp

theorem exists_endMessage {cbm : CBM T} {data : Vector UInt8 dataMaxLength}
    {typed : List UInt8} (hroom : typed.length ≤ 998) (hdata : typed <+: data.toList) :
    ∃ data' rest what,
      Sketch.endMessage ⟨cbm, 2, data, typed.length⟩ = some (⟨cbm, 0, data', -1⟩,
        [.store typed.length 0, .printed (typed ++ 0 :: rest) what, .serialPrintln "Done."] ++
          testMenu) ∧
      cbm.println (typed ++ 0 :: rest) (-1) = some what := by
  rcases exists_store (s := ⟨cbm, 2, data, typed.length⟩) hdata (lt_dataMaxLength hroom) 0 with
    ⟨data', rest, hstore, hdata'⟩
  rcases exists_println cbm (typed ++ 0 :: rest) (by simp) (-1) with ⟨what, hwhat⟩
  refine ⟨data', rest, what, ?_, hwhat⟩
  rw [← hdata'] at hwhat ⊢
  simp [Sketch.endMessage, hstore, hwhat]

theorem exists_appendChar {cbm : CBM T} {data : Vector UInt8 dataMaxLength}
    {typed : List UInt8} (hroom : typed.length < 998) (hdata : typed <+: data.toList)
    (val : UInt8) :
    ∃ data', Sketch.appendChar ⟨cbm, 2, data, typed.length⟩ val =
        some (⟨cbm, 2, data', (typed ++ [val]).length⟩, [.store typed.length val]) ∧
      typed ++ [val] <+: data'.toList := by
  rcases exists_store (s := ⟨cbm, 2, data, typed.length⟩) hdata (lt_dataMaxLength hroom.le)
    val with ⟨data', rest, hstore, hdata'⟩
  have hmore : ¬ (typed.length : ℤ) + 1 + 1 ≥ (dataMaxLength : ℤ) := by
    simp only [dataMaxLength]
    omega
  refine ⟨data', ?_, ⟨rest, by rw [hdata', List.append_assoc, List.singleton_append]⟩⟩
  simp [Sketch.appendChar, hstore, hmore]

/-- The byte that fills the buffer is stored, a terminator is stored behind it, and
the buffer is printed. -/
theorem exists_flush {cbm : CBM T} {data : Vector UInt8 dataMaxLength} {typed : List UInt8}
    (hfull : typed.length = 998) (hdata : typed <+: data.toList) (val : UInt8) :
    ∃ data' rest what, Sketch.appendChar ⟨cbm, 2, data, typed.length⟩ val =
        some (⟨cbm, 2, data', 0⟩, [.store typed.length val, .store (typed.length + 1) 0,
          .printed (typed ++ val :: 0 :: rest) what]) ∧
      print T (typed ++ val :: 0 :: rest) dataMaxLength = some what := by
  rcases exists_store (s := ⟨cbm, 2, data, typed.length⟩) hdata (lt_dataMaxLength hfull.le)
    val with ⟨data₁, rest₁, hstore₁, hdata₁⟩
  have hnext : (typed ++ [val]).length < dataMaxLength := by
    simp only [List.length_append, List.length_singleton, dataMaxLength]
    omega
  rcases exists_store (s := ⟨cbm, 2, data₁, typed.length + 1⟩)
      ⟨rest₁, by rw [hdata₁, List.append_assoc, List.singleton_append]⟩ hnext 0 with
    ⟨data', rest, hstore, hdata'⟩
  rcases exists_print (T := T) (typed ++ val :: 0 :: rest) (by simp) dataMaxLength with
    ⟨what, hwhat⟩
  refine ⟨data', rest, what, ?_, hwhat⟩
  have hflush : (typed.length : ℤ) + 1 + 1 ≥ (dataMaxLength : ℤ) := by
    simp only [dataMaxLength]
    omega
  rw [List.append_assoc, List.singleton_append] at hdata'
  rw [List.length_append, List.length_singleton, Nat.cast_add, Nat.cast_one] at hstore
  rw [← hdata'] at hwhat ⊢
  simp only [Sketch.appendChar, hstore₁, hstore, hwhat, if_pos hflush, bind, pure,
    Option.bind_some]

/-- While a message is typed, a byte ends it or is stored. -/
theorem handle_message (cbm : CBM T) (data : Vector UInt8 dataMaxLength) {n : ℕ}
    (hn : n < dataMaxLength) (val : UInt8) :
    Sketch.handle ⟨cbm, 2, data, n⟩ val =
      if val = '#'.toUInt8 then Sketch.endMessage ⟨cbm, 2, data, n⟩
      else Sketch.appendChar ⟨cbm, 2, data, n⟩ val := by
  have hopen : (n : ℤ) ≠ -1 := by omega
  have hlt : (n : ℤ) < dataMaxLength := by exact_mod_cast hn
  rw [Sketch.handle, if_neg (by simp), if_pos rfl, if_neg hopen, if_pos hlt]

theorem exists_dialogStep_idle {cbm : CBM T} {testMode : ℤ} {data : Vector UInt8 dataMaxLength}
    (hmode : testMode = -1 ∨ testMode = 0) (val : UInt8) :
    ∃ s' d' effects, Sketch.loop ⟨cbm, testMode, data, -1⟩ (some val) = some (s', effects) ∧
      DialogStep cbm .idle (some val) d' effects ∧ Tracks cbm s' d' := by
  have hselect := selectTestMode_of_nonpos hmode val
  by_cases h1 : val = '1'.toUInt8
  · subst h1
    rcases exists_printSelfTest cbm with ⟨script, hscript⟩
    refine ⟨⟨cbm, 0, data, -1⟩, .idle, _, loop_of_handle ?_, .selfTest hscript,
      .idle (Or.inr rfl)⟩
    simp [Sketch.handle, Sketch.selfTest, hselect, hscript]
  · by_cases h2 : val = '2'.toUInt8
    · subst h2
      refine ⟨⟨cbm, 2, data, 0⟩, .message [], _, loop_of_handle ?_, .opened,
        tracks_opened cbm data⟩
      simp [Sketch.handle, Sketch.askMessage, hselect, h1]
    · refine ⟨⟨cbm, testMode, data, -1⟩, .idle, _, loop_of_handle ?_, .ignored h1 h2,
        .idle hmode⟩
      have hmode1 : testMode ≠ 1 := by omega
      have hmode2 : testMode ≠ 2 := by omega
      simp [Sketch.handle, hselect, h1, h2, hmode1, hmode2]

theorem exists_dialogStep_message {cbm : CBM T} {data : Vector UInt8 dataMaxLength}
    {typed : List UInt8} (hroom : typed.length ≤ 998) (hdata : typed <+: data.toList)
    (val : UInt8) :
    ∃ s' d' effects, Sketch.loop ⟨cbm, 2, data, typed.length⟩ (some val) = some (s', effects) ∧
      DialogStep cbm (.message typed) (some val) d' effects ∧ Tracks cbm s' d' := by
  have hhandle := handle_message cbm data (lt_dataMaxLength hroom) val
  by_cases hend : val = '#'.toUInt8
  · subst hend
    rcases exists_endMessage hroom hdata with ⟨data', rest, what, hout, hwhat⟩
    rw [if_pos rfl, hout] at hhandle
    exact ⟨⟨cbm, 0, data', -1⟩, .idle, _, loop_of_handle hhandle, .ended hroom hwhat,
      .idle (Or.inr rfl)⟩
  · rw [if_neg hend] at hhandle
    rcases hroom.lt_or_eq with hless | hfull
    · rcases exists_appendChar hless hdata val with ⟨data', hout, hdata'⟩
      rw [hout] at hhandle
      exact ⟨⟨cbm, 2, data', (typed ++ [val]).length⟩, .message (typed ++ [val]), _,
        loop_of_handle hhandle, .appended hend hless, .message (by simp; omega) hdata'⟩
    · rcases exists_flush hfull hdata val with ⟨data', rest, what, hout, hwhat⟩
      rw [hout] at hhandle
      exact ⟨⟨cbm, 2, data', 0⟩, .message [], _, loop_of_handle hhandle,
        .flushed hend hfull hwhat, tracks_opened cbm data'⟩

/-- Every iteration is a step of the dialogue, and keeps the globals on its
situations. In particular no iteration leaves defined behavior. -/
theorem exists_dialogStep {cbm : CBM T} {s : Sketch T} {d : Dialog} (h : Tracks cbm s d)
    (input : Option UInt8) :
    ∃ s' d' effects, s.loop input = some (s', effects) ∧ DialogStep cbm d input d' effects ∧
      Tracks cbm s' d' := by
  cases input with
  | none => exact ⟨s, d, [], rfl, .quiet d, h⟩
  | some val =>
      cases h with
      | idle hmode => exact exists_dialogStep_idle hmode val
      | message hroom hdata => exact exists_dialogStep_message hroom hdata val

/-! ## Machines that follow the dialogue -/

/-- What is put out at each step of the dialogue. -/
structure Responses (ο : Type*) where
  ignored : UInt8 → List ο
  selfTest : List ο
  opened : List ο
  stored : UInt8 → List ο
  /-- The byte fills the block that these bytes have opened. -/
  flushed : List UInt8 → UInt8 → List ο
  /-- The message ends with these bytes not printed yet. -/
  ended : List UInt8 → List ο

namespace Responses

variable {ο : Type*} (A : Responses ο)

/-- The dialogue with these responses. -/
def machine : Math.Transducer Dialog UInt8 ο where
  step
    | .idle, val =>
        if val = '1'.toUInt8 then (.idle, A.selfTest)
        else if val = '2'.toUInt8 then (.message [], A.opened)
        else (.idle, A.ignored val)
    | .message typed, val =>
        if val = '#'.toUInt8 then (.idle, A.ended typed)
        else if (typed ++ [val]).length = 999 then (.message [], A.flushed typed val)
        else (.message (typed ++ [val]), A.stored val)

theorem step_ignored {val : UInt8} (h1 : val ≠ '1'.toUInt8) (h2 : val ≠ '2'.toUInt8) :
    A.machine.step .idle val = (.idle, A.ignored val) := by
  simp only [machine, if_neg h1, if_neg h2]

theorem step_selfTest : A.machine.step .idle '1'.toUInt8 = (.idle, A.selfTest) := rfl

theorem step_opened : A.machine.step .idle '2'.toUInt8 = (.message [], A.opened) := rfl

theorem step_ended (typed : List UInt8) :
    A.machine.step (.message typed) '#'.toUInt8 = (.idle, A.ended typed) := rfl

theorem step_flushed {typed : List UInt8} {val : UInt8} (hval : val ≠ '#'.toUInt8)
    (hfull : (typed ++ [val]).length = 999) :
    A.machine.step (.message typed) val = (.message [], A.flushed typed val) := by
  simp only [machine, if_neg hval, if_pos hfull]

theorem step_stored {typed : List UInt8} {val : UInt8} (hval : val ≠ '#'.toUInt8)
    (hroom : (typed ++ [val]).length ≠ 999) :
    A.machine.step (.message typed) val = (.message (typed ++ [val]), A.stored val) := by
  simp only [machine, if_neg hval, if_neg hroom]

end Responses

/-- A machine that puts out at each step of the dialogue what an iteration shows is
refined by the session. -/
theorem refines_of_dialogStep {ο : Type*} {N : Math.Transducer Dialog UInt8 ο}
    {view : Effect → List ο}
    (h : ∀ d input d' effects, DialogStep ⟨crLf T⟩ d input d' effects →
      N.run d input.toList = (d', effects.flatMap view)) :
    (session T).Refines N Option.toList view (Tracks ⟨crLf T⟩) where
  step s d input hs := by
    rcases exists_dialogStep hs input with ⟨s', d', effects, hloop, hstep, hs'⟩
    have hmachine := h d input d' effects hstep
    refine ⟨s', effects, hloop, ?_, ?_⟩
    · rw [hmachine]
      exact hs'
    · rw [hmachine]

end DotMatrixPrinter
