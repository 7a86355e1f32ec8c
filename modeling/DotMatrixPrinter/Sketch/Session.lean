/-
# The session as a reference machine

What a session is for, without a buffer: a machine that awaits a selection or
collects a message of any length. It prints the message in blocks of 999 bytes, each
cut at its first NUL, and ends it with the line ending. The sketch refines it: from
`setup` on, for every sequence of bytes and of iterations without a byte, the
values the sketch passes to `cbm_serial_write_frame` are the machine's output.

For a message without NUL the blocks cannot be told apart any more, so what is
printed is the print of the whole message, whatever its length.
-/

import DotMatrixPrinter.Sketch.Dialog
import Mathlib.Data.List.TakeWhile

namespace DotMatrixPrinter

variable {T : Target}

/-! ## The reference machine -/

/-- The frames of a print, if it stays inside its text. -/
def Printed.frames (printed : Option Printed) : List UInt8 :=
  (printed.map fun what => framesOf what.out).getD []

/-- The frames of `print(text)` for the characters of `text`. -/
def printFrames (T : Target) (text : List UInt8) : List UInt8 :=
  Printed.frames (print T (text ++ [0]) (-1))

/-- The frames of `print(newline)`, as `setup` configures the newline. -/
def newlineFrames (T : Target) : List UInt8 := Printed.frames (printString (crLf T))

/-- The frames of one `printSelfTest()`. -/
def selfTestFrames (T : Target) : List UInt8 :=
  ((CBM.printSelfTest ⟨crLf T⟩).map framesOf).getD []

/-- A block up to its first NUL. -/
def cut (block : List UInt8) : List UInt8 := block.takeWhile (· ≠ 0)

/-- What the machine without a buffer prints: a block when its 999 bytes are typed, and
what is left with the line ending when the message ends, both cut. -/
def frameResponses (T : Target) : Responses UInt8 where
  ignored _ := []
  selfTest := selfTestFrames T
  opened := []
  stored _ := []
  flushed typed val := printFrames T (cut (typed ++ [val]))
  ended typed := printFrames T (cut typed) ++ newlineFrames T

/-- The machine without a buffer. -/
def reference (T : Target) : Math.Transducer Dialog UInt8 UInt8 := (frameResponses T).machine

/-! ## What is printed of a block -/

theorem not_mem_cut (block : List UInt8) : (0 : UInt8) ∉ cut block := by
  intro h
  have hne := List.mem_takeWhile_imp h
  simp at hne

theorem cut_of_not_mem {block : List UInt8} (h : (0 : UInt8) ∉ block) : cut block = block := by
  apply List.takeWhile_eq_self_iff.mpr
  intro c hc
  have hne : c ≠ 0 := fun hzero => h (hzero ▸ hc)
  simpa using hne

theorem printFrames_of_not_mem {text : List UInt8} (h : (0 : UInt8) ∉ text) :
    printFrames T text = text.map (convert T) := by
  have hframes : printedFrames T (text ++ [0]) = some (text.map (convert T)) :=
    printedFrames_eq h
  rw [printFrames, Printed.frames, ← printedFrames, hframes, Option.getD_some]

/-- Printing does not see where a text without NUL is divided. -/
theorem printFrames_append {first later : List UInt8} (hfirst : (0 : UInt8) ∉ first)
    (hlater : (0 : UInt8) ∉ later) :
    printFrames T (first ++ later) = printFrames T first ++ printFrames T later := by
  have hwhole : (0 : UInt8) ∉ first ++ later := fun h =>
    (List.mem_append.mp h).elim hfirst hlater
  rw [printFrames_of_not_mem hwhole, printFrames_of_not_mem hfirst,
    printFrames_of_not_mem hlater, List.map_append]

/-- A print of the buffer prints what is typed before the terminator, cut. -/
theorem framesOf_print {typed rest : List UInt8} {length : ℤ}
    (hlength : length < 0 ∨ typed.length < length) {what : Printed}
    (h : print T (typed ++ 0 :: rest) length = some what) :
    framesOf what.out = printFrames T (cut typed) := by
  rcases print_append_nul hlength h with ⟨k, -, -, -, hout⟩
  rw [hout, framesOf_sendFrames, printFrames_of_not_mem (not_mem_cut typed)]
  rfl

theorem framesOf_println {typed rest : List UInt8} {what : Printed}
    (h : CBM.println ⟨crLf T⟩ (typed ++ 0 :: rest) (-1) = some what) :
    framesOf what.out = printFrames T (cut typed) ++ newlineFrames T := by
  rcases exists_of_println_eq_some h with ⟨line, ending, hline, hending, rfl⟩
  have hnewline : newlineFrames T = framesOf ending.out := by
    rw [newlineFrames, hending]
    rfl
  rw [framesOf_append, framesOf_print (Or.inl (by decide)) hline, hnewline]

/-! ## Refinement -/

/-- A step of the dialogue is a step of the reference machine, with the frames of its
effects put out. -/
theorem reference_of_dialogStep (d : Dialog) (input : Option UInt8) (d' : Dialog)
    (effects : List Effect) (h : DialogStep ⟨crLf T⟩ d input d' effects) :
    (reference T).run d input.toList = (d', effects.flatMap Effect.frames) := by
  have hmenu : testMenu.flatMap Effect.frames = [] := rfl
  cases h with
  | quiet => rfl
  | ignored h1 h2 =>
      rw [Option.toList_some, Math.Transducer.run_singleton, reference,
        Responses.step_ignored _ h1 h2]
      rfl
  | @selfTest script hscript =>
      rw [Option.toList_some, Math.Transducer.run_singleton, reference, Responses.step_selfTest]
      simp [frameResponses, selfTestFrames, hscript, hmenu, Effect.frames]
  | opened => rfl
  | @ended typed rest what hroom hwhat =>
      rw [Option.toList_some, Math.Transducer.run_singleton, reference, Responses.step_ended]
      simp [frameResponses, hmenu, Effect.frames, framesOf_println hwhat]
  | @appended typed val hval hroom =>
      have hless : (typed ++ [val]).length ≠ 999 := by
        rw [List.length_append, List.length_singleton]
        omega
      rw [Option.toList_some, Math.Transducer.run_singleton, reference,
        Responses.step_stored _ hval hless]
      rfl
  | @flushed typed rest val what hval hfull hwhat =>
      have hlast : (typed ++ [val]).length = 999 := by
        rw [List.length_append, List.length_singleton, hfull]
      have hprint : print T ((typed ++ [val]) ++ 0 :: rest) dataMaxLength = some what := by
        rw [List.append_assoc]
        exact hwhat
      have hframes := framesOf_print (Or.inr (by rw [hlast]; decide)) hprint
      rw [Option.toList_some, Math.Transducer.run_singleton, reference,
        Responses.step_flushed _ hval hlast]
      simp [frameResponses, Effect.frames, hframes]

/-- The sketch refines the reference machine. -/
theorem session_refines (T : Target) :
    (session T).Refines (reference T) Option.toList Effect.frames (Tracks ⟨crLf T⟩) :=
  refines_of_dialogStep reference_of_dialogStep

/-! ## Messages without NUL -/

/-- The blocks of a message without NUL print like the message. -/
theorem reference_message {typed message : List UInt8} (htyped : (0 : UInt8) ∉ typed)
    (hnul : (0 : UInt8) ∉ message) (hend : '#'.toUInt8 ∉ message) :
    (reference T).run (.message typed) (message ++ ['#'.toUInt8]) =
      (.idle, printFrames T (typed ++ message) ++ newlineFrames T) := by
  induction message generalizing typed with
  | nil =>
      rw [List.nil_append, Math.Transducer.run_singleton, List.append_nil, reference,
        Responses.step_ended]
      simp [frameResponses, cut_of_not_mem htyped]
  | cons val message ih =>
      simp only [List.mem_cons, not_or] at hnul hend
      have hval : val ≠ '#'.toUInt8 := fun h => hend.1 h.symm
      have hnext : (0 : UInt8) ∉ typed ++ [val] := by simpa [htyped] using hnul.1
      have hsplit : typed ++ val :: message = typed ++ [val] ++ message := by simp
      rw [List.cons_append, Math.Transducer.run, hsplit]
      by_cases hfull : (typed ++ [val]).length = 999
      · have hstep : (reference T).step (.message typed) val =
            (.message [], printFrames T (cut (typed ++ [val]))) :=
          Responses.step_flushed _ hval hfull
        rw [hstep, ih List.not_mem_nil hnul.2 hend.2, cut_of_not_mem hnext, List.nil_append,
          printFrames_append hnext hnul.2, List.append_assoc]
      · have hstep : (reference T).step (.message typed) val = (.message (typed ++ [val]), []) :=
          Responses.step_stored _ hval hfull
        rw [hstep, ih hnext hnul.2 hend.2, List.nil_append]

/-- What a session from `setup` passes to `cbm_serial_write_frame`. -/
structure SessionRefines (T : Target) (inputs : List (Option UInt8)) (effects : List Effect) :
    Prop where
  frames : effects.flatMap Effect.frames =
    ((reference T).run .idle (inputs.flatMap Option.toList)).2
  /-- A last message without NUL is printed as one text, whatever its length. -/
  message : ∀ before message : List UInt8,
    inputs.flatMap Option.toList = before ++ '2'.toUInt8 :: (message ++ ['#'.toUInt8]) →
    ((reference T).run .idle before).1 = .idle → 0 ∉ message → '#'.toUInt8 ∉ message →
    effects.flatMap Effect.frames =
      ((reference T).run .idle before).2 ++ (printFrames T message ++ newlineFrames T)

theorem sessionRefines_of_frames {inputs : List (Option UInt8)} {effects : List Effect}
    (h : effects.flatMap Effect.frames =
      ((reference T).run .idle (inputs.flatMap Option.toList)).2) :
    SessionRefines T inputs effects where
  frames := h
  message before message hinputs hidle hnul hend := by
    have hopen : (reference T).step .idle '2'.toUInt8 = (.message [], []) :=
      Responses.step_opened _
    rw [h, hinputs, Math.Transducer.run_append, hidle, ← List.singleton_append,
      Math.Transducer.run_append, Math.Transducer.run_singleton, hopen,
      reference_message (by simp) hnul hend, List.nil_append, List.nil_append]

/-- From `setup` on, whatever the serial port delivers, the session always has a next
state, and its frames are the output of the reference machine. -/
theorem session_refinement (T : Target) (inputs : List (Option UInt8)) :
    ∃ s effects, (session T).run (Sketch.start T) inputs = some (s, effects) ∧
      SessionRefines T inputs effects := by
  rcases (session_refines T).run (tracks_start T) inputs with ⟨s, effects, hrun, -, hframes⟩
  exact ⟨s, effects, hrun, sessionRefines_of_frames hframes⟩

end DotMatrixPrinter
