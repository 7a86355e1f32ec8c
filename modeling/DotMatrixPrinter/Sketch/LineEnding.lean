/-
# Line endings

`println` prints the configured newline the way it prints a text, so the newline
goes through `cbm_switch_case` too. A carriage return and a line feed are control
characters there and become spaces: whatever newline is configured, the printer
never gets one, while the rows of the self test end with the raw codes. This module
states what a line ending is meant to be, for one `println` and for the messages of
a session, and shows that each holds only where there is nothing to end a line with
or no line to end: no message is among the requests of what is typed.
-/

import DotMatrixPrinter.Driver.Conversion
import DotMatrixPrinter.Sketch.Conversation

namespace DotMatrixPrinter

variable {T : Target}

/-- `println` sends what `print` sends, then the newline as it was configured. -/
def LineEnds (cbm : CBM T) (text : CharPtr) (length : ℤ) : Prop :=
  Printed.frames (cbm.println text length) =
    Printed.frames (print T text length) ++ cbm.newline.chars

/-- The next byte completes a message. -/
def CompletesMessage (s : Sketch T) (input : Option UInt8) : Prop :=
  s.testMode = 2 ∧ 0 ≤ s.dataIndex ∧ input = some '#'.toUInt8

/-- Every message a session completes is ended with the configured newline. -/
def MessagesEnd (T : Target) (inputs : List (Option UInt8)) : Prop :=
  ∀ before input later s effects s' here, inputs = before ++ input :: later →
    (session T).run (Sketch.start T) before = some (s, effects) → CompletesMessage s input →
    s.loop input = some (s', here) → s.cbm.newline.chars <:+ here.flatMap Effect.frames

/-- No message is among the requests of what is typed. -/
def NoMessage (inputs : List (Option UInt8)) : Prop :=
  ∀ text, .message text ∉ (Conversation.parse (inputs.flatMap Option.toList)).requests

/-! ## What is sent for a newline -/

/-- A newline of carriage returns and line feeds is sent as spaces. -/
theorem framesOf_newline (newline : ArduinoString T)
    (h : ∀ c ∈ newline.chars, c = '\r'.toUInt8 ∨ c = '\n'.toUInt8) :
    Printed.frames (printString newline) = List.replicate newline.length 32 := by
  have hnul : (0 : UInt8) ∉ newline.chars := fun hmem => by
    rcases h 0 hmem with hcr | hlf
    · cases hcr
    · cases hlf
  have hcut : newline.cStr.takeWhile (· ≠ 0) = newline.chars :=
    (Math.TerminatedScan.takeWhile_append_stop 0 newline.chars []).trans (cut_of_not_mem hnul)
  have hspaces : newline.chars.map (convert T) = List.replicate newline.length 32 := by
    apply List.map_eq_replicate_iff.mpr
    intro c hc
    rcases h c hc with rfl | rfl
    · exact convert_control (by decide)
    · exact convert_control (by decide)
  have hout := printString_out newline
  rw [hcut, hspaces] at hout
  rcases Option.map_eq_some_iff.mp hout with ⟨printed, hprinted, hsent⟩
  rw [Printed.frames, hprinted, Option.map_some, Option.getD_some, hsent, framesOf_sendFrames]

/-- What `println` sends: the text, then the newline as `print` sends it. -/
theorem frames_println {cbm : CBM T} {text : CharPtr} {length : ℤ}
    (h : ∃ printed, print T text length = some printed) :
    Printed.frames (cbm.println text length) =
      Printed.frames (print T text length) ++ Printed.frames (printString cbm.newline) := by
  rcases h with ⟨line, hline⟩
  rcases exists_printString cbm.newline with ⟨ending, hending⟩
  simp [Printed.frames, CBM.println, hline, hending]

/-- A `println` ends its line exactly when there is nothing to end it with. -/
theorem lineEnds_iff {cbm : CBM T} {text : CharPtr} {length : ℤ}
    (h : ∃ printed, print T text length = some printed)
    (hnewline : ∀ c ∈ cbm.newline.chars, c = '\r'.toUInt8 ∨ c = '\n'.toUInt8) :
    LineEnds cbm text length ↔ cbm.newline.chars = [] := by
  rw [LineEnds, frames_println h, framesOf_newline _ hnewline, List.append_right_inj]
  constructor
  · intro heq
    cases hchars : cbm.newline.chars with
    | nil => rfl
    | cons c rest =>
        have hc : c ∈ cbm.newline.chars := by simp [hchars]
        have hspace : c = 32 := List.eq_of_mem_replicate (heq ▸ hc)
        rcases hnewline c hc with rfl | rfl
        · cases hspace
        · cases hspace
  · intro hnil
    rw [ArduinoString.length, hnil]
    rfl

/-! ## The messages of a session -/

theorem newlineFrames_eq (T : Target) : newlineFrames T = [32, 32] :=
  framesOf_newline (crLf T) (by simp [crLf, newlineChars, ArduinoString.ofChars])

/-- A byte completes a message when it is a `#` and a text is being typed. -/
theorem completesMessage_iff {cbm : CBM T} {s : Sketch T} {c : Conversation}
    (hs : Tracks cbm s c.dialog) {input : Option UInt8} :
    CompletesMessage s input ↔ (∃ text, c.typing = some text) ∧ input = some '#'.toUInt8 := by
  obtain ⟨requests, typing⟩ := c
  cases typing with
  | none =>
      cases hs with
      | idle => simp [CompletesMessage]
  | some text =>
      cases hs with
      | message => simp [CompletesMessage]

/-- The iteration that completes a message prints what is left of it and two spaces. -/
theorem frames_of_completesMessage {s : Sketch T} {d : Dialog} (hs : Tracks ⟨crLf T⟩ s d)
    {input : Option UInt8} (hcomplete : CompletesMessage s input) :
    ∃ s' here typed, s.loop input = some (s', here) ∧
      here.flatMap Effect.frames = printFrames T (cut typed) ++ [32, 32] := by
  rcases hcomplete with ⟨hmode, hindex, rfl⟩
  rcases exists_dialogStep hs (some '#'.toUInt8) with ⟨s', d', here, hloop, hstep, -⟩
  have hframes := reference_of_dialogStep _ _ _ _ hstep
  cases hs with
  | idle => exact absurd hindex (by simp)
  | @message data typed =>
      refine ⟨s', here, typed, hloop, ?_⟩
      have hend : (reference T).run (.message typed) ['#'.toUInt8] =
          (.idle, printFrames T (cut typed) ++ newlineFrames T) := by
        rw [Math.Transducer.run_singleton, reference, Responses.step_ended]
        rfl
      rw [Option.toList_some, hend, newlineFrames_eq] at hframes
      exact (Prod.mk.inj hframes).2.symm

/-- No message is ended as it is meant to be: two spaces are not a carriage return and
a line feed. So a session ends its messages exactly when it has none to end. -/
theorem messagesEnd_iff (T : Target) (inputs : List (Option UInt8)) :
    MessagesEnd T inputs ↔ NoMessage inputs := by
  constructor
  · intro hend text htext
    rcases Conversation.message_mem_parse_iff.mp htext with ⟨before, later, hinputs, htyping⟩
    rcases (session_refines T).run (tracks_start T) before with ⟨s, effects, hrun, -, -⟩
    have hs := tracks_parse hrun
    have hcomplete := (completesMessage_iff hs).mpr ⟨⟨text, htyping⟩, rfl⟩
    rcases frames_of_completesMessage hs hcomplete with ⟨s', here, typed, hloop, hframes⟩
    rcases hend before _ later s effects s' here hinputs hrun hcomplete hloop with ⟨sent, hsent⟩
    rw [hs.cbm_eq, hframes] at hsent
    have hlast := (List.append_inj' hsent rfl).2
    cases hlast
  · intro hnone before input later s effects s' here hinputs hrun hcomplete
    rcases (completesMessage_iff (tracks_parse hrun)).mp hcomplete with ⟨⟨text, htyping⟩, rfl⟩
    have htext := Conversation.message_mem_parse_iff.mpr ⟨before, later, hinputs, htyping⟩
    exact absurd htext (hnone text)

/-- After any calls, with a newline of carriage returns and line feeds, a `println` ends
its line exactly when the newline is empty, and a session ends its messages exactly when
no message is among the requests of what is typed. -/
theorem line_endings_reach_iff (T : Target) (cbm : CBM T) (calls : List (Call T))
    (text : CharPtr) (length : ℤ) (inputs : List (Option UInt8))
    (h : ∃ printed, print T text length = some printed)
    (hnewline : ∀ c ∈ (afterCalls cbm calls).newline.chars,
      c = '\r'.toUInt8 ∨ c = '\n'.toUInt8) :
    (LineEnds (afterCalls cbm calls) text length ↔ (afterCalls cbm calls).newline.chars = []) ∧
      (MessagesEnd T inputs ↔ NoMessage inputs) :=
  ⟨lineEnds_iff h hnewline, messagesEnd_iff T inputs⟩

/-- The default newline does not end a line, and `setup`'s does not end a message. -/
theorem line_endings_do_not_reach :
    ¬ LineEnds (CBM.new .avr) (literal "ok") (-1) ∧
      ¬ MessagesEnd .avr [some '2'.toUInt8, some 'a'.toUInt8, some '#'.toUInt8] := by
  refine ⟨fun hends => ?_, fun hend => ?_⟩
  · have hempty := (lineEnds_iff (exists_print _ (by simp [literal]) (-1))
      (by simp [CBM.new, ArduinoString.ofChars])).mp hends
    cases hempty
  · have htext : '#'.toUInt8 ∉ ['a'.toUInt8] := by decide
    apply (messagesEnd_iff .avr _).mp hend ⟨['a'.toUInt8], htext⟩
    exact List.mem_singleton_self _

/-- An empty newline ends a line, and a self test leaves no message to end. -/
theorem line_endings_reach_when_empty :
    LineEnds (afterCalls (CBM.new .avr) [.setNewline (.ofChars [] (by decide))])
        (literal "ok") (-1) ∧
      NoMessage [some '1'.toUInt8] ∧ MessagesEnd .avr [some '1'.toUInt8] := by
  have hboth := line_endings_reach_iff .avr (CBM.new .avr)
    [.setNewline (.ofChars [] (by decide))] (literal "ok") (-1) [some '1'.toUInt8]
    (exists_print _ (by simp [literal]) (-1))
    (by simp [afterCalls, Call.after, CBM.setNewline, ArduinoString.ofChars])
  have hnone : NoMessage [some '1'.toUInt8] := by
    intro text
    simp [Conversation.parse, Conversation.read, Conversation.add]
  exact ⟨hboth.1.mpr rfl, hnone, hboth.2.mpr hnone⟩

end DotMatrixPrinter
