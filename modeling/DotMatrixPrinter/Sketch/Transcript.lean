/-
# What a session shows

A session shows itself on two sides: frames to the printer and text on the console. Both
follow the grammar of what is typed. The console echoes every byte before anything else
is done with it, announces a self test, asks for a message, and says `Done.` and shows
the menu again when a request has been met; so the transcript tells every byte that was
read and where the session is.
-/

import DotMatrixPrinter.Sketch.Conversation

namespace DotMatrixPrinter

open Math.Blocks

variable {T : Target}

/-! ## The frames -/

/-- The frames of whole blocks, each cut at its first NUL. -/
def blockFrames (T : Target) (closed : List (List UInt8)) : List UInt8 :=
  closed.flatMap fun block => printFrames T (cut block)

/-- The frames of a request. -/
def Request.frames (T : Target) : Request → List UInt8
  | .ignored _ _ _ => []
  | .selfTest => selfTestFrames T
  | .message text => blockFrames T (blocks 999 [] text.val).1 ++
      (printFrames T (cut (blocks 999 [] text.val).2) ++ newlineFrames T)

/-- The frames of a message that has not ended. -/
def typingFrames (T : Target) : Option MessageText → List UInt8
  | none => []
  | some text => blockFrames T (blocks 999 [] text.val).1

theorem text_frameResponses (typed message : List UInt8) :
    (frameResponses T).text typed message = blockFrames T (blocks 999 typed message).1 :=
  Responses.text_eq_flatMap (fun _ => rfl) (fun _ _ => rfl) typed message

theorem request_frameResponses : (frameResponses T).request = Request.frames T := by
  funext r
  cases r with
  | ignored | selfTest => rfl
  | message text =>
      rw [Responses.request, text_frameResponses]
      rfl

theorem typing_frameResponses : (frameResponses T).typing = typingFrames T := by
  funext typing
  cases typing with
  | none => rfl
  | some text => exact text_frameResponses [] text.val

/-- Blocks without NUL print like the text they are cut from. -/
theorem blockFrames_of_not_mem {closed : List (List UInt8)} (h : (0 : UInt8) ∉ closed.flatten) :
    blockFrames T closed = printFrames T closed.flatten := by
  induction closed with
  | nil => exact (printFrames_of_not_mem List.not_mem_nil).symm
  | cons block closed ih =>
      rw [List.flatten_cons, List.mem_append, not_or] at h
      rw [List.flatten_cons, printFrames_append h.1 h.2, ← ih h.2, ← cut_of_not_mem h.1]
      simp [blockFrames, cut_of_not_mem h.1]

/-- A message without NUL is printed as one text. -/
theorem frames_message_of_not_mem {text : MessageText} (h : (0 : UInt8) ∉ text.val) :
    (Request.message text).frames T = printFrames T text.val ++ newlineFrames T := by
  have htext := flatten_blocks (n := 999) [] text.val
  rw [List.nil_append] at htext
  rw [← htext, List.mem_append, not_or] at h
  rw [Request.frames, blockFrames_of_not_mem h.1, cut_of_not_mem h.2, ← List.append_assoc,
    ← printFrames_append h.1 h.2, htext]

/-- What is printed of a message. -/
structure MessagePrinted (T : Target) (text : MessageText) : Prop where
  /-- It is cut into blocks of 999 bytes and a shorter rest. -/
  blocks : ∃ closed rest, text.val = closed.flatten ++ rest ∧
    (∀ block ∈ closed, block.length = 999) ∧ rest.length < 999 ∧
    (Request.message text).frames T =
      blockFrames T closed ++ (printFrames T (cut rest) ++ newlineFrames T)
  /-- Without NUL the blocks cannot be told apart. -/
  whole : (0 : UInt8) ∉ text.val →
    (Request.message text).frames T = printFrames T text.val ++ newlineFrames T

theorem messagePrinted (T : Target) (text : MessageText) : MessagePrinted T text where
  blocks := ⟨_, _, (flatten_blocks [] text.val).symm, fun _ => length_of_mem_blocks,
    length_open_lt (by decide) text.val, rfl⟩
  whole h := frames_message_of_not_mem h

/-! ## The console -/

/-- The bytes of a text on the console. -/
def consoleText (text : String) : List UInt8 := text.toList.map Char.toUInt8

/-- What `println` puts behind its argument. -/
def consoleNewline : List UInt8 := ['\r'.toUInt8, '\n'.toUInt8]

/-- What an effect puts on the console. -/
def Effect.console : Effect → List UInt8
  | .serialPrint text => consoleText text
  | .serialPrintln text => consoleText text ++ consoleNewline
  | .serialPrintlnChar val => val :: consoleNewline
  | _ => []

/-- The echo of a byte. -/
def echo (val : UInt8) : List UInt8 := Effect.console (.serialPrintlnChar val)

/-- A line of the console. -/
def consoleLine (text : String) : List UInt8 := Effect.console (.serialPrintln text)

/-- The menu. -/
def consoleMenu : List UInt8 := testMenu.flatMap Effect.console

/-- The console at each step of the dialogue. -/
def consoleResponses : Responses UInt8 where
  ignored := echo
  selfTest := echo '1'.toUInt8 ++ consoleLine "Now printing..." ++ consoleLine "Done." ++
    consoleMenu
  opened := echo '2'.toUInt8 ++ consoleLine "Type text to be printed (# ends):"
  stored := echo
  flushed _ val := echo val
  ended _ := echo '#'.toUInt8 ++ consoleLine "Done." ++ consoleMenu

/-- What a request puts on the console. -/
def Request.console : Request → List UInt8
  | .ignored val _ _ => echo val
  | .selfTest => echo '1'.toUInt8 ++ consoleLine "Now printing..." ++ consoleLine "Done." ++
      consoleMenu
  | .message text => echo '2'.toUInt8 ++ consoleLine "Type text to be printed (# ends):" ++
      text.val.flatMap echo ++ (echo '#'.toUInt8 ++ consoleLine "Done." ++ consoleMenu)

/-- What a message that has not ended has put on the console. -/
def typingConsole : Option MessageText → List UInt8
  | none => []
  | some text => echo '2'.toUInt8 ++ consoleLine "Type text to be printed (# ends):" ++
      text.val.flatMap echo

/-- Every byte of a text is echoed, whether or not it fills a block. -/
theorem text_consoleResponses (typed message : List UInt8) :
    consoleResponses.text typed message = message.flatMap echo := by
  induction message generalizing typed with
  | nil => rfl
  | cons val message ih =>
      by_cases hfull : (typed ++ [val]).length = 999
      · rw [Responses.text, if_pos hfull, ih]
        rfl
      · rw [Responses.text, if_neg hfull, ih]
        rfl

theorem request_consoleResponses : consoleResponses.request = Request.console := by
  funext r
  cases r with
  | ignored | selfTest => rfl
  | message text =>
      rw [Responses.request, text_consoleResponses]
      rfl

theorem typing_consoleResponses : consoleResponses.typing = typingConsole := by
  funext typing
  cases typing with
  | none => rfl
  | some text =>
      rw [Responses.typing, text_consoleResponses]
      rfl

/-- An iteration of `loop` puts on the console what the dialogue does. -/
theorem console_of_dialogStep (d : Dialog) (input : Option UInt8) (d' : Dialog)
    (effects : List Effect) (h : DialogStep ⟨crLf T⟩ d input d' effects) :
    consoleResponses.machine.run d input.toList = (d', effects.flatMap Effect.console) := by
  cases h with
  | quiet => rfl
  | @ignored val h1 h2 =>
      rw [Option.toList_some, Math.Transducer.run_singleton, Responses.step_ignored _ h1 h2]
      simp [consoleResponses, echo]
  | selfTest hscript =>
      rw [Option.toList_some, Math.Transducer.run_singleton, Responses.step_selfTest]
      simp [consoleResponses, consoleLine, consoleMenu, echo, Effect.console]
  | opened => rfl
  | @ended typed rest what hroom hwhat =>
      rw [Option.toList_some, Math.Transducer.run_singleton, Responses.step_ended]
      simp [consoleResponses, consoleLine, consoleMenu, echo, Effect.console]
  | @appended typed val hval hroom =>
      have hless : (typed ++ [val]).length ≠ 999 := by
        rw [List.length_append, List.length_singleton]
        omega
      rw [Option.toList_some, Math.Transducer.run_singleton, Responses.step_stored _ hval hless]
      rfl
  | @flushed typed rest val what hval hfull hwhat =>
      have hlast : (typed ++ [val]).length = 999 := by
        rw [List.length_append, List.length_singleton, hfull]
      rw [Option.toList_some, Math.Transducer.run_singleton, Responses.step_flushed _ hval hlast]
      rfl

/-! ## The session -/

/-- What a session shows of a conversation, and where the conversation leaves it. -/
structure SessionConversation (T : Target) (c : Conversation) (s : Sketch T)
    (effects : List Effect) : Prop where
  globals : Tracks ⟨crLf T⟩ s c.dialog
  frames : effects.flatMap Effect.frames =
    c.requests.flatMap (Request.frames T) ++ typingFrames T c.typing
  messages : ∀ text, .message text ∈ c.requests → MessagePrinted T text
  console : effects.flatMap Effect.console =
    c.requests.flatMap Request.console ++ typingConsole c.typing

/-- Whatever the serial port delivers, it is one conversation and no other; the session
answers it request by request, on the bus and on the console, and ends up where the
conversation does. -/
theorem session_conversation (T : Target) (inputs : List (Option UInt8)) :
    ∃ c : Conversation, c.bytes = inputs.flatMap Option.toList ∧
      (∀ c' : Conversation, c'.bytes = inputs.flatMap Option.toList → c' = c) ∧
      ∃ s effects, (session T).run (Sketch.start T) inputs = some (s, effects) ∧
        SessionConversation T c s effects := by
  have hc := Conversation.bytes_parse (inputs.flatMap Option.toList)
  refine ⟨_, hc, fun c' hc' => conversation_bytes_bijective.injective (hc'.trans hc.symm), ?_⟩
  obtain ⟨s, effects, hrun, -, hframes⟩ := (session_refines T).run (tracks_start T) inputs
  obtain ⟨-, hconsole⟩ :=
    (refines_of_dialogStep console_of_dialogStep).of_run (tracks_start T) hrun
  refine ⟨s, effects, hrun, tracks_parse hrun, ?_, fun text _ => messagePrinted T text, ?_⟩
  · have hreference := (frameResponses T).run_conversation
      (Conversation.parse (inputs.flatMap Option.toList))
    rw [hc] at hreference
    rw [hframes, reference, hreference, request_frameResponses, typing_frameResponses]
  · have hterminal := consoleResponses.run_conversation
      (Conversation.parse (inputs.flatMap Option.toList))
    rw [hc] at hterminal
    rw [hconsole, hterminal, request_consoleResponses, typing_consoleResponses]

/-- The console of a session, from the first menu on. -/
def consoleOf (T : Target) (inputs : List (Option UInt8)) : Option (List UInt8) :=
  ((session T).run (Sketch.start T) inputs).map fun out => out.2.flatMap Effect.console

theorem consoleOf_eq (T : Target) (inputs : List (Option UInt8)) :
    consoleOf T inputs =
      some (consoleResponses.machine.run .idle (inputs.flatMap Option.toList)).2 := by
  obtain ⟨s, effects, hrun, -, hconsole⟩ :=
    (refines_of_dialogStep console_of_dialogStep).run (tracks_start T) inputs
  rw [consoleOf, hrun, Option.map_some, hconsole]

/-- Whatever the dialogue puts on the console begins with the byte it was given. -/
theorem exists_echo (d : Dialog) (val : UInt8) :
    ∃ rest, (consoleResponses.machine.step d val).2 = val :: rest := by
  cases d with
  | idle =>
      by_cases h1 : val = '1'.toUInt8
      · subst h1
        exact ⟨_, rfl⟩
      · by_cases h2 : val = '2'.toUInt8
        · subst h2
          exact ⟨_, rfl⟩
        · rw [Responses.step_ignored _ h1 h2]
          exact ⟨consoleNewline, rfl⟩
  | message typed =>
      by_cases hend : val = '#'.toUInt8
      · subst hend
        exact ⟨_, rfl⟩
      · by_cases hfull : (typed ++ [val]).length = 999
        · rw [Responses.step_flushed _ hend hfull]
          exact ⟨consoleNewline, rfl⟩
        · rw [Responses.step_stored _ hend hfull]
          exact ⟨consoleNewline, rfl⟩

/-- On any two targets, two sessions show the same on the console exactly when they have
read the same bytes. -/
theorem consoleOf_eq_iff (S U : Target) (inputs inputs' : List (Option UInt8)) :
    consoleOf S inputs = consoleOf U inputs' ↔
      inputs.flatMap Option.toList = inputs'.flatMap Option.toList := by
  rw [consoleOf_eq, consoleOf_eq, Option.some.injEq]
  constructor
  · exact Math.Transducer.run_injective Function.injective_id exists_echo
  · intro hinputs
    rw [hinputs]

end DotMatrixPrinter
