/-
# The grammar of a session

What the serial port delivers is a conversation: requests one after the other, each of
them a byte that selects nothing, a self test, or a message with the `#` that ends it,
and perhaps a message that has not ended. Every sequence of bytes is a conversation in
exactly one way, so the sketch cannot be out of step with whoever types.

A session prints a conversation request by request. A message is printed in blocks of
999 bytes, each up to its first NUL, then what is left of it, then the line ending.
-/

import DotMatrixPrinter.Math.Blocks
import DotMatrixPrinter.Sketch.Session
import Mathlib.Data.List.Induction

namespace DotMatrixPrinter

open Math.Blocks

variable {T : Target}

/-- The text of a message: it has no `#`. -/
abbrev MessageText := {text : List UInt8 // '#'.toUInt8 ∉ text}

/-- Something the sketch is asked for. -/
inductive Request
  /-- A byte that selects neither test mode. -/
  | ignored (val : UInt8) (h1 : val ≠ '1'.toUInt8) (h2 : val ≠ '2'.toUInt8)
  | selfTest
  | message (text : MessageText)

/-- Requests, and the message that is being typed, if one is. -/
@[ext]
structure Conversation where
  requests : List Request
  typing : Option MessageText

/-- The bytes of a request. -/
def Request.bytes : Request → List UInt8
  | .ignored val _ _ => [val]
  | .selfTest => ['1'.toUInt8]
  | .message text => '2'.toUInt8 :: (text.val ++ ['#'.toUInt8])

namespace Conversation

/-- The bytes of the message that is being typed. -/
def typingBytes (c : Conversation) : List UInt8 :=
  match c.typing with
  | none => []
  | some text => '2'.toUInt8 :: text.val

/-- The bytes of a conversation. -/
def bytes (c : Conversation) : List UInt8 := c.requests.flatMap Request.bytes ++ c.typingBytes

/-- A conversation with a request more. -/
def add (c : Conversation) (r : Request) : Conversation := ⟨c.requests ++ [r], none⟩

theorem not_mem_concat {text : List UInt8} {val : UInt8} (h : '#'.toUInt8 ∉ text)
    (hval : val ≠ '#'.toUInt8) : '#'.toUInt8 ∉ text ++ [val] := by
  simp [h, hval.symm]

/-- One byte more. -/
def read (c : Conversation) (val : UInt8) : Conversation :=
  match c.typing with
  | none =>
      if h1 : val = '1'.toUInt8 then c.add .selfTest
      else if h2 : val = '2'.toUInt8 then { c with typing := some ⟨[], List.not_mem_nil⟩ }
      else c.add (.ignored val h1 h2)
  | some text =>
      if hend : val = '#'.toUInt8 then c.add (.message text)
      else { c with typing := some ⟨text.val ++ [val], not_mem_concat text.property hend⟩ }

/-- The conversation some bytes are. -/
def parse (input : List UInt8) : Conversation := input.foldl read ⟨[], none⟩

/-! ## Every input is one conversation -/

theorem bytes_read (c : Conversation) (val : UInt8) : (c.read val).bytes = c.bytes ++ [val] := by
  obtain ⟨requests, typing⟩ := c
  cases typing with
  | none =>
      by_cases h1 : val = '1'.toUInt8
      · simp [read, add, bytes, typingBytes, Request.bytes, h1]
      · by_cases h2 : val = '2'.toUInt8
        · have hne : '2'.toUInt8 ≠ '1'.toUInt8 := by decide
          simp [read, bytes, typingBytes, h2, hne]
        · simp [read, add, bytes, typingBytes, Request.bytes, h1, h2]
  | some text =>
      by_cases hend : val = '#'.toUInt8
      · simp [read, add, bytes, typingBytes, Request.bytes, hend]
      · simp [read, bytes, typingBytes, hend]

/-- Nothing is lost by parsing. -/
theorem bytes_parse (input : List UInt8) : (parse input).bytes = input := by
  suffices hfold : ∀ c : Conversation, (input.foldl read c).bytes = c.bytes ++ input from
    hfold ⟨[], none⟩
  induction input with
  | nil => simp
  | cons val input ih =>
      intro c
      rw [List.foldl_cons, ih, bytes_read, List.append_assoc, List.singleton_append]

/-- The text of a message is read as such. -/
theorem foldl_read_text (requests : List Request) (typed : MessageText) {text : List UInt8}
    (h : '#'.toUInt8 ∉ typed.val ++ text) :
    text.foldl read ⟨requests, some typed⟩ = ⟨requests, some ⟨typed.val ++ text, h⟩⟩ := by
  induction text generalizing typed with
  | nil => simp
  | cons val text ih =>
      have hval : val ≠ '#'.toUInt8 := by
        rintro rfl
        simp at h
      have hread : read ⟨requests, some typed⟩ val =
          ⟨requests, some ⟨typed.val ++ [val], not_mem_concat typed.property hval⟩⟩ := by
        simp [read, hval]
      rw [List.foldl_cons, hread, ih]
      · simp
      · simpa using h

/-- A request is read as such. -/
theorem foldl_read_request (requests : List Request) (r : Request) :
    r.bytes.foldl read ⟨requests, none⟩ = ⟨requests ++ [r], none⟩ := by
  cases r with
  | ignored val h1 h2 => simp [Request.bytes, read, add, h1, h2]
  | selfTest => simp [Request.bytes, read, add]
  | message text =>
      have hopen : read ⟨requests, none⟩ '2'.toUInt8 =
          ⟨requests, some ⟨[], List.not_mem_nil⟩⟩ := rfl
      rw [Request.bytes, List.foldl_cons, hopen, List.foldl_append,
        foldl_read_text requests ⟨[], List.not_mem_nil⟩ (by simpa using text.property)]
      simp [read, add]

/-- No conversation is taken for another. -/
theorem parse_bytes (c : Conversation) : parse c.bytes = c := by
  have hrequests : ∀ later earlier : List Request,
      (later.flatMap Request.bytes).foldl read ⟨earlier, none⟩ = ⟨earlier ++ later, none⟩ := by
    intro later
    induction later with
    | nil => simp
    | cons r later ih =>
        intro earlier
        rw [List.flatMap_cons, List.foldl_append, foldl_read_request, ih, List.append_assoc,
          List.singleton_append]
  obtain ⟨requests, typing⟩ := c
  rw [parse, bytes, List.foldl_append, hrequests, List.nil_append]
  cases typing with
  | none => rfl
  | some text =>
      have hopen : read ⟨requests, none⟩ '2'.toUInt8 =
          ⟨requests, some ⟨[], List.not_mem_nil⟩⟩ := rfl
      rw [typingBytes, List.foldl_cons, hopen,
        foldl_read_text requests ⟨[], List.not_mem_nil⟩ (by simpa using text.property)]
      simp

end Conversation

/-- The grammar is complete and unambiguous. -/
theorem conversation_bytes_bijective : Function.Bijective Conversation.bytes :=
  ⟨Function.LeftInverse.injective Conversation.parse_bytes,
    Function.RightInverse.surjective Conversation.bytes_parse⟩

/-! ## The messages of a conversation -/

namespace Conversation

/-- A byte puts a message among the requests when it ends the text that is typed. -/
theorem message_mem_read {c : Conversation} {val : UInt8} {text : MessageText} :
    .message text ∈ (c.read val).requests ↔
      .message text ∈ c.requests ∨ c.typing = some text ∧ val = '#'.toUInt8 := by
  obtain ⟨requests, typing⟩ := c
  cases typing with
  | none =>
      by_cases h1 : val = '1'.toUInt8
      · simp [read, add, h1]
      · by_cases h2 : val = '2'.toUInt8
        · have hne : '2'.toUInt8 ≠ '1'.toUInt8 := by decide
          simp [read, h2, hne]
        · simp [read, add, h1, h2]
  | some typed =>
      by_cases hend : val = '#'.toUInt8
      · simp [read, add, hend, eq_comm]
      · simp [read, hend]

theorem parse_concat (input : List UInt8) (val : UInt8) :
    parse (input ++ [val]) = (parse input).read val :=
  List.foldl_concat read ⟨[], none⟩ val input

/-- Of what the iterations of `loop` have read, the messages are the texts that were
being typed when a `#` was read. -/
theorem message_mem_parse_iff {inputs : List (Option UInt8)} {text : MessageText} :
    .message text ∈ (parse (inputs.flatMap Option.toList)).requests ↔
      ∃ before later, inputs = before ++ some '#'.toUInt8 :: later ∧
        (parse (before.flatMap Option.toList)).typing = some text := by
  induction inputs using List.reverseRecOn with
  | nil => simp [parse]
  | append_singleton inputs input ih =>
      -- The last iteration completes the message, or it was completed before.
      have hread : .message text ∈
            (parse ((inputs ++ [input]).flatMap Option.toList)).requests ↔
          .message text ∈ (parse (inputs.flatMap Option.toList)).requests ∨
            (parse (inputs.flatMap Option.toList)).typing = some text ∧
              input = some '#'.toUInt8 := by
        cases input with
        | none => simp
        | some val => simp [parse_concat, message_mem_read]
      rw [hread, ih]
      constructor
      · rintro (⟨before, later, rfl, htyping⟩ | ⟨htyping, rfl⟩)
        · exact ⟨before, later ++ [input], by simp, htyping⟩
        · exact ⟨inputs, [], rfl, htyping⟩
      · rintro ⟨before, later, hinputs, htyping⟩
        obtain rfl | ⟨later, last, rfl⟩ := List.eq_nil_or_concat' later
        · obtain ⟨rfl, hlast⟩ := List.append_inj' hinputs rfl
          exact Or.inr ⟨htyping, List.singleton_inj.mp hlast⟩
        · rw [← List.cons_append, ← List.append_assoc] at hinputs
          exact Or.inl ⟨before, later, (List.append_inj' hinputs rfl).1, htyping⟩

end Conversation

/-! ## Machines that follow the grammar -/

namespace Responses

variable {ο : Type*} (A : Responses ο)

/-- What is put out while a text is typed behind what is typed already. -/
def text : List UInt8 → List UInt8 → List ο
  | _, [] => []
  | typed, val :: later =>
      if (typed ++ [val]).length = 999 then A.flushed typed val ++ text [] later
      else A.stored val ++ text (typed ++ [val]) later

/-- What is put out for a request. -/
def request : Request → List ο
  | .ignored val _ _ => A.ignored val
  | .selfTest => A.selfTest
  | .message message => A.opened ++ A.text [] message ++ A.ended (blocks 999 [] message.val).2

/-- What is put out for the message that is being typed. -/
def typing : Option MessageText → List ο
  | none => []
  | some message => A.opened ++ A.text [] message

variable {A}

/-- Where nothing but a full block shows, a text shows its blocks. -/
theorem text_eq_flatMap {f : List UInt8 → List ο} (hstored : ∀ val, A.stored val = [])
    (hflushed : ∀ typed val, A.flushed typed val = f (typed ++ [val]))
    (typed message : List UInt8) :
    A.text typed message = (blocks 999 typed message).1.flatMap f := by
  induction message generalizing typed with
  | nil => rfl
  | cons val message ih =>
      by_cases hfull : (typed ++ [val]).length = 999
      · rw [text, if_pos hfull, blocks_cons_of_eq hfull, ih, hflushed, List.flatMap_cons]
      · rw [text, if_neg hfull, blocks_cons_of_ne hfull, ih, hstored, List.nil_append]

theorem run_text {message : List UInt8} (h : '#'.toUInt8 ∉ message) (typed : List UInt8) :
    A.machine.run (.message typed) message =
      (.message (blocks 999 typed message).2, A.text typed message) := by
  induction message generalizing typed with
  | nil => rfl
  | cons val message ih =>
      simp only [List.mem_cons, not_or] at h
      have hval : val ≠ '#'.toUInt8 := fun heq => h.1 heq.symm
      by_cases hfull : (typed ++ [val]).length = 999
      · rw [Math.Transducer.run, A.step_flushed hval hfull, ih h.2, blocks_cons_of_eq hfull, text,
          if_pos hfull]
      · rw [Math.Transducer.run, A.step_stored hval hfull, ih h.2, blocks_cons_of_ne hfull, text,
          if_neg hfull]

theorem run_opened (message : MessageText) :
    A.machine.run .idle ('2'.toUInt8 :: message.val) =
      (.message (blocks 999 [] message.val).2, A.typing (some message)) := by
  rw [Math.Transducer.run, A.step_opened, run_text message.property]
  rfl

theorem run_request (r : Request) : A.machine.run .idle r.bytes = (.idle, A.request r) := by
  cases r with
  | ignored val h1 h2 =>
      rw [Request.bytes, Math.Transducer.run_singleton, A.step_ignored h1 h2]
      rfl
  | selfTest =>
      rw [Request.bytes, Math.Transducer.run_singleton, A.step_selfTest]
      rfl
  | message message =>
      rw [Request.bytes, ← List.cons_append, Math.Transducer.run_append, run_opened,
        Math.Transducer.run_singleton, A.step_ended]
      rfl

end Responses

/-- The situation a conversation leaves. -/
def Conversation.dialog (c : Conversation) : Dialog :=
  match c.typing with
  | none => .idle
  | some message => .message (blocks 999 [] message.val).2

/-- A conversation is answered request by request. -/
theorem Responses.run_conversation {ο : Type*} (A : Responses ο) (c : Conversation) :
    A.machine.run .idle c.bytes =
      (c.dialog, c.requests.flatMap A.request ++ A.typing c.typing) := by
  obtain ⟨requests, typing⟩ := c
  have hrequests : A.machine.run .idle (requests.flatMap Request.bytes) =
      (.idle, requests.flatMap A.request) := by
    induction requests with
    | nil => rfl
    | cons r requests ih =>
        rw [List.flatMap_cons, List.flatMap_cons, Math.Transducer.run_append, run_request, ih]
  rw [Conversation.bytes, Math.Transducer.run_append, hrequests]
  cases typing with
  | none => rfl
  | some message =>
      rw [Conversation.typingBytes, run_opened]
      rfl

/-! ## The session -/

/-- A session is where the conversation it has read is. -/
theorem tracks_parse {inputs : List (Option UInt8)} {s : Sketch T} {effects : List Effect}
    (h : (session T).run (Sketch.start T) inputs = some (s, effects)) :
    Tracks ⟨crLf T⟩ s (Conversation.parse (inputs.flatMap Option.toList)).dialog := by
  have hs := ((session_refines T).of_run (tracks_start T) h).1
  have hdialog := (frameResponses T).run_conversation
    (Conversation.parse (inputs.flatMap Option.toList))
  rw [Conversation.bytes_parse] at hdialog
  rw [reference, hdialog] at hs
  exact hs

end DotMatrixPrinter
