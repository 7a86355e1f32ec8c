/-
# Calls of the driver

A sketch uses the driver by calling its public functions, in any order and with
any arguments. This module fixes the list of calls, the script of each and the
run of a list of calls on the readings of the data line. A run keeps the trace of
every call apart, so a statement can be about the trace of one call, about the
moment it returns or about the whole trace.
-/

import DotMatrixPrinter.Driver.Text

namespace DotMatrixPrinter

variable {T : Target}

/-- A call of a public function of `CBM`. -/
inductive Call (T : Target)
  | begin (mode : PrintMode) (printerAddr : ℤ)
  | setNewline (newlineChar : ArduinoString T)
  | deviceReady
  | print (text : CharPtr) (length : ℤ)
  | printString (text : ArduinoString T)
  | println (text : CharPtr) (length : ℤ)
  | printSelfTest

namespace Call

/-- Is the call one of `begin`? -/
def isBegin : Call T → Bool
  | .begin _ _ => true
  | _ => false

/-- The pin operations of a call, unless it reads outside its text. -/
def script (cbm : CBM T) : Call T → Option PinScript
  | .begin mode printerAddr => some (CBM.begin mode printerAddr)
  | .setNewline _ => some []
  | .deviceReady => some CBM.deviceReady
  | .print text length => (DotMatrixPrinter.print T text length).map Math.TerminatedScan.Scan.out
  | .printString text => (DotMatrixPrinter.printString text).map Math.TerminatedScan.Scan.out
  | .println text length => (cbm.println text length).map Math.TerminatedScan.Scan.out
  | .printSelfTest => cbm.printSelfTest

/-- The object after a call. -/
def after (cbm : CBM T) : Call T → CBM T
  | .setNewline newlineChar => cbm.setNewline newlineChar
  | _ => cbm

end Call

/-- The object after a list of calls. -/
def afterCalls (cbm : CBM T) (calls : List (Call T)) : CBM T := calls.foldl Call.after cbm

/-- Run calls one after the other on the readings to come. There is no result when a
call does not return. -/
def runCalls (cbm : CBM T) : List (Call T) → List Bool →
    Option (List (Call T × PinTrace) × List Bool)
  | [], rs => some ([], rs)
  | c :: calls, rs => do
      let s ← c.script cbm
      let (trace, rs) ← LineScript.exec s rs
      let (later, rs) ← runCalls (c.after cbm) calls rs
      return ((c, trace) :: later, rs)

/-- The trace of a run, its calls joined. -/
def traceOf (run : List (Call T × PinTrace)) : PinTrace := run.flatMap Prod.snd

@[simp]
theorem traceOf_nil : traceOf ([] : List (Call T × PinTrace)) = [] := rfl

@[simp]
theorem traceOf_cons (c : Call T) (trace : PinTrace) (run : List (Call T × PinTrace)) :
    traceOf ((c, trace) :: run) = trace ++ traceOf run := rfl

theorem runCalls_cons_eq_some {cbm : CBM T} {c : Call T} {calls : List (Call T)}
    {rs rest : List Bool} {run : List (Call T × PinTrace)} :
    runCalls cbm (c :: calls) rs = some (run, rest) ↔
      ∃ s trace mid later, c.script cbm = some s ∧ LineScript.exec s rs = some (trace, mid) ∧
        runCalls (c.after cbm) calls mid = some (later, rest) ∧ run = (c, trace) :: later := by
  simp only [runCalls, bind, pure, Option.bind_eq_some_iff, Prod.exists, Option.some.injEq,
    Prod.mk.injEq]
  constructor
  · rintro ⟨s, hs, trace, mid, htrace, later, _, hlater, rfl, rfl⟩
    exact ⟨s, trace, mid, later, hs, htrace, hlater, rfl⟩
  · rintro ⟨s, trace, mid, later, hs, htrace, hlater, rfl⟩
    exact ⟨s, hs, trace, mid, htrace, later, rest, hlater, rfl, rfl⟩

/-- What a `println` that stays inside its text did. -/
theorem exists_of_println_eq_some {cbm : CBM T} {text : CharPtr} {length : ℤ}
    {printed : Printed} (h : cbm.println text length = some printed) :
    ∃ line ending, print T text length = some line ∧ printString cbm.newline = some ending ∧
      printed = ⟨line.loads, line.out ++ ending.out⟩ := by
  rcases Option.bind_eq_some_iff.mp h with ⟨line, hline, hrest⟩
  rcases Option.bind_eq_some_iff.mp hrest with ⟨ending, hending, hprinted⟩
  exact ⟨line, ending, hline, hending, (Option.some.inj hprinted).symm⟩

/-! ## Calls on terminated texts -/

/-- Every text the call is given holds a NUL. -/
def Call.Terminated : Call T → Prop
  | .print text _ | .println text _ => 0 ∈ text
  | _ => True

theorem exists_println (cbm : CBM T) (text : CharPtr) (h : (0 : UInt8) ∈ text)
    (length : ℤ) :
    ∃ printed, cbm.println text length = some printed := by
  rcases exists_print (T := T) text h length with ⟨line, hline⟩
  rcases exists_printString cbm.newline with ⟨ending, hending⟩
  exact ⟨⟨line.loads, line.out ++ ending.out⟩, by simp [CBM.println, hline, hending]⟩

theorem exists_printSelfTest (cbm : CBM T) : ∃ s, cbm.printSelfTest = some s := by
  rcases exists_println cbm (literal "Hello World, here are the chars supported by the printer:")
    (by simp [literal]) (-1) with ⟨title, htitle⟩
  exact ⟨_, by simp only [CBM.printSelfTest, htitle, bind, pure, Option.bind_some]; rfl⟩

theorem Call.Terminated.exists_script {c : Call T} (h : c.Terminated) (cbm : CBM T) :
    ∃ s, c.script cbm = some s := by
  cases c with
  | begin | setNewline | deviceReady => exact ⟨_, rfl⟩
  | print text length =>
      rcases exists_print (T := T) text h length with ⟨printed, hprinted⟩
      exact ⟨printed.out, by simp [Call.script, hprinted]⟩
  | printString text =>
      rcases exists_printString text with ⟨printed, hprinted⟩
      exact ⟨printed.out, by simp [Call.script, hprinted]⟩
  | println text length =>
      rcases exists_println cbm text h length with ⟨printed, hprinted⟩
      exact ⟨printed.out, by simp [Call.script, hprinted]⟩
  | printSelfTest => exact exists_printSelfTest cbm

/-- No call reads outside its text, and a printer that answers the polls lets all of
them finish. -/
theorem exists_runCalls (cbm : CBM T) {calls : List (Call T)}
    (h : ∀ c ∈ calls, c.Terminated) :
    ∃ rs run, runCalls cbm calls rs = some (run, []) := by
  suffices hrest : ∃ rs run, ∀ rest, runCalls cbm calls (rs ++ rest) = some (run, rest) by
    rcases hrest with ⟨rs, run, hrun⟩
    exact ⟨rs, run, by simpa using hrun []⟩
  induction calls generalizing cbm with
  | nil => exact ⟨[], [], fun rest => rfl⟩
  | cons c calls ih =>
      rcases (h c List.mem_cons_self).exists_script cbm with ⟨s, hs⟩
      rcases LineScript.exists_exec s with ⟨rs, trace, hexec⟩
      rcases ih (c.after cbm) fun c' hc' => h c' (List.mem_cons_of_mem c hc') with
        ⟨rs', run, hrun⟩
      refine ⟨rs ++ rs', (c, trace) :: run, fun rest => ?_⟩
      rw [List.append_assoc]
      exact runCalls_cons_eq_some.mpr ⟨s, trace, _, run, hs, hexec _, hrun rest, rfl⟩

/-! ## What a call does on the bus -/

theorem exists_sendFrames_of_printString {text : ArduinoString T} {printed : Printed}
    (h : printString text = some printed) : ∃ bytes, printed.out = sendFrames bytes :=
  exists_sendFrames_of_print h

theorem exists_sendFrames_of_println {cbm : CBM T} {text : CharPtr} {length : ℤ}
    {printed : Printed} (h : cbm.println text length = some printed) :
    ∃ bytes, printed.out = sendFrames bytes := by
  rcases exists_of_println_eq_some h with ⟨line, ending, hline, hending, rfl⟩
  rcases exists_sendFrames_of_print hline with ⟨bytes, hbytes⟩
  rcases exists_sendFrames_of_printString hending with ⟨newline, hnewline⟩
  exact ⟨bytes ++ newline, by rw [sendFrames_append, hbytes, hnewline]⟩

/-- The loop of `printSelfTest` sends its rows as frames. -/
theorem selfTestRows_eq_sendFrames :
    ((List.range 16).flatMap fun (i : ℕ) => (CBM.selfTestRow i).flatMap fun data =>
        cbmSerialWriteFrame (UInt8.ofInt data) 0) =
      sendFrames ((List.range 16).flatMap fun (i : ℕ) =>
        (CBM.selfTestRow i).map UInt8.ofInt) := by
  simp only [sendFrames, List.flatMap_assoc, List.flatMap_map]

theorem exists_sendFrames_of_printSelfTest {cbm : CBM T} {s : PinScript}
    (h : cbm.printSelfTest = some s) : ∃ bytes, s = sendFrames bytes := by
  simp only [CBM.printSelfTest, bind, pure, Option.bind_eq_some_iff, Option.some.injEq] at h
  rcases h with ⟨title, htitle, rfl⟩
  rcases exists_sendFrames_of_println htitle with ⟨bytes, hbytes⟩
  exact ⟨_, by rw [selfTestRows_eq_sendFrames, hbytes, ← sendFrames_append]⟩

/-- What a call does: it begins a session, it samples the data line once, or it sends
frames in a row and nothing else. -/
theorem Call.script_cases {cbm : CBM T} {c : Call T} {s : PinScript}
    (h : c.script cbm = some s) :
    (∃ mode printerAddr, c = .begin mode printerAddr ∧ s = CBM.begin mode printerAddr) ∨
      (c = .deviceReady ∧ s = [.sample]) ∨
      (c.isBegin = false ∧ ∃ bytes, s = sendFrames bytes) := by
  cases c with
  | begin mode printerAddr => exact Or.inl ⟨mode, printerAddr, rfl, (Option.some.inj h).symm⟩
  | deviceReady => exact Or.inr (Or.inl ⟨rfl, (Option.some.inj h).symm⟩)
  | setNewline newlineChar => exact Or.inr (Or.inr ⟨rfl, [], (Option.some.inj h).symm⟩)
  | print text length =>
      rcases Option.map_eq_some_iff.mp h with ⟨printed, hprinted, rfl⟩
      exact Or.inr (Or.inr ⟨rfl, exists_sendFrames_of_print hprinted⟩)
  | printString text =>
      rcases Option.map_eq_some_iff.mp h with ⟨printed, hprinted, rfl⟩
      exact Or.inr (Or.inr ⟨rfl, exists_sendFrames_of_printString hprinted⟩)
  | println text length =>
      rcases Option.map_eq_some_iff.mp h with ⟨printed, hprinted, rfl⟩
      exact Or.inr (Or.inr ⟨rfl, exists_sendFrames_of_println hprinted⟩)
  | printSelfTest => exact Or.inr (Or.inr ⟨rfl, exists_sendFrames_of_printSelfTest h⟩)

end DotMatrixPrinter
