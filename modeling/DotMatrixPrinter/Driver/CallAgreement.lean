/-
# Any sketch agrees with the printer

The handshake is about one session. A sketch makes calls: it begins the session and then
prints texts of any kind, changes the newline, prints self tests and samples the data
line, in any order. What it does on the bus is the script of its calls one after the
other. Every call leaves the link between two frames as it found it, so whatever the
sketch, it agrees with the printer at every point, and the printer has received what the
calls sent when they have returned.
-/

import DotMatrixPrinter.Driver.Calls
import DotMatrixPrinter.Driver.Completion
import DotMatrixPrinter.Driver.Reset

namespace DotMatrixPrinter

open LineScript

variable {T : Target}

/-- The pin operations of a list of calls, unless one of them reads outside its text. -/
def callsScript (cbm : CBM T) : List (Call T) → Option PinScript
  | [] => some []
  | c :: calls => do
      let s ← c.script cbm
      let later ← callsScript (c.after cbm) calls
      return s ++ later

theorem callsScript_cons_eq_some {cbm : CBM T} {c : Call T} {calls : List (Call T)}
    {script : PinScript} :
    callsScript cbm (c :: calls) = some script ↔ ∃ s later, c.script cbm = some s ∧
      callsScript (c.after cbm) calls = some later ∧ script = s ++ later := by
  simp only [callsScript, bind, pure, Option.bind_eq_some_iff, Option.some.injEq]
  constructor
  · rintro ⟨s, hs, later, hlater, rfl⟩
    exact ⟨s, later, hs, hlater, rfl⟩
  · rintro ⟨s, later, hs, hlater, rfl⟩
    exact ⟨s, hs, later, hlater, rfl⟩

/-- Calls on terminated texts have a script. -/
theorem exists_callsScript (cbm : CBM T) {calls : List (Call T)}
    (h : ∀ c ∈ calls, c.Terminated) : ∃ script, callsScript cbm calls = some script := by
  induction calls generalizing cbm with
  | nil => exact ⟨[], rfl⟩
  | cons c calls ih =>
      obtain ⟨s, hs⟩ := (h c List.mem_cons_self).exists_script cbm
      obtain ⟨later, hlater⟩ := ih (c.after cbm) fun c' hc' => h c' (List.mem_cons_of_mem c hc')
      exact ⟨s ++ later, callsScript_cons_eq_some.mpr ⟨s, later, hs, hlater, rfl⟩⟩

/-- The calls run as their script does. -/
theorem exists_runCalls_of_exec {cbm : CBM T} {calls : List (Call T)} {script : PinScript}
    (hscript : callsScript cbm calls = some script) {rs rest : List Bool} {trace : PinTrace}
    (h : exec script rs = some (trace, rest)) :
    ∃ run, runCalls cbm calls rs = some (run, rest) ∧ traceOf run = trace := by
  induction calls generalizing cbm script rs trace with
  | nil =>
      obtain rfl : [] = script := Option.some.inj hscript
      obtain ⟨rfl, rfl⟩ := Prod.mk.inj (Option.some.inj h)
      exact ⟨[], rfl, rfl⟩
  | cons c calls ih =>
      obtain ⟨s, later, hs, hlater, rfl⟩ := callsScript_cons_eq_some.mp hscript
      obtain ⟨here, mid, _, hhere, hrest, rfl⟩ := exec_append_eq_some.mp h
      obtain ⟨run, hrun, rfl⟩ := ih hlater hrest
      exact ⟨(c, here) :: run,
        runCalls_cons_eq_some.mpr ⟨s, here, mid, run, hs, hhere, hrun, rfl⟩, rfl⟩

/-! ## Every call keeps the link -/

theorem outline_sample (bytes : List UInt8) :
    Outline bus Obligation (Resting true bytes bytes none) [.sample]
      (Resting true bytes bytes none) :=
  Outline.sample (stable_resting _ _ _ _) fun _ hx => hx.agreement_of_eq.obligation (by simp)

/-- A call hands over its frames, and leaves both sides as it found them. -/
theorem outline_call {cbm : CBM T} {c : Call T} (hc : c.isBegin = false) {s : PinScript}
    (hs : c.script cbm = some s) (done : List UInt8) :
    Outline bus Obligation (Resting true done done none) s
      (Resting true (done ++ framesOf s) (done ++ framesOf s) none) := by
  obtain ⟨mode, printerAddr, rfl, -⟩ | ⟨-, rfl⟩ | ⟨-, bytes, rfl⟩ := c.script_cases hs
  · cases hc
  · have hframes : framesOf [.sample] = [] := rfl
    rw [hframes, List.append_nil]
    exact outline_sample done
  · rw [framesOf_sendFrames]
    exact outline_sendFrames done bytes

theorem outline_calls {cbm : CBM T} {calls : List (Call T)}
    (hcalls : ∀ c ∈ calls, c.isBegin = false) {script : PinScript}
    (hscript : callsScript cbm calls = some script) (done : List UInt8) :
    Outline bus Obligation (Resting true done done none) script
      (Resting true (done ++ framesOf script) (done ++ framesOf script) none) := by
  induction calls generalizing cbm script done with
  | nil =>
      obtain rfl : [] = script := Option.some.inj hscript
      have hframes : framesOf [] = [] := rfl
      rw [hframes, List.append_nil]
      exact Outline.nil (stable_resting _ _ _ _)
  | cons c calls ih =>
      obtain ⟨s, later, hs, hlater, rfl⟩ := callsScript_cons_eq_some.mp hscript
      rw [framesOf_append, ← List.append_assoc]
      exact (outline_call (hcalls c List.mem_cons_self) hs done).append
        (ih (fun c' hc' => hcalls c' (List.mem_cons_of_mem c hc')) hlater _)

/-- From power-up on, whatever the levels of the pins were. -/
theorem outline_begin_calls {cbm : CBM T} {mode : PrintMode} {printerAddr : ℤ}
    {calls : List (Call T)} (hcalls : ∀ c ∈ calls, c.isBegin = false) {script : PinScript}
    (hscript : callsScript cbm (.begin mode printerAddr :: calls) = some script)
    (levels : Levels) :
    Outline bus Obligation (· = Link.powerUp levels) script
      (Resting true (framesOf script) (framesOf script) none) := by
  obtain ⟨_, later, hbegin, hlater, rfl⟩ := callsScript_cons_eq_some.mp hscript
  obtain rfl : CBM.begin mode printerAddr = _ := Option.some.inj hbegin
  have hheader := (outline_resetPrinter levels).append (outline_session mode printerAddr [])
  have hnil : sessionScript mode printerAddr [] = cbmSerialBegin mode printerAddr :=
    List.append_nil _
  rw [hnil, ← CBM.begin] at hheader
  rw [framesOf_append, framesOf_begin]
  exact hheader.append (outline_calls hcalls hlater _)

/-- What holds when the sketch still has `s` to run of the script of its calls. -/
structure CallsAgree (cbm : CBM T) (calls : List (Call T)) (script : PinScript)
    (trace : PinTrace) (s : PinScript) (x : Link) : Prop where
  /-- No bit is dropped, and the bytes agree between frames and inside them. -/
  agreement : Agreement x
  /-- The printer has an initial part of what was sent, and the rest is still to come. -/
  received : x.received <+: x.sent
  sent : x.sent ++ framesOf s = framesOf script
  canFinish : CanFinish bus s x
  /-- When the calls have returned the printer has every byte, and they are a run of the
  calls on the readings of the data line. -/
  returned : s = [] → x.received = framesOf script ∧
    ∃ run, runCalls cbm calls (readings trace) = some (run, []) ∧ traceOf run = trace

/-- A sketch that begins one session and then makes any calls that stay inside their
texts agrees with the printer at every point of every interleaving from power-up on, and
its calls return in every interleaving that is fair to the printer. -/
theorem calls_agree (T : Target) (cbm : CBM T) (mode : PrintMode) (printerAddr : ℤ)
    (calls : List (Call T)) (hcalls : ∀ c ∈ calls, c.isBegin = false) (script : PinScript)
    (hscript : callsScript cbm (.begin mode printerAddr :: calls) = some script)
    (levels : Levels) :
    (∀ trace s x, Run bus script (Link.powerUp levels) trace s x →
      CallsAgree cbm (.begin mode printerAddr :: calls) script trace s x) ∧
    Terminates bus script (Link.powerUp levels) := by
  have houtline := outline_begin_calls hcalls hscript levels
  refine ⟨?_, terminates_of_outline houtline rfl⟩
  intro trace s x hrun
  have hpoint := houtline _ rfl _ _ _ hrun
  have hagree := agreement_of_outlined hpoint
  refine ⟨hagree, hagree.received_isPrefix, sent_append_framesOf hrun, hpoint.canFinish, ?_⟩
  rintro rfl
  exact ⟨(hpoint.done rfl).received_eq, exists_runCalls_of_exec hscript (exec_of_run hrun)⟩

/-- A sketch that samples the data line once and then prints a self test. -/
theorem calls_agree_self_test :
    ∃ script, callsScript (CBM.new .avr) [.begin .Graphic 4, .deviceReady, .printSelfTest] =
        some script ∧
      (∀ trace s x, Run bus script (Link.powerUp ⟨true, false, true, false⟩) trace s x →
        CallsAgree (CBM.new .avr) [.begin .Graphic 4, .deviceReady, .printSelfTest] script
          trace s x) ∧
      Terminates bus script (Link.powerUp ⟨true, false, true, false⟩) := by
  have hterminated : ∀ c ∈ ([.begin .Graphic 4, .deviceReady, .printSelfTest] : List (Call .avr)),
      c.Terminated := by simp [Call.Terminated]
  obtain ⟨script, hscript⟩ := exists_callsScript (CBM.new .avr) hterminated
  exact ⟨script, hscript, calls_agree .avr (CBM.new .avr) .Graphic 4 _
    (by simp [Call.isBegin]) script hscript ⟨true, false, true, false⟩⟩

end DotMatrixPrinter
