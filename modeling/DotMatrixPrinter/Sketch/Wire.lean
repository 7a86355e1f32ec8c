/-
# From the serial port to the printer

The layers put together. What the sketch does on the bus, from power-up on, is the
reset of the printer and then one session of the driver: the header and the bytes
the reference machine puts out. Whoever only watches the wires reads these bytes
off them whatever the data line does, and a printer that takes part in the handshake
has received them when the session is over, however the two are interleaved.
-/

import DotMatrixPrinter.Driver.Agreement
import DotMatrixPrinter.Driver.Listener
import DotMatrixPrinter.Sketch.Session

namespace DotMatrixPrinter

open LineScript

variable {T : Target}

/-- The pin operations of an effect. -/
def Effect.script : Effect → PinScript
  | .printed _ what => what.out
  | .bus script => script
  | _ => []

/-- What the sketch does on the bus when its iterations have had these effects. -/
def busScript (T : Target) (effects : List Effect) : PinScript :=
  ((Sketch.new T).setup.2 ++ effects).flatMap Effect.script

/-- The bytes the reference machine puts out for what the serial port delivers. -/
def printedBytes (T : Target) (inputs : List (Option UInt8)) : List UInt8 :=
  ((reference T).run .idle (inputs.flatMap Option.toList)).2

theorem Effect.framesOf_script (e : Effect) : framesOf e.script = e.frames := by
  cases e <;> rfl

/-- Effects that send frames in a row send their frames. -/
theorem flatMap_script {effects : List Effect}
    (h : ∀ e ∈ effects, ∃ bytes, e.script = sendFrames bytes) :
    effects.flatMap Effect.script = sendFrames (effects.flatMap Effect.frames) := by
  induction effects with
  | nil => rfl
  | cons e effects ih =>
      rcases h e List.mem_cons_self with ⟨bytes, hbytes⟩
      have hframes : e.frames = bytes := by
        rw [← e.framesOf_script, hbytes, framesOf_sendFrames]
      rw [List.flatMap_cons, List.flatMap_cons, sendFrames_append, hframes, ← hbytes,
        ih fun e' he' => h e' (List.mem_cons_of_mem e he')]

/-- An iteration sends frames in a row and does nothing else on the bus. -/
theorem exists_sendFrames_of_dialogStep {cbm : CBM T} {d d' : Dialog} {input : Option UInt8}
    {effects : List Effect} (h : DialogStep cbm d input d' effects) :
    ∀ e ∈ effects, ∃ bytes, e.script = sendFrames bytes := by
  have hnone : ∃ bytes, sendFrames bytes = [] := ⟨[], rfl⟩
  have hmenu : ∀ e ∈ testMenu, ∃ bytes, e.script = sendFrames bytes := by
    simp [testMenu, Effect.script, hnone]
  cases h with
  | quiet => simp
  | ignored | opened | appended => simp [Effect.script, hnone]
  | selfTest hscript =>
      have hrows := exists_sendFrames_of_printSelfTest hscript
      simpa [Effect.script, hnone, hrows] using hmenu
  | ended hroom hwhat =>
      have hline := exists_sendFrames_of_println hwhat
      simpa [Effect.script, hnone, hline] using hmenu
  | flushed hval hfull hwhat =>
      have hblock := exists_sendFrames_of_print hwhat
      simp [Effect.script, hnone, hblock]

/-- From power-up on, the sketch resets the printer and runs one session of the driver. -/
theorem busScript_session (T : Target) (inputs : List (Option UInt8)) :
    ∃ s effects, (session T).run (Sketch.start T) inputs = some (s, effects) ∧
      busScript T effects = CBM.resetPrinter ++
        sessionScript .Graphic 4 (printedBytes T inputs) := by
  have hstart : ∃ d, Tracks ⟨crLf T⟩ (Sketch.start T) d ∧
      ∀ e ∈ ([] : List Effect), ∃ bytes, e.script = sendFrames bytes :=
    ⟨.idle, tracks_start T, by simp⟩
  have hsends := (session T).run_of_invariant
    (J := fun s effects => ∃ d, Tracks ⟨crLf T⟩ s d ∧
      ∀ e ∈ effects, ∃ bytes, e.script = sendFrames bytes)
    (by
      rintro s before input ⟨d, hs, hbefore⟩
      rcases exists_dialogStep hs input with ⟨s', d', here, hloop, hstep, hs'⟩
      refine ⟨s', here, hloop, d', hs', fun e he => ?_⟩
      rcases List.mem_append.mp he with he | he
      · exact hbefore e he
      · exact exists_sendFrames_of_dialogStep hstep e he)
    hstart inputs
  rcases hsends with ⟨s, effects, hrun, d, -, heffects⟩
  have hframes := ((session_refines T).of_run (tracks_start T) hrun).2
  have hsetup : (Sketch.new T).setup.2.flatMap Effect.script = CBM.begin .Graphic 4 := by
    simp [Sketch.setup, testMenu, Effect.script]
  rw [List.nil_append] at heffects
  refine ⟨s, effects, hrun, ?_⟩
  rw [busScript, List.flatMap_append, hsetup, flatMap_script heffects, hframes, CBM.begin,
    List.append_assoc]
  rfl

/-! ## On both ends of the wires -/

/-- The bytes of a session, each with the level of attention it is sent under. -/
def wireBytes (mode : PrintMode) (printerAddr : ℤ) (bytes : List UInt8) :
    List (UInt8 × Bool) :=
  [(UInt8.ofInt (0x20 + printerAddr), true), (UInt8.ofInt (0x60 + mode.toInt), true)] ++
    bytes.map (·, false)

theorem map_fst_wireBytes (mode : PrintMode) (printerAddr : ℤ) (bytes : List UInt8) :
    (wireBytes mode printerAddr bytes).map Prod.fst = sessionBytes mode printerAddr bytes := by
  rw [wireBytes, List.map_append, List.map_map]
  show _ ++ bytes.map id = _
  rw [List.map_id]
  rfl

/-- Whoever watches the wires of a session reads off its bytes. -/
theorem listen_sessionScript (mode : PrintMode) (printerAddr : ℤ) (bytes : List UInt8) :
    Listener.listen ⟨⟨false, false, false, false⟩, none, []⟩
        (Script.writes (sessionScript mode printerAddr bytes)) =
      ⟨Levels.idle, none, wireBytes mode printerAddr bytes⟩ := by
  rw [sessionScript, Script.writes_append, Listener.listen_append,
    Listener.listen_cbmSerialBegin]
  exact Listener.listen_sendFrames false false _ bytes

/-- On the trace of an interleaving that has finished, a listener decodes what the
printer has received. -/
theorem listener_agrees_with_printer {mode : PrintMode} {printerAddr : ℤ}
    {bytes : List UInt8} {trace : PinTrace} {x : Link}
    (h : Run bus (sessionScript mode printerAddr bytes) Link.start trace [] x) :
    (Listener.listen ⟨⟨false, false, false, false⟩, none, []⟩ (writes trace)).decoded.map
      Prod.fst = x.received := by
  rw [writes_exec (exec_of_run h), listen_sessionScript, map_fst_wireBytes,
    received_of_session h]

end DotMatrixPrinter
