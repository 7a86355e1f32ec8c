/-
# The system in time

What the sketch does on the bus is one session, so what is known of a session in time
holds of the sketch from power-up on. It takes a fixed time for the reset and the header
and then 640 microseconds a byte, and ten more for every reading that kept a loop
waiting. And if the wires are calm at power-up, then at every point of the running
system, also one from which the driver has not returned yet, they have kept their timing.
-/

import DotMatrixPrinter.Driver.Duration
import DotMatrixPrinter.Driver.WireTiming
import DotMatrixPrinter.Sketch.System

namespace DotMatrixPrinter

open LineScript

variable {T : Target}

/-- The system's script is `begin` and the frames of what is printed. -/
theorem systemScript_eq (T : Target) (inputs : List (Option UInt8)) :
    systemScript T inputs = CBM.begin .Graphic 4 ++ sendFrames (printedBytes T inputs) := by
  rw [systemScript, sessionScript, CBM.begin, List.append_assoc]

/-- The bus script of a session returns on exactly the readings of as many frames as the
session prints bytes, and two for the header, each with its own number of waits, and it
takes a fixed time and the time of these frames. -/
theorem session_duration (T : Target) (inputs : List (Option UInt8)) :
    ∃ s effects, (session T).run (Sketch.start T) inputs = some (s, effects) ∧
      ∀ rs rest t,
        (∃ trace, exec (busScript T effects) rs = some (trace, rest) ∧ elapsed trace = t) ↔
          ∃ waits : List Wait, waits.length = (printedBytes T inputs).length + 2 ∧
            rs = waits.flatMap Wait.readings ++ rest ∧
            t = 3104020 + (waits.map Wait.time).sum := by
  obtain ⟨s, effects, hrun, hscript⟩ := busScript_session T inputs
  refine ⟨s, effects, hrun, fun rs rest t => ?_⟩
  rw [hscript, ← systemScript, systemScript_eq, exists_exec_iff]
  constructor
  · rintro ⟨used, rfl, hused⟩
    obtain ⟨waits, hlength, rfl, htime⟩ := (answered_begin_sendFrames _ _ _).mp hused
    exact ⟨waits, hlength, rfl, htime⟩
  · rintro ⟨waits, hlength, rfl, htime⟩
    exact ⟨_, rfl, (answered_begin_sendFrames _ _ _).mpr ⟨waits, hlength, rfl, htime⟩⟩

/-- The levels a stopwatch shows. -/
def levelsOf (x : Stopwatch Pin) : Levels :=
  ⟨x.level .attn, x.level .reset, x.level .clk, x.level .dataOut⟩

/-- On wires that are calm at power-up, at every point, however driver and printer are
interleaved, each time the driver has driven a pin its timing was met. -/
theorem system_wire_timing (T : Target) (start : Stopwatch Pin) (hstart : Calm start)
    (inputs : List (Option UInt8)) (trace : PinTrace) (c : Config Pin Mark Link (Sketch T))
    (h : Reaches (system T) bus (powerUp T (levelsOf start)) inputs trace c) :
    ∀ earlier pin level later, trace = earlier ++ .write pin level :: later →
      WireTiming (start.after earlier) pin level := by
  rintro earlier pin level later rfl
  obtain ⟨effects, -, hrun⟩ := exists_run_of_reaches h
  have hpaced : Paced WireTiming Calm (systemScript T inputs) (Rested false) := by
    rw [systemScript_eq]
    exact (paced_begin _ _).append (paced_sendFrames false _)
  exact (hpaced.run wireTiming_mono hstart hrun).at_write

/-- The timing of a system that has been brought up, its pins low, and has read nothing
but a selection. -/
theorem system_wire_timing_opened :
    ∃ trace c, Reaches (system .avr) bus (powerUp .avr ⟨false, false, false, false⟩)
        [some '2'.toUInt8] trace c ∧
      ∀ earlier pin level later, trace = earlier ++ .write pin level :: later →
        WireTiming (Stopwatch.after ⟨fun _ => false, fun _ => 0⟩ earlier) pin level := by
  have hstart : Reaches (system .avr) bus (powerUp .avr ⟨false, false, false, false⟩) [] []
      (powerUp .avr ⟨false, false, false, false⟩) := .start
  obtain ⟨later, x, hfinish⟩ := (outlined_of_reaches hstart).canFinish
  obtain ⟨effects, hsession, -⟩ := exists_run_of_reaches hstart
  obtain ⟨d, hmove⟩ := exists_take_of_run hsession x (some '2'.toUInt8)
  have hopened := (hstart.trans (.of_run hfinish)).extend hmove
  have hcalm : Calm ⟨fun _ => false, fun _ => 0⟩ := ⟨by simp, by simp, by simp, by simp⟩
  exact ⟨_, d, hopened, system_wire_timing .avr _ hcalm _ _ d hopened⟩

end DotMatrixPrinter
