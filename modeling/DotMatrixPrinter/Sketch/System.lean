/-
# The running system

The sketch, the driver and the printer from power-up on. The sketch takes a byte from
the serial port when the driver has returned from what the last byte made it do; the
driver's script and the printer are interleaved in any order.

Seen from the bus all iterations of `loop` are one long session. So the printer has at
every moment an initial part of what the reference machine prints for the bytes read so
far, and all of it whenever `loop` is entered. And `loop` is entered again and again: no
byte from the serial port and no order of steps keeps the sketch inside a frame for ever
while the printer gets its turns.
-/

import DotMatrixPrinter.Driver.Reset
import DotMatrixPrinter.LineScript.Program
import DotMatrixPrinter.Sketch.Conversation
import DotMatrixPrinter.Sketch.Wire

namespace DotMatrixPrinter

open LineScript

variable {T : Target} {levels : Levels}

/-- The sketch as a program on the bus. An iteration of `loop` is an input. -/
def system (T : Target) : Program Pin Mark (Sketch T) (Option UInt8) Effect :=
  ⟨session T, Effect.script⟩

/-- The board comes up: `setup` is run first. -/
def powerUp (T : Target) (levels : Levels) : Config Pin Mark Link (Sketch T) :=
  ⟨(Sketch.new T).setup.1, (Sketch.new T).setup.2.flatMap Effect.script, Link.powerUp levels⟩

/-! ## All iterations are one session -/

/-- The pin operations of the system when these inputs have been read. -/
def systemScript (T : Target) (inputs : List (Option UInt8)) : PinScript :=
  CBM.resetPrinter ++ sessionScript .Graphic 4 (printedBytes T inputs)

/-- The bytes the printer is sent when these inputs have been read. -/
def systemBytes (T : Target) (inputs : List (Option UInt8)) : List UInt8 :=
  sessionBytes .Graphic 4 (printedBytes T inputs)

/-- More inputs mean more bytes behind the ones already sent. -/
theorem systemBytes_isPrefix {inputs later : List (Option UInt8)} (h : inputs <+: later) :
    systemBytes T inputs <+: systemBytes T later := by
  rcases h with ⟨rest, rfl⟩
  rw [systemBytes, systemBytes, sessionBytes, sessionBytes, printedBytes, printedBytes,
    List.flatMap_append, Math.Transducer.run_append, ← List.append_assoc]
  exact List.prefix_append _ _

theorem outline_systemScript (levels : Levels) (inputs : List (Option UInt8)) :
    Outline bus Obligation (· = Link.powerUp levels) (systemScript T inputs)
      (Resting true (systemBytes T inputs) (systemBytes T inputs) none) :=
  (outline_resetPrinter levels).append (outline_session _ _ _)

/-- Wherever the system has got to, its globals are those of the session on the bytes
read, and its bus has run a part of one long script. -/
theorem exists_run_of_reaches {inputs : List (Option UInt8)} {trace : PinTrace}
    {c : Config Pin Mark Link (Sketch T)}
    (h : Reaches (system T) bus (powerUp T levels) inputs trace c) :
    ∃ effects, (session T).run (Sketch.start T) inputs = some (c.memory, effects) ∧
      Run bus (systemScript T inputs) (Link.powerUp levels) trace c.script c.plant := by
  rcases h.exists_run with ⟨effects, hmemory, hrun⟩
  rcases busScript_session T inputs with ⟨s, effects', hsession, hscript⟩
  obtain ⟨-, rfl⟩ := Prod.mk.inj (Option.some.inj (hsession.symm.trans hmemory))
  refine ⟨effects', hmemory, ?_⟩
  rw [systemScript, ← hscript, busScript, List.flatMap_append]
  exact hrun

/-- Every point of the system meets the outline of the long script. -/
theorem outlined_of_reaches {inputs : List (Option UInt8)} {trace : PinTrace}
    {c : Config Pin Mark Link (Sketch T)}
    (h : Reaches (system T) bus (powerUp T levels) inputs trace c) :
    Outlined bus Obligation (Resting true (systemBytes T inputs) (systemBytes T inputs) none)
      c.script c.plant := by
  rcases exists_run_of_reaches h with ⟨effects, -, hrun⟩
  exact outline_systemScript levels inputs _ rfl _ _ _ hrun

theorem received_of_reaches {inputs : List (Option UInt8)} {trace : PinTrace}
    {c : Config Pin Mark Link (Sketch T)}
    (h : Reaches (system T) bus (powerUp T levels) inputs trace c) (hscript : c.script = []) :
    c.plant.received = systemBytes T inputs :=
  ((outlined_of_reaches h).done hscript).received_eq

/-- Whatever the serial port delivers, an iteration of `loop` that is due takes place. -/
theorem exists_take_of_run {inputs : List (Option UInt8)} {s : Sketch T} {effects : List Effect}
    (h : (session T).run (Sketch.start T) inputs = some (s, effects)) (x : Link)
    (input : Option UInt8) : ∃ d, Move (system T) bus ⟨s, [], x⟩ (.take input) d := by
  rcases exists_dialogStep (tracks_parse h) input with ⟨s', d', here, hloop, -, -⟩
  exact ⟨_, .take hloop⟩

/-! ## Safety -/

/-- Every point of the system lies on a run that goes on for ever and is fair: the
script is finished, the printer comes to rest, and nobody types any more. -/
theorem exists_fair_of_reaches {inputs : List (Option UInt8)} {trace : PinTrace}
    {c : Config Pin Mark Link (Sketch T)}
    (h : Reaches (system T) bus (powerUp T levels) inputs trace c) :
    ∃ (ρ : Forever (system T) bus (powerUp T levels)), ρ.Fair ∧ ∃ n, ρ.config n = c := by
  rcases (outlined_of_reaches h).canFinish with ⟨later, x, hfinish⟩
  rcases exists_rest x with ⟨y, hpath, hrest⟩
  have hloop : (system T).machine.step c.memory none = some (c.memory, []) := rfl
  have hquiet : Move (system T) bus ⟨c.memory, [], y⟩ (.take none) ⟨c.memory, [], y⟩ :=
    .take hloop
  have hlast : Reaches (system T) bus c ([] : List (Option UInt8)) (later ++ [])
      ⟨c.memory, [], y⟩ := .of_run (hfinish.trans (.of_env hpath))
  rcases hlast.exists_forever (.stay hquiet) with ⟨ρ, n, hρ⟩
  rcases h.exists_forever ρ with ⟨ρ', n', hρ'⟩
  refine ⟨ρ', fun k henv => ?_, n', ?_⟩
  · rcases henv (n' + (n + k)) (by omega) with ⟨z, hstep⟩
    rw [(hρ' (n + k)).1, (hρ k).1] at hstep
    exact absurd hstep (hrest z)
  · rw [← Nat.add_zero n', (hρ' 0).1, ρ.config_zero]

/-- In every run that goes on for ever and is fair to the printer, after any moment
there is a later one at which `loop` is entered and the printer has received everything
printed for the bytes read by then, and so for all the bytes read before. -/
theorem system_liveness (T : Target) (levels : Levels)
    (ρ : Forever (system T) bus (powerUp T levels)) (hfair : ρ.Fair) (n : ℕ) :
    ∃ m input, n ≤ m ∧ ρ.action m = .take input ∧
      (ρ.config m).plant.received = systemBytes T (ρ.taken m) ∧
      systemBytes T (ρ.taken n) <+: (ρ.config m).plant.received := by
  have hentered := ρ.exists_take Link.pending (fun _ _ => pending_lt_of_printerStep)
    (fun _ _ _ hreach => (outlined_of_reaches hreach).canFinish) hfair n
  rcases hentered with ⟨m, input, hm, htake⟩
  have hscript : (ρ.config m).script = [] := by
    have hmove := ρ.move m
    rw [htake] at hmove
    generalize ρ.config m = c, ρ.config (m + 1) = d at hmove
    cases hmove with
    | take => rfl
  rcases ρ.reaches m with ⟨trace, hreach⟩
  have hreceived := received_of_reaches hreach hscript
  refine ⟨m, input, hm, htake, hreceived, ?_⟩
  rw [hreceived]
  exact systemBytes_isPrefix (ρ.taken_isPrefix hm)

/-- Some run from power-up goes on for ever and is fair. -/
theorem system_liveness_fair :
    ∃ ρ : Forever (system .esp32) bus (powerUp .esp32 ⟨false, false, false, false⟩),
      ρ.Fair ∧ ∃ m input, 0 ≤ m ∧ ρ.action m = .take input ∧
        (ρ.config m).plant.received = systemBytes .esp32 (ρ.taken m) ∧
        systemBytes .esp32 (ρ.taken 0) <+: (ρ.config m).plant.received := by
  have hstart : Reaches (system .esp32) bus (powerUp .esp32 ⟨false, false, false, false⟩) [] []
      (powerUp .esp32 ⟨false, false, false, false⟩) := .start
  rcases exists_fair_of_reaches hstart with ⟨ρ, hfair, -⟩
  exact ⟨ρ, hfair, system_liveness .esp32 ⟨false, false, false, false⟩ ρ hfair 0⟩

end DotMatrixPrinter
