/-
# The state of the bus between calls

A frame relies on the clock being high and the data line being released when it
starts, and checks neither. This module follows the five pins through every call
of a run and shows that each call restores what the next one relies on: whenever
a call has returned the four output pins are idle, every reading of the data line
is taken while the driver itself releases it, attention is asserted during the two
header frames of `begin` and during no other frame, and reset is never active
during a frame.
-/

import DotMatrixPrinter.Driver.Calls
import DotMatrixPrinter.Driver.Frame
import DotMatrixPrinter.LineScript.Observer

namespace DotMatrixPrinter

open LineScript

/-- The output pins and the byte of the frame being sent, if one is. -/
@[ext]
structure Bus where
  levels : Levels
  sending : Option UInt8

namespace Bus

def write (x : Bus) (pin : Pin) (level : Bool) : Bus := { x with levels := x.levels.set pin level }

def mark (x : Bus) : Mark → Bus
  | .pinMode _ _ => x
  | .enterFrame data => { x with sending := some data }
  | .leaveFrame => { x with sending := none }

/-- Idle but for attention, and between two frames. -/
def ready (attn : Bool) : Bus := ⟨{ Levels.idle with attn := attn }, none⟩

end Bus

/-- Watch the output pins and the frames. -/
def busObserver : Observer Pin Mark Bus := ⟨Bus.write, Bus.mark⟩

/-- What holds at every event of a call. `inBegin` tells whether it is one of
`begin`. -/
structure BusOk (inBegin : Bool) (x : Bus) (e : Event Pin Mark) : Prop where
  /-- The data line is read only while the driver releases it. -/
  reads : ∀ level, e = .read level → x.levels.dataOut = false
  /-- Attention is asserted inside `begin` only. -/
  attn : x.levels.attn = true → inBegin = true
  /-- A frame is sent with attention asserted exactly when it belongs to `begin`. -/
  sending : x.sending ≠ none → x.levels.attn = inBegin
  /-- Reset is active inside `begin` only, and never during a frame. -/
  reset : x.levels.reset = true → inBegin = true ∧ x.sending = none

/-! ## Frames -/

/-- Attention as the call wants it, reset inactive, and a frame being sent. -/
structure InFrame (attn : Bool) (data : UInt8) (x : Bus) : Prop where
  attn : x.levels.attn = attn
  reset : x.levels.reset = false
  sending : x.sending = some data

theorem busOk_of_levels {inBegin : Bool} {x : Bus} {e : Event Pin Mark}
    (hattn : x.levels.attn = inBegin) (hreset : x.levels.reset = false)
    (hreads : x.levels.dataOut = false ∨ ∀ level, e ≠ .read level) : BusOk inBegin x e where
  reads level he := hreads.resolve_right fun h => h level he
  attn h := hattn.symm.trans h
  sending _ := hattn
  reset h := by simp [hreset] at h

/-- Sending a byte drives the clock and the data line, and waits. -/
theorem mem_cbmSerialWriteByte {data : UInt8} {c : PinCommand}
    (h : c ∈ cbmSerialWriteByte data) :
    (∃ pin level, (pin = .clk ∨ pin = .dataOut) ∧ c = .write pin level) ∨
      ∃ us, c = .pause us := by
  have hbit (bit : UInt8) (hc : c ∈ cbmSerialWriteBit bit) :
      (∃ pin level, (pin = .clk ∨ pin = .dataOut) ∧ c = .write pin level) ∨
        ∃ us, c = .pause us := by
    simp only [cbmSerialWriteBit, List.mem_cons, List.not_mem_nil, or_false] at hc
    rcases hc with rfl | rfl | rfl | rfl | rfl | rfl
    · exact Or.inl ⟨_, _, Or.inr rfl, rfl⟩
    · exact Or.inr ⟨_, rfl⟩
    · exact Or.inl ⟨_, _, Or.inl rfl, rfl⟩
    · exact Or.inr ⟨_, rfl⟩
    · exact Or.inl ⟨_, _, Or.inl rfl, rfl⟩
    · exact Or.inr ⟨_, rfl⟩
  simp only [cbmSerialWriteByte, List.mem_append, or_assoc] at h
  rcases h with h | h | h | h | h | h | h | h <;> exact hbit _ h

theorem triple_cbmSerialWriteByte (attn : Bool) (data byte : UInt8) :
    busObserver.Triple (BusOk attn) (InFrame attn data) (cbmSerialWriteByte byte)
      (InFrame attn data) := by
  apply Observer.Triple.of_forall_mem
  intro c hc x hx
  rcases mem_cbmSerialWriteByte hc with ⟨pin, level, hpin, rfl⟩ | ⟨us, rfl⟩
  · refine ⟨busOk_of_levels hx.attn hx.reset (Or.inr fun _ => by simp), ?_⟩
    rcases hpin with rfl | rfl
    · exact ⟨hx.attn, hx.reset, hx.sending⟩
    · exact ⟨hx.attn, hx.reset, hx.sending⟩
  · exact ⟨busOk_of_levels hx.attn hx.reset (Or.inr fun _ => by simp), hx⟩

theorem triple_enterFrame (attn : Bool) (data : UInt8) (lastFrame : ℤ) :
    busObserver.Triple (BusOk attn) (· = Bus.ready attn)
      ([.note (.enterFrame data)] ++ beginFrame lastFrame) (InFrame attn data) := by
  rintro x rfl
  have hok (clk : Bool) (sending : Option UInt8) (e : Event Pin Mark) :
      BusOk attn ⟨⟨attn, false, clk, false⟩, sending⟩ e :=
    busOk_of_levels rfl rfl (Or.inl rfl)
  have hstart : busObserver.AlongScript (BusOk attn) (Bus.ready attn)
      [.note (.enterFrame data), digitalWrite .clk LOW, whileNotDeviceReady] :=
    ⟨hok _ _ _, hok _ _ _, ⟨fun _ => hok _ _ _, hok _ _ _⟩, trivial⟩
  by_cases hlast : lastFrame = 1
  · simp only [beginFrame, if_pos hlast]
    exact ⟨hstart, ⟨rfl, rfl, rfl⟩⟩
  · simp only [beginFrame, if_neg hlast]
    exact ⟨⟨hok _ _ _, hok _ _ _, ⟨fun _ => hok _ _ _, hok _ _ _⟩, hok _ _ _, trivial⟩,
      ⟨rfl, rfl, rfl⟩⟩

theorem triple_endFrame (attn : Bool) (data : UInt8) :
    busObserver.Triple (BusOk attn) (InFrame attn data) (endFrame ++ [.note .leaveFrame])
      (· = Bus.ready attn) := by
  rintro ⟨⟨level, _, clk, dataOut⟩, _⟩ ⟨rfl, rfl, rfl⟩
  have hok (clk : Bool) (e : Event Pin Mark) :
      BusOk level ⟨⟨level, false, clk, false⟩, some data⟩ e :=
    busOk_of_levels rfl rfl (Or.inl rfl)
  refine ⟨⟨?_, ?_, hok _ _, ⟨fun _ => hok _ _, hok _ _⟩, hok _ _, hok _ _, trivial⟩, rfl⟩
  · exact busOk_of_levels rfl rfl (Or.inr fun _ => by simp)
  · exact busOk_of_levels rfl rfl (Or.inr fun _ => by simp)

/-- A frame restores the bus, whatever its byte. -/
theorem triple_cbmSerialWriteFrame (attn : Bool) (data : UInt8) (lastFrame : ℤ) :
    busObserver.Triple (BusOk attn) (· = Bus.ready attn) (cbmSerialWriteFrame data lastFrame)
      (· = Bus.ready attn) := by
  have hframe := ((triple_enterFrame attn data lastFrame).append
    (triple_cbmSerialWriteByte attn data data)).append (triple_endFrame attn data)
  simpa [cbmSerialWriteFrame, List.append_assoc] using hframe

theorem triple_sendFrames (bytes : List UInt8) :
    busObserver.Triple (BusOk false) (· = Bus.ready false) (sendFrames bytes)
      (· = Bus.ready false) :=
  Observer.Triple.flatMap (fun data => triple_cbmSerialWriteFrame false data 0) bytes

/-! ## Calls -/

/-- Before its header `begin` sends nothing, so it may start from any levels. -/
theorem triple_resetPrinter :
    busObserver.Triple (BusOk true) (·.sending = none)
      (CBM.resetPrinter ++ [digitalWrite .attn HIGH, delayMicroseconds 2000,
        digitalWrite .clk HIGH, delayMicroseconds 2000])
      (· = Bus.ready true) := by
  rintro ⟨levels, _⟩ rfl
  have hok (levels : Levels) (e : Event Pin Mark) (he : ∀ level, e ≠ .read level) :
      BusOk true ⟨levels, none⟩ e :=
    ⟨fun level h => absurd h (he level), fun _ => rfl, fun h => absurd rfl h,
      fun _ => ⟨rfl, rfl⟩⟩
  refine ⟨?_, rfl⟩
  simp only [CBM.resetPrinter, pinMode, digitalWrite, delay, delayMicroseconds,
    List.cons_append, List.nil_append, Observer.AlongScript, Observer.CommandOk]
  refine ⟨?_, ?_, ?_, ?_, ?_, ?_, ?_, ?_, ?_, ?_, ?_, ?_, ?_, ?_, ?_, ?_, ?_, trivial⟩ <;>
    exact hok _ _ fun _ => by simp

theorem triple_begin (mode : PrintMode) (printerAddr : ℤ) :
    busObserver.Triple (BusOk true) (·.sending = none) (CBM.begin mode printerAddr)
      (· = Bus.ready false) := by
  have hend : busObserver.Triple (BusOk true) (· = Bus.ready true)
      [delayMicroseconds 20, digitalWrite .attn LOW] (· = Bus.ready false) := by
    rintro x rfl
    have hok (e : Event Pin Mark) : BusOk true (Bus.ready true) e :=
      busOk_of_levels rfl rfl (Or.inl rfl)
    exact ⟨⟨hok _, hok _, trivial⟩, rfl⟩
  have hbegin := ((triple_resetPrinter.append
    (triple_cbmSerialWriteFrame true (UInt8.ofInt (0x20 + printerAddr)) 0)).append
    (triple_cbmSerialWriteFrame true (UInt8.ofInt (0x60 + mode.toInt)) 0)).append hend
  simpa [CBM.begin, cbmSerialBegin, List.append_assoc] using hbegin

variable {T : Target}

/-- Every call takes an idle bus to an idle bus. -/
theorem triple_call {cbm : CBM T} {c : Call T} {s : PinScript} (h : c.script cbm = some s) :
    busObserver.Triple (BusOk c.isBegin) (· = Bus.ready false) s (· = Bus.ready false) := by
  rcases Call.script_cases h with ⟨mode, printerAddr, rfl, rfl⟩ | ⟨rfl, rfl⟩ | ⟨hc, bytes, rfl⟩
  · exact (triple_begin mode printerAddr).consequence (fun x hx => by rw [hx]; rfl)
      fun _ hx => hx
  · rintro x rfl
    exact ⟨⟨fun _ => busOk_of_levels rfl rfl (Or.inl rfl), trivial⟩, rfl⟩
  · rw [hc]
    exact triple_sendFrames bytes

/-! ## Runs -/

/-- The bus invariant for one call of a run: `x` is the bus the run started from,
`before` the trace of the earlier calls. -/
structure BusInvariant (x : Bus) (before : PinTrace) (c : Call T) (trace : PinTrace) :
    Prop where
  /-- When the call has returned the output pins are idle and no frame is open. -/
  returned : busObserver.after x (before ++ trace) = ⟨Levels.idle, none⟩
  /-- Readings, attention, frames and reset at every event of the call. -/
  events : ∀ earlier e later, trace = earlier ++ e :: later →
    BusOk c.isBegin (busObserver.after x (before ++ earlier)) e
  /-- `begin` sends exactly two frames. -/
  header : c.isBegin = true → (framesIn trace).length = 2

theorem busInvariant_of_triple {x : Bus} {Q : Bus → Prop} {cbm : CBM T} {c : Call T}
    {s : PinScript} {rs rest : List Bool} {trace : PinTrace} (hscript : c.script cbm = some s)
    (htriple : busObserver.Triple (BusOk c.isBegin) Q s (· = Bus.ready false)) (hx : Q x)
    (hrun : exec s rs = some (trace, rest)) : BusInvariant x [] c trace := by
  obtain ⟨halong, hafter⟩ := htriple.exec hrun hx
  refine ⟨hafter, ?_, fun hc => ?_⟩
  · rintro earlier e later rfl
    exact halong.at_event
  · rcases Call.script_cases hscript with ⟨mode, printerAddr, rfl, rfl⟩ | ⟨rfl, -⟩ | ⟨hc', -⟩
    · rw [framesIn_exec hrun, framesOf_begin]
      rfl
    · exact absurd hc (by simp [Call.isBegin])
    · exact absurd hc (by simp [hc'])

/-- The invariant of a later call, seen from the start of an earlier one. -/
theorem BusInvariant.shift {x : Bus} {first before trace : PinTrace} {c : Call T}
    (h : BusInvariant (busObserver.after x first) before c trace) :
    BusInvariant x (first ++ before) c trace := by
  refine ⟨?_, fun earlier e later htrace => ?_, h.header⟩
  · rw [List.append_assoc, busObserver.after_append]
    exact h.returned
  · rw [List.append_assoc, busObserver.after_append]
    exact h.events earlier e later htrace

/-- Calls made from an idle bus keep the invariant, one call after the other. -/
theorem busInvariant_of_runCalls {cbm : CBM T} {calls : List (Call T)} {rs rest : List Bool}
    {run : List (Call T × PinTrace)} (h : runCalls cbm calls rs = some (run, rest))
    {before later : List (Call T × PinTrace)} {c : Call T} {trace : PinTrace}
    (hrun : run = before ++ (c, trace) :: later) :
    BusInvariant (Bus.ready false) (traceOf before) c trace := by
  induction calls generalizing cbm rs run before with
  | nil =>
      simp only [runCalls, Option.some.injEq, Prod.mk.injEq] at h
      rw [← h.1] at hrun
      exact absurd hrun (by simp)
  | cons c₀ calls ih =>
      rcases runCalls_cons_eq_some.mp h with ⟨s, trace₀, mid, run₀, hs, hexec, hrest, rfl⟩
      have hfirst := busInvariant_of_triple hs (triple_call hs) rfl hexec
      cases before with
      | nil =>
          obtain ⟨hhead, -⟩ := List.cons.inj hrun
          obtain ⟨rfl, rfl⟩ := Prod.mk.inj hhead
          exact hfirst
      | cons first before =>
          obtain ⟨rfl, htail⟩ := List.cons.inj hrun
          have hlater := ih hrest htail
          have hready : busObserver.after (Bus.ready false) trace₀ = Bus.ready false :=
            hfirst.returned
          rw [← hready] at hlater
          exact hlater.shift

/-- Every run that starts with `begin`, on any levels of the output pins, keeps the bus
invariant at each of its calls. -/
theorem bus_state_invariant (T : Target) (cbm : CBM T) (start : Levels) (mode : PrintMode)
    (printerAddr : ℤ) (calls : List (Call T)) (rs rest : List Bool)
    (run : List (Call T × PinTrace))
    (h : runCalls cbm (.begin mode printerAddr :: calls) rs = some (run, rest)) :
    ∀ before c trace later, run = before ++ (c, trace) :: later →
      BusInvariant ⟨start, none⟩ (traceOf before) c trace := by
  intro before c trace later hrun
  rcases runCalls_cons_eq_some.mp h with ⟨s, trace₀, mid, run₀, hs, hexec, hrest, rfl⟩
  obtain rfl : CBM.begin mode printerAddr = s := Option.some.inj hs
  have hfirst : BusInvariant ⟨start, none⟩ [] (.begin mode printerAddr) trace₀ :=
    busInvariant_of_triple hs (triple_begin mode printerAddr) rfl hexec
  cases before with
  | nil =>
      obtain ⟨hhead, -⟩ := List.cons.inj hrun
      obtain ⟨rfl, rfl⟩ := Prod.mk.inj hhead
      exact hfirst
  | cons first before =>
      obtain ⟨rfl, htail⟩ := List.cons.inj hrun
      have hlater := busInvariant_of_runCalls hrest htail
      have hready : busObserver.after ⟨start, none⟩ trace₀ = Bus.ready false := hfirst.returned
      rw [← hready] at hlater
      exact hlater.shift

/-- The invariant at the second call of a run that starts on undefined levels. -/
theorem bus_state_invariant_second_call :
    ∃ rs first later, runCalls (CBM.new .avr) [.begin .Graphic 4, .println (literal "hi") (-1)]
        rs = some ([(.begin .Graphic 4, first), (.println (literal "hi") (-1), later)], []) ∧
      BusInvariant (T := .avr) ⟨⟨true, true, false, true⟩, none⟩ first
        (.println (literal "hi") (-1)) later := by
  have hterminated : ∀ c ∈ [Call.begin (T := .avr) .Graphic 4, .println (literal "hi") (-1)],
      c.Terminated := by simp [Call.Terminated, literal]
  rcases exists_runCalls (CBM.new .avr) hterminated with ⟨rs, run, hrun⟩
  have hcalls := hrun
  rcases runCalls_cons_eq_some.mp hcalls with ⟨_, first, mid, run₁, -, -, hrest, rfl⟩
  rcases runCalls_cons_eq_some.mp hrest with ⟨_, later, _, run₂, -, -, hnil, rfl⟩
  obtain ⟨rfl, -⟩ := Prod.mk.inj (Option.some.inj hnil)
  refine ⟨rs, first, later, hrun, ?_⟩
  have hinv := bus_state_invariant .avr (CBM.new .avr) ⟨true, true, false, true⟩ .Graphic 4 _
    rs [] _ hrun [(.begin .Graphic 4, first)] _ later [] rfl
  simpa using hinv

end DotMatrixPrinter
