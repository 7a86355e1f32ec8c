/-
# The timing of the wires

What a receiver may rely on when it looks at the wires. The data line is set up at least
40 microseconds before the clock falls and held at least 20 after it; every level of the
clock lasts at least 20; while the clock is high the data line is released and not pulled.
Reset lasts 100 milliseconds and is followed by three seconds of rest, and attention
comes 2 milliseconds before the first clock edge and goes 140 microseconds after the
last. No call restores these distances on purpose: each relies on the delays the call
before it ended with.
-/

import DotMatrixPrinter.Driver.Calls
import DotMatrixPrinter.Driver.Frame
import DotMatrixPrinter.LineScript.Stopwatch

namespace DotMatrixPrinter

open LineScript

/-- When a pin may be driven to a level, given how long each pin has had its level. -/
def WireTiming (x : Stopwatch Pin) : Pin → Bool → Prop
  -- A falling clock: the bit is set up and the pulse was long enough.
  | .clk, false => x.level .clk = true → 20 ≤ x.since .clk ∧ 40 ≤ x.since .dataOut ∧
      (x.level .attn = true → 2000 ≤ x.since .attn)
  | .clk, true => x.level .clk = false → 20 ≤ x.since .clk ∧
      (x.level .attn = true → 2000 ≤ x.since .attn)
  -- The last bit was held; with the clock high the line may only be released.
  | .dataOut, level => x.level .dataOut ≠ level →
      (x.level .clk = true → level = false) ∧ (x.level .clk = false → 20 ≤ x.since .clk)
  | .reset, false => x.level .reset = true → 100000 ≤ x.since .reset
  | .reset, true => True
  | .attn, true => x.level .attn = false → 3000000 ≤ x.since .reset
  | .attn, false => x.level .attn = true → 140 ≤ x.since .clk
  | .dataIn, _ => True

/-- Waiting longer breaks none of it. -/
theorem wireTiming_mono (pin : Pin) (level : Bool) : Monotone fun x => WireTiming x pin level := by
  intro x y hle h
  obtain ⟨hlevel, hsince⟩ : x.level = y.level ∧ ∀ line, x.since line ≤ y.since line := hle
  have hclk := hsince .clk
  have hattn := hsince .attn
  have hreset := hsince .reset
  have hdataOut := hsince .dataOut
  cases pin <;> cases level <;> simp only [WireTiming, ← hlevel] at h ⊢ <;> grind

/-! ## Frames -/

/-- Where a frame can start: the clock has been high and the data line released for a
while, and attention, in the header, asserted for longer. -/
structure Rested (header : Bool) (x : Stopwatch Pin) : Prop where
  attn : x.level .attn = header
  reset : x.level .reset = false
  clk : x.level .clk = true
  dataOut : x.level .dataOut = false
  clkSince : 120 ≤ x.since .clk
  dataOutSince : 120 ≤ x.since .dataOut
  attnSince : header = true → 2000 ≤ x.since .attn

/-- Between two bits of a frame. -/
structure Clocking (header : Bool) (x : Stopwatch Pin) : Prop where
  attn : x.level .attn = header
  reset : x.level .reset = false
  clk : x.level .clk = false
  clkSince : 20 ≤ x.since .clk
  attnSince : header = true → 2000 ≤ x.since .attn

theorem rested_mono (header : Bool) : Monotone (Rested header) := by
  intro x y hle h
  have hlevel : y.level = x.level := hle.1.symm
  exact ⟨hlevel ▸ h.attn, hlevel ▸ h.reset, hlevel ▸ h.clk, hlevel ▸ h.dataOut,
    h.clkSince.trans (hle.2 _), h.dataOutSince.trans (hle.2 _),
    fun hheader => (h.attnSince hheader).trans (hle.2 _)⟩

/-- The clock falls, and the first bit is 40 microseconds away. -/
theorem paced_openFrame (header : Bool) (data : UInt8) :
    Paced WireTiming (Rested header) ([.note (.enterFrame data)] ++ beginFrame 0)
      (Clocking header) := by
  intro x hx
  refine ⟨⟨?_, trivial⟩, ?_⟩
  · intro _
    refine ⟨?_, ?_, ?_⟩
    · exact le_trans (by decide) hx.clkSince
    · exact le_trans (by decide) hx.dataOutSince
    · simpa [hx.attn] using hx.attnSince
  · show Clocking header ((x.drive .clk false).wait 40)
    constructor
    · simp [hx.attn]
    · simp [hx.reset]
    · simp
    · simp only [Stopwatch.wait_since]
      omega
    · intro hheader
      have hsince := hx.attnSince hheader
      simp
      omega

/-- The data line changes while the clock is low, 20 microseconds after it fell, and
the clock falls again 40 microseconds later. -/
theorem paced_sendBit (header bit : Bool) :
    Paced WireTiming (Clocking header) (sendBit bit) (Clocking header) := by
  intro x hx
  have hattn : x.level .attn = true → 2000 ≤ x.since .attn := by simpa [hx.attn] using hx.attnSince
  refine ⟨⟨?_, ?_, ?_, trivial⟩, ?_⟩
  · intro _
    simp [hx.clk, hx.clkSince]
  · intro _
    simp
    grind [hx.clkSince]
  · intro _
    simp
    grind
  · show Clocking header ((((((x.drive .dataOut !bit).wait 20).drive .clk true).wait 20).drive .clk
      false).wait 20)
    constructor
    · simp [hx.attn]
    · simp [hx.reset]
    · simp
    · simp
    · intro hheader
      have hsince := hx.attnSince hheader
      simp
      omega

theorem paced_sendBits (header : Bool) (data : UInt8) (n : ℕ) :
    Paced WireTiming (Clocking header) (sendBits data n) (Clocking header) :=
  Paced.flatMap (fun i => paced_sendBit header (data.toNat.testBit i)) (List.range n)

/-- The clock rises, and the data line is released under the high clock. -/
theorem paced_closeFrame (header : Bool) :
    Paced WireTiming (Clocking header) (endFrame ++ [.note .leaveFrame]) (Rested header) := by
  intro x hx
  have hattn : x.level .attn = true → 2000 ≤ x.since .attn := by simpa [hx.attn] using hx.attnSince
  refine ⟨⟨?_, ?_, trivial⟩, ?_⟩
  · intro _
    exact ⟨hx.clkSince, hattn⟩
  · show WireTiming (x.drive .clk true) .dataOut false
    intro _
    simp
  · show Rested header ((((x.drive .clk true).drive .dataOut false).wait 20).wait 100)
    constructor
    · simp [hx.attn]
    · simp [hx.reset]
    · simp
    · simp
    · simp
    · simp
    · intro hheader
      have hsince := hx.attnSince hheader
      simp
      omega

/-- A frame keeps the timing, and leaves the wires where the next can start. -/
theorem paced_cbmSerialWriteFrame (header : Bool) (data : UInt8) :
    Paced WireTiming (Rested header) (cbmSerialWriteFrame data 0) (Rested header) := by
  have hframe := ((paced_openFrame header data).append (paced_sendBits header data 8)).append
    (paced_closeFrame header)
  rw [cbmSerialWriteFrame, cbmSerialWriteByte_eq, List.append_assoc _ endFrame]
  exact hframe

theorem paced_sendFrames (header : Bool) (bytes : List UInt8) :
    Paced WireTiming (Rested header) (sendFrames bytes) (Rested header) :=
  Paced.flatMap (fun data => paced_cbmSerialWriteFrame header data) bytes

/-! ## Sessions -/

/-- Wires `begin` may find. A line that is high must meet what its fall asks for, and clock
and data line must not both be high, however long they have been so: `begin` lowers first
the one and then the other with no delay between. -/
structure Calm (x : Stopwatch Pin) : Prop where
  clk : x.level .clk = true → 20 ≤ x.since .clk ∧ 40 ≤ x.since .dataOut
  dataOut : x.level .dataOut = true → x.level .clk = false ∧ 20 ≤ x.since .clk
  reset : x.level .reset = true → 100000 ≤ x.since .reset
  attn : x.level .attn = true → 140 ≤ x.since .clk

theorem Rested.calm {x : Stopwatch Pin} (h : Rested false x) : Calm x where
  clk _ := ⟨le_trans (by decide) h.clkSince, le_trans (by decide) h.dataOutSince⟩
  dataOut hdataOut := absurd hdataOut (by simp [h.dataOut])
  reset hreset := absurd hreset (by simp [h.reset])
  attn hattn := absurd hattn (by simp [h.attn])

/-- What `begin` does first: it sets the directions of the pins and lowers the outputs. -/
def lowerPins : PinScript :=
  [pinMode .reset .OUTPUT, pinMode .attn .OUTPUT, pinMode .clk .OUTPUT,
    pinMode .dataOut .OUTPUT, pinMode .dataIn .INPUT, digitalWrite .reset LOW,
    digitalWrite .attn LOW, digitalWrite .clk LOW, digitalWrite .dataOut LOW]

/-- The data line falls right after the clock. -/
theorem wireTiming_lowerData_iff (x : Stopwatch Pin) :
    WireTiming (x.drive .clk false) .dataOut false ↔
      (x.level .dataOut = true → x.level .clk = false ∧ 20 ≤ x.since .clk) := by
  cases hclk : x.level .clk with
  | false => simp [WireTiming, Stopwatch.drive_of_eq hclk, hclk]
  | true =>
      -- The clock falls only now, so the bit on the data line is not held.
      have hfallen : (x.drive .clk false).since .clk = 0 :=
        Stopwatch.drive_since_self (by simp [hclk])
      simp [WireTiming, hfallen]

/-- Calm wires are exactly those on which `begin` lowers the pins in time. -/
theorem timed_lowerPins_iff (x : Stopwatch Pin) :
    Timed WireTiming x (promptTrace lowerPins) ↔ Calm x := by
  have htimed : Timed WireTiming x (promptTrace lowerPins) ↔
      WireTiming x .reset false ∧ WireTiming (x.drive .reset false) .attn false ∧
        WireTiming ((x.drive .reset false).drive .attn false) .clk false ∧
        WireTiming (((x.drive .reset false).drive .attn false).drive .clk false)
          .dataOut false ∧ True := Iff.rfl
  rw [htimed, wireTiming_lowerData_iff]
  constructor
  · rintro ⟨hreset, hattn, hclk, hdataOut, -⟩
    exact ⟨by simpa [WireTiming] using hclk, by simpa using hdataOut, hreset,
      by simpa [WireTiming] using hattn⟩
  · intro hx
    exact ⟨hx.reset, by simpa [WireTiming] using hx.attn, by simpa [WireTiming] using hx.clk,
      by simpa using hx.dataOut, trivial⟩

/-- All output pins are low. -/
def AllLow (x : Stopwatch Pin) : Prop :=
  x.level .attn = false ∧ x.level .reset = false ∧ x.level .clk = false ∧ x.level .dataOut = false

theorem paced_lowerPins : Paced WireTiming Calm lowerPins AllLow := by
  intro x hx
  refine ⟨(timed_lowerPins_iff x).mpr hx, ?_⟩
  show AllLow ((((x.drive .reset false).drive .attn false).drive .clk false).drive .dataOut false)
  simp [AllLow]

/-- The reset pulse, and the rest after it. -/
theorem paced_resetPulse : Paced WireTiming AllLow
    [digitalWrite .reset HIGH, delay 100, digitalWrite .reset LOW, delay 3000]
    (fun x => AllLow x ∧ 3000000 ≤ x.since .reset) := by
  intro x hx
  refine ⟨⟨trivial, ?_, trivial⟩, ?_⟩
  · show WireTiming ((x.drive .reset true).wait 100000) .reset false
    intro _
    simp
  · show AllLow (((((x.drive .reset true).wait 100000).drive .reset false).wait 3000000)) ∧ _
    obtain ⟨hattn, -, hclk, hdataOut⟩ := hx
    exact ⟨by simp [AllLow, hattn, hclk, hdataOut], Nat.le_add_left _ _⟩

/-- Attention is asserted, and the clock follows two milliseconds later. -/
theorem paced_assertAttention : Paced WireTiming (fun x => AllLow x ∧ 3000000 ≤ x.since .reset)
    [digitalWrite .attn HIGH, delayMicroseconds 2000, digitalWrite .clk HIGH,
      delayMicroseconds 2000] (Rested true) := by
  intro x hx
  obtain ⟨⟨hattn, hreset, hclk, hdataOut⟩, hsince⟩ := hx
  refine ⟨⟨fun _ => hsince, ?_, trivial⟩, ?_⟩
  · show WireTiming ((x.drive .attn true).wait 2000) .clk true
    intro _
    simp
  · show Rested true ((((x.drive .attn true).wait 2000).drive .clk true).wait 2000)
    constructor
    · simp
    · simp [hreset]
    · simp
    · simp [hdataOut]
    · simp
    · simp
    · intro _
      simp

/-- Attention goes when the last frame of the header is 140 microseconds old. -/
theorem paced_releaseAttention : Paced WireTiming (Rested true)
    [delayMicroseconds 20, digitalWrite .attn LOW] (Rested false) := by
  intro x hx
  refine ⟨⟨?_, trivial⟩, ?_⟩
  · show WireTiming (x.wait 20) .attn false
    intro _
    have hsince := hx.clkSince
    simp
    omega
  · show Rested false ((x.wait 20).drive .attn false)
    have hclk := hx.clkSince
    have hdataOut := hx.dataOutSince
    exact ⟨by simp, by simp [hx.reset], by simp [hx.clk], by simp [hx.dataOut], by simp; omega,
      by simp; omega, by simp⟩

theorem paced_begin (mode : PrintMode) (printerAddr : ℤ) :
    Paced WireTiming Calm (CBM.begin mode printerAddr) (Rested false) := by
  have hheader := (paced_cbmSerialWriteFrame true (UInt8.ofInt (0x20 + printerAddr))).append
    (paced_cbmSerialWriteFrame true (UInt8.ofInt (0x60 + mode.toInt)))
  have hbegin := (paced_lowerPins.append paced_resetPulse).append
    (paced_assertAttention.append (hheader.append paced_releaseAttention))
  simpa [CBM.begin, CBM.resetPrinter, cbmSerialBegin, lowerPins] using hbegin

/-! ## Calls -/

variable {T : Target}

/-- Every call starts from rested wires and leaves them rested. -/
theorem paced_call {cbm : CBM T} {c : Call T} {s : PinScript} (h : c.script cbm = some s) :
    Paced WireTiming (Rested false) s (Rested false) := by
  obtain ⟨mode, printerAddr, -, rfl⟩ | ⟨-, rfl⟩ | ⟨-, bytes, rfl⟩ := Call.script_cases h
  · exact (paced_begin mode printerAddr).consequence (fun _ hx => hx.calm) fun _ hx => hx
  · exact fun x hx => ⟨trivial, hx⟩
  · exact paced_sendFrames false bytes

theorem timed_of_runCalls {cbm : CBM T} {calls : List (Call T)} {rs rest : List Bool}
    {run : List (Call T × PinTrace)} (h : runCalls cbm calls rs = some (run, rest))
    {x : Stopwatch Pin} (hx : Rested false x) : Timed WireTiming x (traceOf run) := by
  induction calls generalizing cbm rs run x with
  | nil =>
      simp only [runCalls, Option.some.injEq, Prod.mk.injEq] at h
      rw [← h.1]
      exact trivial
  | cons c calls ih =>
      obtain ⟨s, trace, mid, later, hs, hexec, hrest, rfl⟩ := runCalls_cons_eq_some.mp h
      obtain ⟨htimed, hrested⟩ := (paced_call hs).exec wireTiming_mono (rested_mono false) hx hexec
      rw [traceOf_cons, timed_append]
      exact ⟨htimed, ih hrest hrested⟩

/-- In every run that starts with `begin` on calm wires, whatever the calls and however
long the printer takes to answer, each time a pin is driven its timing is met. -/
theorem wire_timing (T : Target) (cbm : CBM T) (start : Stopwatch Pin) (hstart : Calm start)
    (mode : PrintMode) (printerAddr : ℤ) (calls : List (Call T)) (rs rest : List Bool)
    (run : List (Call T × PinTrace))
    (h : runCalls cbm (.begin mode printerAddr :: calls) rs = some (run, rest)) :
    ∀ earlier pin level later, traceOf run = earlier ++ .write pin level :: later →
      WireTiming (start.after earlier) pin level := by
  intro earlier pin level later htrace
  obtain ⟨s, trace, mid, rest', hs, hexec, hrest, rfl⟩ := runCalls_cons_eq_some.mp h
  obtain rfl : CBM.begin mode printerAddr = s := Option.some.inj hs
  obtain ⟨htimed, hrested⟩ :=
    (paced_begin mode printerAddr).exec wireTiming_mono (rested_mono false) hstart hexec
  have hwhole : Timed WireTiming start (traceOf ((.begin mode printerAddr, trace) :: rest')) := by
    rw [traceOf_cons, timed_append]
    exact ⟨htimed, timed_of_runCalls hrest hrested⟩
  rw [htrace] at hwhole
  exact hwhole.at_write

/-- The timing of one printed line, on pins that have just come up low. -/
theorem wire_timing_line :
    ∃ rs run, runCalls (CBM.new .avr) [.begin .Graphic 4, .println (literal "hi") (-1)] rs =
        some (run, []) ∧
      ∀ earlier pin level later, traceOf run = earlier ++ .write pin level :: later →
        WireTiming (Stopwatch.after ⟨fun _ => false, fun _ => 0⟩ earlier) pin level := by
  have hterminated : ∀ c ∈ [Call.begin (T := .avr) .Graphic 4, .println (literal "hi") (-1)],
      c.Terminated := by simp [Call.Terminated, literal]
  obtain ⟨rs, run, hrun⟩ := exists_runCalls (CBM.new .avr) hterminated
  have hcalm : Calm ⟨fun _ => false, fun _ => 0⟩ := ⟨by simp, by simp, by simp, by simp⟩
  exact ⟨rs, run, hrun, wire_timing .avr (CBM.new .avr) _ hcalm .Graphic 4 _ rs [] run hrun⟩

end DotMatrixPrinter
