/-
# A listener on the wires

The listener sees the writes of the output pins and nothing else: no readings, no
delays, and none of the notes the driver's frames are bracketed by. It counts
falling clock edges. The first one opens a frame, each of the next eight takes a
bit from the inverted data line, and the eighth closes the frame. A reset pulse and
a rising attention line clear it.

Since the writes of a run do not depend on its readings, what the listener decodes
is a function of the calls. It is exactly the bytes they framed, each with the
attention level it was sent under.
-/

import DotMatrixPrinter.Driver.Calls
import DotMatrixPrinter.Driver.Frame

namespace DotMatrixPrinter

open LineScript Math.BitOrder

/-- The listener: the levels it sees, the bits of the frame that is open, and the
bytes it has decoded, each with the level of attention at its last bit. -/
@[ext]
structure Listener where
  levels : Levels
  frame : Option (List Bool)
  decoded : List (UInt8 × Bool)

namespace Listener

/-- Forget everything but the levels. -/
def clear (l : Listener) : Listener := { l with frame := none, decoded := [] }

/-- A falling edge of the clock. -/
def clockEdge (l : Listener) : Listener :=
  match l.frame with
  | none => { l with frame := some [] }
  | some bits =>
      let taken := bits ++ [!l.levels.dataOut]
      if taken.length = 8 then
        { l with
          frame := none
          decoded := l.decoded ++ [(UInt8.ofNat (ofBits taken), l.levels.attn)] }
      else { l with frame := some taken }

/-- One write of an output pin. -/
def sees (l : Listener) (write : Pin × Bool) : Listener :=
  let l' := { l with levels := l.levels.set write.1 write.2 }
  match write with
  | (.reset, true) => if l.levels.reset then l' else l'.clear
  | (.attn, true) => if l.levels.attn then l' else l'.clear
  | (.clk, false) => if l.levels.clk then l'.clockEdge else l'
  | _ => l'

/-- A list of writes, in order. -/
def listen (l : Listener) (seen : List (Pin × Bool)) : Listener := seen.foldl sees l

theorem listen_append (l : Listener) (first later : List (Pin × Bool)) :
    l.listen (first ++ later) = (l.listen first).listen later :=
  List.foldl_append

@[simp]
theorem clockEdge_levels (l : Listener) : l.clockEdge.levels = l.levels := by
  unfold clockEdge
  split
  · rfl
  · dsimp only
    split <;> rfl

/-- The levels follow the writes, whatever else the listener makes of them. -/
theorem sees_levels (l : Listener) (write : Pin × Bool) :
    (l.sees write).levels = l.levels.set write.1 write.2 := by
  unfold sees
  split <;> first | split <;> simp [clear] | rfl

/-! ## One frame -/

/-- A bit that is not the last of its frame is appended to the open frame. -/
theorem listen_sendBit (attn reset dataOut : Bool) (bits : List Bool)
    (decoded : List (UInt8 × Bool)) (bit : Bool) (h : bits.length < 7) :
    listen ⟨⟨attn, reset, false, dataOut⟩, some bits, decoded⟩ (Script.writes (sendBit bit)) =
      ⟨⟨attn, reset, false, !bit⟩, some (bits ++ [bit]), decoded⟩ := by
  show clockEdge ⟨⟨attn, reset, false, !bit⟩, some bits, decoded⟩ = _
  have hlength : (bits ++ [bit]).length ≠ 8 := by
    simp
    omega
  simp only [clockEdge, Bool.not_not, if_neg hlength]

/-- The eighth bit closes the frame. -/
theorem listen_sendBit_last (attn reset dataOut : Bool) (bits : List Bool)
    (decoded : List (UInt8 × Bool)) (bit : Bool) (h : bits.length = 7) :
    listen ⟨⟨attn, reset, false, dataOut⟩, some bits, decoded⟩ (Script.writes (sendBit bit)) =
      ⟨⟨attn, reset, false, !bit⟩, none,
        decoded ++ [(UInt8.ofNat (ofBits (bits ++ [bit])), attn)]⟩ := by
  show clockEdge ⟨⟨attn, reset, false, !bit⟩, some bits, decoded⟩ = _
  have hlength : (bits ++ [bit]).length = 8 := by simp [h]
  simp only [clockEdge, Bool.not_not, if_pos hlength]

/-- After up to seven bits the open frame holds the first bits of the byte. -/
theorem listen_sendBits (attn reset : Bool) (decoded : List (UInt8 × Bool)) (data : UInt8)
    {n : ℕ} (h : n ≤ 7) :
    ∃ dataOut, listen ⟨⟨attn, reset, false, false⟩, some [], decoded⟩
        (Script.writes (sendBits data n)) =
      ⟨⟨attn, reset, false, dataOut⟩, some (bitsOf n data.toNat), decoded⟩ := by
  induction n with
  | zero => exact ⟨false, rfl⟩
  | succ n ih =>
      rcases ih (by omega) with ⟨dataOut, hn⟩
      refine ⟨!data.toNat.testBit n, ?_⟩
      rw [sendBits_succ, Script.writes_append, listen_append, hn,
        listen_sendBit _ _ _ _ _ _ (by rw [length_bitsOf]; omega), bitsOf_succ]

/-- A frame decodes to its byte, once, and leaves the listener between frames with the
clock high and the data line released. -/
theorem listen_frame (attn reset : Bool) (decoded : List (UInt8 × Bool)) (data : UInt8)
    (lastFrame : ℤ) :
    listen ⟨⟨attn, reset, true, false⟩, none, decoded⟩
        (Script.writes (cbmSerialWriteFrame data lastFrame)) =
      ⟨⟨attn, reset, true, false⟩, none, decoded ++ [(data, attn)]⟩ := by
  have hstart : Script.writes ([.note (.enterFrame data)] ++ beginFrame lastFrame) =
      [(Pin.clk, false)] := by
    unfold beginFrame
    split <;> rfl
  have hend : Script.writes (endFrame ++ [.note .leaveFrame]) =
      [(Pin.clk, true), (Pin.dataOut, false)] := rfl
  have hwrites : Script.writes (cbmSerialWriteFrame data lastFrame) =
      (Pin.clk, false) :: Script.writes (sendBits data 7) ++
        Script.writes (sendBit (data.toNat.testBit 7)) ++
          [(Pin.clk, true), (Pin.dataOut, false)] := by
    rw [cbmSerialWriteFrame, List.append_assoc _ endFrame, Script.writes_append,
      Script.writes_append, hstart, hend, cbmSerialWriteByte_eq, sendBits_succ,
      Script.writes_append]
    simp
  rcases listen_sendBits attn reset decoded data le_rfl with ⟨dataOut, hbits⟩
  have hopen : sees ⟨⟨attn, reset, true, false⟩, none, decoded⟩ (Pin.clk, false) =
      ⟨⟨attn, reset, false, false⟩, some [], decoded⟩ := rfl
  rw [hwrites, List.cons_append, List.cons_append, listen, List.foldl_cons, hopen, ← listen,
    listen_append, listen_append, hbits, listen_sendBit_last _ _ _ _ _ _ (by simp),
    ← bitsOf_succ, ofNat_ofBits_bitsOf]
  rfl

theorem listen_sendFrames (attn reset : Bool) (decoded : List (UInt8 × Bool))
    (bytes : List UInt8) :
    listen ⟨⟨attn, reset, true, false⟩, none, decoded⟩ (Script.writes (sendFrames bytes)) =
      ⟨⟨attn, reset, true, false⟩, none, decoded ++ bytes.map (·, attn)⟩ := by
  induction bytes generalizing decoded with
  | nil =>
      rw [List.map_nil, List.append_nil]
      rfl
  | cons data bytes ih =>
      rw [sendFrames, List.flatMap_cons, Script.writes_append, listen_append, listen_frame,
        ← sendFrames, ih]
      simp

/-! ## Whole runs -/

/-- The reset pulse clears the listener, whatever it has seen before. -/
theorem listen_resetPrinter (l : Listener) :
    l.listen (Script.writes CBM.resetPrinter) = ⟨⟨false, false, false, false⟩, none, []⟩ := by
  let quiet : List (Pin × Bool) :=
    [(.reset, false), (.attn, false), (.clk, false), (.dataOut, false)]
  have hlevels : (l.listen quiet).levels = ⟨false, false, false, false⟩ := by
    simp [quiet, listen, sees_levels, Levels.set]
  show (l.listen quiet).listen [(.reset, true), (.reset, false)] = _
  generalize l.listen quiet = l' at hlevels ⊢
  rcases l' with ⟨levels, frame, decoded⟩
  obtain rfl : levels = ⟨false, false, false, false⟩ := hlevels
  rfl

/-- `cbm_serial_begin` decodes to its two header bytes, sent under attention. -/
theorem listen_cbmSerialBegin (mode : PrintMode) (printerAddr : ℤ) :
    listen ⟨⟨false, false, false, false⟩, none, []⟩
        (Script.writes (cbmSerialBegin mode printerAddr)) =
      ⟨Levels.idle, none, [(UInt8.ofInt (0x20 + printerAddr), true),
        (UInt8.ofInt (0x60 + mode.toInt), true)]⟩ := by
  have hstart : listen ⟨⟨false, false, false, false⟩, none, []⟩
      (Script.writes [digitalWrite .attn HIGH, delayMicroseconds 2000, digitalWrite .clk HIGH,
        delayMicroseconds 2000]) = ⟨⟨true, false, true, false⟩, none, []⟩ := rfl
  have hend : Script.writes [delayMicroseconds 20, digitalWrite .attn LOW] =
      [(Pin.attn, false)] := rfl
  rw [cbmSerialBegin, Script.writes_append, Script.writes_append, Script.writes_append,
    listen_append, listen_append, listen_append, hstart, listen_frame, listen_frame, hend]
  rfl

/-- `begin` decodes to the header, whatever was seen before. -/
theorem listen_begin (l : Listener) (mode : PrintMode) (printerAddr : ℤ) :
    l.listen (Script.writes (CBM.begin mode printerAddr)) =
      ⟨Levels.idle, none, [(UInt8.ofInt (0x20 + printerAddr), true),
        (UInt8.ofInt (0x60 + mode.toInt), true)]⟩ := by
  rw [CBM.begin, Script.writes_append, listen_append, listen_resetPrinter,
    listen_cbmSerialBegin]

variable {T : Target}

/-- A call that is not `begin` decodes to its frames, with attention inactive. -/
theorem listen_call {cbm : CBM T} {c : Call T} {s : PinScript} (hs : c.script cbm = some s)
    (hc : c.isBegin = false) (decoded : List (UInt8 × Bool)) :
    listen ⟨Levels.idle, none, decoded⟩ (Script.writes s) =
      ⟨Levels.idle, none, decoded ++ (framesOf s).map (·, false)⟩ := by
  rcases Call.script_cases hs with ⟨mode, printerAddr, rfl, -⟩ | ⟨-, rfl⟩ | ⟨-, bytes, rfl⟩
  · exact absurd hc (by simp [Call.isBegin])
  · show _ = Listener.mk _ _ (decoded ++ [])
    rw [List.append_nil]
    rfl
  · rw [framesOf_sendFrames]
    exact listen_sendFrames false false decoded bytes

end Listener

variable {T : Target}

/-- The bytes a list of calls frames, in order. A call that does not return has none. -/
def callsFrames (cbm : CBM T) : List (Call T) → List UInt8
  | [] => []
  | c :: calls => ((c.script cbm).map framesOf).getD [] ++ callsFrames (c.after cbm) calls

theorem listen_runCalls {cbm : CBM T} {calls : List (Call T)} {rs rest : List Bool}
    {run : List (Call T × PinTrace)} (h : runCalls cbm calls rs = some (run, rest))
    (hcalls : ∀ c ∈ calls, c.isBegin = false) (decoded : List (UInt8 × Bool)) :
    Listener.listen ⟨Levels.idle, none, decoded⟩ (writes (traceOf run)) =
      ⟨Levels.idle, none, decoded ++ (callsFrames cbm calls).map (·, false)⟩ := by
  induction calls generalizing cbm rs run decoded with
  | nil =>
      simp only [runCalls, Option.some.injEq, Prod.mk.injEq] at h
      rw [← h.1, callsFrames, List.map_nil, List.append_nil]
      rfl
  | cons c calls ih =>
      rcases runCalls_cons_eq_some.mp h with ⟨s, trace, mid, later, hs, hexec, hrest, rfl⟩
      rw [traceOf_cons, writes_append, Listener.listen_append, writes_exec hexec,
        Listener.listen_call hs (hcalls c List.mem_cons_self),
        ih hrest fun c' hc' => hcalls c' (List.mem_cons_of_mem c hc')]
      simp [callsFrames, hs]

/-- Whatever a listener held before, and whatever the data line read, after `begin` and
any calls that are not `begin` it has decoded the two header bytes with attention
asserted and then the framed bytes with attention inactive, and it has no frame open. -/
theorem wire_round_trip (T : Target) (cbm : CBM T) (l : Listener) (mode : PrintMode)
    (printerAddr : ℤ) (calls : List (Call T)) (hcalls : ∀ c ∈ calls, c.isBegin = false)
    (rs rest : List Bool) (run : List (Call T × PinTrace))
    (h : runCalls cbm (.begin mode printerAddr :: calls) rs = some (run, rest)) :
    (l.listen (writes (traceOf run))).decoded =
        (UInt8.ofInt ((0x20 + printerAddr) % 256), true) ::
          (UInt8.ofInt ((0x60 + mode.toInt) % 256), true) ::
          (callsFrames cbm calls).map (·, false) ∧
      (l.listen (writes (traceOf run))).frame = none := by
  have hmod (v : ℤ) : UInt8.ofInt (v % 256) = UInt8.ofInt v := by
    simp [UInt8.ofInt]
  rcases runCalls_cons_eq_some.mp h with ⟨s, trace, mid, later, hs, hexec, hrest, rfl⟩
  obtain rfl : CBM.begin mode printerAddr = s := Option.some.inj hs
  rw [traceOf_cons, writes_append, Listener.listen_append, writes_exec hexec,
    Listener.listen_begin, listen_runCalls hrest hcalls, hmod, hmod]
  exact ⟨rfl, rfl⟩

/-- One line, read off the wires by a listener that has half a frame of something else. -/
theorem wire_round_trip_line :
    ∃ rs run, runCalls (CBM.new .avr) [.begin .Graphic 4, .println (literal "hi") (-1)] rs =
        some (run, []) ∧
      (Listener.listen ⟨Levels.idle, some [true, false], [(7, false)]⟩
          (writes (traceOf run))).decoded =
        [(0x24, true), (0x60, true), (72, false), (73, false), (32, false)] := by
  have hterminated : ∀ c ∈ [Call.begin (T := .avr) .Graphic 4, .println (literal "hi") (-1)],
      c.Terminated := by simp [Call.Terminated, literal]
  rcases exists_runCalls (CBM.new .avr) hterminated with ⟨rs, run, hrun⟩
  exact ⟨rs, run, hrun, (wire_round_trip .avr (CBM.new .avr) ⟨Levels.idle, some [true, false],
    [(7, false)]⟩ .Graphic 4 _ (by simp [Call.isBegin]) rs [] run hrun).1⟩

end DotMatrixPrinter
