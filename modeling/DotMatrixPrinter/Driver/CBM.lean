/-
# The CBM printer driver

The class `CBM` of `cbm.h`, function by function. Every function is the script of
pin operations it performs, so the two polling loops of a frame stay loops and
what the printer answers is left to whatever the script is run against. The five
pins are named by the role the constructor gives them. A call that reads outside
the text it was given has no script.

Each call of `cbm_serial_write_frame` is bracketed by two notes, so the frames a
script sends can be read off it and a point of a trace can be placed inside or
outside a frame.
-/

import DotMatrixPrinter.Math.TerminatedScan
import DotMatrixPrinter.LineScript.Basic
import DotMatrixPrinter.Driver.Target

namespace DotMatrixPrinter

open Math.TerminatedScan

/-- The pins, by the role the constructor stores them under. -/
inductive Pin
  | attn | reset | clk | dataIn | dataOut
  deriving DecidableEq, Repr

/-- The second argument of `pinMode`. -/
inductive PinDirection
  | INPUT | OUTPUT
  deriving DecidableEq, Repr

/-- What the driver does beside driving, sampling and waiting. -/
inductive Mark
  | pinMode (pin : Pin) (direction : PinDirection)
  /-- `cbm_serial_write_frame` is entered with this byte. -/
  | enterFrame (data : UInt8)
  /-- `cbm_serial_write_frame` returns. -/
  | leaveFrame
  deriving DecidableEq, Repr

/-- A script of the driver. -/
abbrev PinScript := LineScript.Script Pin Mark

/-- A trace of the driver. -/
abbrev PinTrace := LineScript.Trace Pin Mark

/-- A single pin operation. -/
abbrev PinCommand := LineScript.Command Pin Mark

/-! ## The Arduino core -/

abbrev LOW : UInt8 := 0

abbrev HIGH : UInt8 := 1

def pinMode (pin : Pin) (direction : PinDirection) : PinCommand := .note (.pinMode pin direction)

/-- Every value but `LOW` drives the pin high. -/
def digitalWrite (pin : Pin) (val : UInt8) : PinCommand := .write pin (val != LOW)

def delay (ms : ℕ) : PinCommand := .pause (1000 * ms)

def delayMicroseconds (us : ℕ) : PinCommand := .pause us

/-- `PrintMode` has the fixed underlying type `int`: beside its two enumerators
every `int` is a value of it. -/
inductive PrintMode
  | Graphic
  | Business
  | ofInt (value : ℤ)
  deriving DecidableEq

/-- `(int)mode`. -/
def PrintMode.toInt : PrintMode → ℤ
  | .Graphic => 0
  | .Business => 7
  | .ofInt value => value

/-! ## One frame on the bus -/

/-- `while (!deviceReady()) delayMicroseconds(10);` -/
def whileNotDeviceReady : PinCommand := .pollWhile false 10

/-- `while (deviceReady()) delayMicroseconds(10);` -/
def whileDeviceReady : PinCommand := .pollWhile true 10

/-- Writes one bit (data byte's LSB) to CBM serial line. -/
def cbmSerialWriteBit (data : UInt8) : PinScript :=
  [digitalWrite .dataOut (~~~data &&& 0x01),
    delayMicroseconds 20,
    digitalWrite .clk HIGH,
    delayMicroseconds 20,
    digitalWrite .clk LOW,
    delayMicroseconds 20]

/-- Writes one byte to CBM serial line (LSB first, MSB last). -/
def cbmSerialWriteByte (data : UInt8) : PinScript :=
  cbmSerialWriteBit (data &&& 0x01) ++
  cbmSerialWriteBit ((data >>> 1) &&& 0x01) ++
  cbmSerialWriteBit ((data >>> 2) &&& 0x01) ++
  cbmSerialWriteBit ((data >>> 3) &&& 0x01) ++
  cbmSerialWriteBit ((data >>> 4) &&& 0x01) ++
  cbmSerialWriteBit ((data >>> 5) &&& 0x01) ++
  cbmSerialWriteBit ((data >>> 6) &&& 0x01) ++
  cbmSerialWriteBit ((data >>> 7) &&& 0x01)

/-- The part of a frame before its byte. The handshake of a last frame is
commented out in the source. -/
def beginFrame (lastFrame : ℤ) : PinScript :=
  [digitalWrite .clk LOW, whileNotDeviceReady] ++
    if lastFrame = 1 then [] else [delayMicroseconds 40]

/-- The part of a frame after its byte. -/
def endFrame : PinScript :=
  [digitalWrite .clk HIGH,
    digitalWrite .dataOut LOW,
    delayMicroseconds 20,
    whileDeviceReady,
    delayMicroseconds 100]

/-- Writes one data frame to CBM serial line. -/
def cbmSerialWriteFrame (data : UInt8) (lastFrame : ℤ) : PinScript :=
  [.note (.enterFrame data)] ++ beginFrame lastFrame ++ cbmSerialWriteByte data ++ endFrame ++
    [.note .leaveFrame]

/-- Begins communication sequence on CBM serial line. The sums wrap to a byte. -/
def cbmSerialBegin (mode : PrintMode) (printerAddr : ℤ) : PinScript :=
  [digitalWrite .attn HIGH,
    delayMicroseconds 2000,
    digitalWrite .clk HIGH,
    delayMicroseconds 2000] ++
  cbmSerialWriteFrame (UInt8.ofInt (0x20 + printerAddr)) 0 ++
  cbmSerialWriteFrame (UInt8.ofInt (0x60 + mode.toInt)) 0 ++
  [delayMicroseconds 20,
    digitalWrite .attn LOW]

/-! ## Text -/

/-- Switches case for alpha values. -/
def cbmSwitchCase (T : Target) (data : UInt8) : ℤ :=
  if T.charToInt data < 32 then 32
  else if ('a'.toNat : ℤ) ≤ T.charToInt data ∧ T.charToInt data ≤ 'z'.toNat then
    T.charToInt data - 32
  else 113

/-- The body of both loops of `print`. -/
def printChar (T : Target) (c : UInt8) : PinScript :=
  cbmSerialWriteFrame (UInt8.ofInt (cbmSwitchCase T c)) 0

/-- What a call that prints a text did: the indices of the text it loaded and its
pin operations. -/
abbrev Printed := Scan PinCommand

/-- `print(const char* text, int length)`. -/
def print (T : Target) (text : CharPtr) (length : ℤ) : Option Printed :=
  if length < 0 then scanWhile 0 (printChar T) text 0
  else scanFor 0 (printChar T) length text 0

/-- `print(String text)`. -/
def printString {T : Target} (text : ArduinoString T) : Option Printed :=
  print T text.cStr (T.unsignedToInt text.length)

/-! ## The class -/

/-- The state of a `CBM` object that its functions change. -/
structure CBM (T : Target) where
  newline : ArduinoString T

namespace CBM

variable {T : Target}

/-- A new object: the newline is a carriage return. -/
def new (T : Target) : CBM T := ⟨.ofChars ['\r'.toUInt8] (by decide)⟩

/-- The part of `begin` before the serial communication. -/
def resetPrinter : PinScript :=
  [pinMode .reset .OUTPUT,
    pinMode .attn .OUTPUT,
    pinMode .clk .OUTPUT,
    pinMode .dataOut .OUTPUT,
    pinMode .dataIn .INPUT,
    digitalWrite .reset LOW,
    digitalWrite .attn LOW,
    digitalWrite .clk LOW,
    digitalWrite .dataOut LOW,
    digitalWrite .reset HIGH,
    delay 100,
    digitalWrite .reset LOW,
    delay 3000]

/-- `begin(PrintMode mode, int printer_addr)`. -/
def begin (mode : PrintMode) (printerAddr : ℤ) : PinScript :=
  resetPrinter ++ cbmSerialBegin mode printerAddr

def setNewline (_ : CBM T) (newlineChar : ArduinoString T) : CBM T := ⟨newlineChar⟩

/-- `deviceReady()` is one reading of the data line. -/
def deviceReady : PinScript := [.sample]

/-- `println(const char* text, int length)`. The loads reported are those of `text`. -/
def println (cbm : CBM T) (text : CharPtr) (length : ℤ) : Option Printed := do
  let line ← print T text length
  let ending ← printString cbm.newline
  return ⟨line.loads, line.out ++ ending.out⟩

/-- The bytes one pass of the loop of `printSelfTest` sends. -/
def selfTestRow (i : ℤ) : List ℤ :=
  [i + 32, 32, i + 48, 32, i + 64, 32, i + 80, 32, i + 96, 32, i + 112, 32, 32, 32, 32,
    i + 160, 32, i + 176, 32, i + 192, 32, i + 200, 32, i + 224, 32, i + 240, 10, 13]

/-- Prints a self-test to verify the printer is working. -/
def printSelfTest (cbm : CBM T) : Option PinScript := do
  let title ← cbm.println
    (literal "Hello World, here are the chars supported by the printer:") (-1)
  let rows := (List.range 16).flatMap fun (i : ℕ) => (selfTestRow i).flatMap fun data =>
    cbmSerialWriteFrame (UInt8.ofInt data) 0
  return title.out ++ rows

end CBM

/-! ## The frames of a script -/

/-- The byte of a note left on entering `cbm_serial_write_frame`. -/
def Mark.frame : Mark → Option UInt8
  | .enterFrame data => some data
  | _ => none

/-- The bytes passed to `cbm_serial_write_frame`, in order. -/
def framesOf (s : PinScript) : List UInt8 := s.notes.filterMap Mark.frame

@[simp]
theorem framesOf_append (s₁ s₂ : PinScript) :
    framesOf (s₁ ++ s₂) = framesOf s₁ ++ framesOf s₂ := by
  simp [framesOf]

@[simp]
theorem framesOf_cbmSerialWriteFrame (data : UInt8) (lastFrame : ℤ) :
    framesOf (cbmSerialWriteFrame data lastFrame) = [data] := by
  by_cases h : lastFrame = 1 <;>
    simp [framesOf, LineScript.Script.notes, LineScript.notes, LineScript.Event.toNote,
      LineScript.Command.visible, Mark.frame, cbmSerialWriteFrame, beginFrame, endFrame,
      cbmSerialWriteByte, cbmSerialWriteBit, digitalWrite, delayMicroseconds,
      whileNotDeviceReady, whileDeviceReady, h]

/-- `begin` sends the listener address and the secondary address. -/
@[simp]
theorem framesOf_begin (mode : PrintMode) (printerAddr : ℤ) :
    framesOf (CBM.begin mode printerAddr) =
      [UInt8.ofInt (0x20 + printerAddr), UInt8.ofInt (0x60 + mode.toInt)] := by
  have hreset : framesOf CBM.resetPrinter = [] := rfl
  have hstart : framesOf [digitalWrite .attn HIGH, delayMicroseconds 2000,
      digitalWrite .clk HIGH, delayMicroseconds 2000] = [] := rfl
  have hend : framesOf [delayMicroseconds 20, digitalWrite .attn LOW] = [] := rfl
  simp only [CBM.begin, cbmSerialBegin, framesOf_append, framesOf_cbmSerialWriteFrame, hreset,
    hstart, hend, List.nil_append, List.append_nil, List.singleton_append]

/-- The bytes passed to `cbm_serial_write_frame` in a trace, in order. -/
def framesIn (trace : PinTrace) : List UInt8 := (LineScript.notes trace).filterMap Mark.frame

/-- The frames of a run are those of its script. -/
theorem framesIn_exec {s : PinScript} {rs rest : List Bool} {trace : PinTrace}
    (h : LineScript.exec s rs = some (trace, rest)) : framesIn trace = framesOf s := by
  rw [framesIn, LineScript.notes_exec h, framesOf]

/-- Frames sent in a row, none of them marked as the last. -/
def sendFrames (bytes : List UInt8) : PinScript :=
  bytes.flatMap fun data => cbmSerialWriteFrame data 0

@[simp]
theorem framesOf_sendFrames (bytes : List UInt8) : framesOf (sendFrames bytes) = bytes := by
  induction bytes with
  | nil => rfl
  | cons data bytes ih =>
      simp only [sendFrames, List.flatMap_cons, framesOf_append,
        framesOf_cbmSerialWriteFrame] at ih ⊢
      rw [ih]
      rfl

theorem sendFrames_append (first later : List UInt8) :
    sendFrames (first ++ later) = sendFrames first ++ sendFrames later :=
  List.flatMap_append

end DotMatrixPrinter
