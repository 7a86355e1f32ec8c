/-
# The sketch

The globals of the sketch, `setup` and `loop`. An iteration of `loop` gets the byte
the serial port holds, if it holds one, and answers with the new globals and what it
did, in order: lines on the console, stores into the message buffer, texts printed
from the buffer, and scripts on the bus. A store outside the buffer has no result,
and neither has a print that reads outside it.
-/

import DotMatrixPrinter.Driver.Calls
import DotMatrixPrinter.Math.Transducer

namespace DotMatrixPrinter

variable {T : Target}

/-- `DATA_MAX_LENGTH`. -/
def dataMaxLength : ℕ := 1000

/-- The globals of the sketch. -/
structure Sketch (T : Target) where
  cbm : CBM T
  testMode : ℤ
  data : Vector UInt8 dataMaxLength
  dataIndex : ℤ

/-- What the sketch does beside changing its globals. -/
inductive Effect
  | serialBegin (baud : ℕ)
  | serialPrint (text : String)
  | serialPrintln (text : String)
  | serialPrintlnChar (val : UInt8)
  /-- `data[index] = value`. -/
  | store (index : ℤ) (value : UInt8)
  /-- `print` or `println` of the buffer, which held `text`. -/
  | printed (text : CharPtr) (what : Printed)
  /-- A call of the driver that does not read the buffer. -/
  | bus (script : PinScript)

/-- The bytes an effect passes to `cbm_serial_write_frame`. -/
def Effect.frames : Effect → List UInt8
  | .printed _ what => framesOf what.out
  | .bus script => framesOf script
  | _ => []

/-- For testing, print menu to computer. -/
def testMenu : List Effect :=
  [.serialPrintln "Select printer test mode:",
    .serialPrintln " (1) Print self test (charset)",
    .serialPrintln " (2) Print user message",
    .serialPrint "Your selection: > "]

/-- The characters of the newline `setup` configures. -/
def newlineChars : List UInt8 := ['\r'.toUInt8, '\n'.toUInt8]

/-- The newline `setup` configures. -/
def crLf (T : Target) : ArduinoString T := .ofChars newlineChars (by decide)

namespace Sketch

/-- The globals before `setup`. -/
def new (T : Target) : Sketch T := ⟨CBM.new T, -1, Vector.replicate dataMaxLength 0, -1⟩

/-- Arduino setup function is run once when the sketch starts. -/
def setup (s : Sketch T) : Sketch T × List Effect :=
  ({ s with cbm := s.cbm.setNewline (crLf T) },
    [.serialBegin 115200,
      .serialPrintln "Initializing printer...",
      .bus (CBM.begin .Graphic 4),
      .serialPrintln "ready!"] ++ testMenu)

/-- `data[index] = value`. -/
def store (s : Sketch T) (index : ℤ) (value : UInt8) : Option (Sketch T) :=
  if h : 0 ≤ index ∧ index < dataMaxLength then
    some { s with data := s.data.set index.toNat value (by omega) }
  else none

/-- `TEST_MODE` once a byte has been read. -/
def selectTestMode (testMode : ℤ) (val : UInt8) : ℤ :=
  if testMode ≤ 0 then
    if val = '1'.toUInt8 then 1
    else if val = '2'.toUInt8 then 2
    else testMode
  else testMode

/-- If self test mode selected, do self test now. -/
def selfTest (s : Sketch T) : Option (Sketch T × List Effect) := do
  let script ← s.cbm.printSelfTest
  return ({ s with testMode := 0 },
    [.serialPrintln "Now printing...", .bus script, .serialPrintln "Done."] ++ testMenu)

/-- If user message test mode selected, ask it now. -/
def askMessage (s : Sketch T) : Sketch T × List Effect :=
  ({ s with dataIndex := s.dataIndex + 1 },
    [.serialPrintln "Type text to be printed (# ends):"])

/-- The branch of a `#`. -/
def endMessage (s : Sketch T) : Option (Sketch T × List Effect) := do
  let s' ← s.store s.dataIndex 0
  let what ← s'.cbm.println s'.data.toList (-1)
  return ({ s' with dataIndex := -1, testMode := 0 },
    [.store s.dataIndex 0, .printed s'.data.toList what, .serialPrintln "Done."] ++ testMenu)

/-- The branch of any other byte, with the flush of a full buffer. -/
def appendChar (s : Sketch T) (val : UInt8) : Option (Sketch T × List Effect) := do
  let stored ← s.store s.dataIndex val
  let s' := { stored with dataIndex := stored.dataIndex + 1 }
  if s'.dataIndex + 1 ≥ (dataMaxLength : ℤ) then
    let s'' ← s'.store s'.dataIndex 0
    let what ← print T s''.data.toList dataMaxLength
    return ({ s'' with dataIndex := 0 },
      [.store s.dataIndex val, .store s'.dataIndex 0, .printed s''.data.toList what])
  else return (s', [.store s.dataIndex val])

/-- What `loop` does with the byte once the mode is selected. -/
def handle (s : Sketch T) (val : UInt8) : Option (Sketch T × List Effect) :=
  if s.testMode = 1 then s.selfTest
  else if s.testMode = 2 then
    if s.dataIndex = -1 then some s.askMessage
    else if val = '#'.toUInt8 then s.endMessage
    else if s.dataIndex < dataMaxLength then s.appendChar val
    else some (s, [])
  else some (s, [])

/-- Arduino loop function is run over and over again, forever. -/
def loop (s : Sketch T) : Option UInt8 → Option (Sketch T × List Effect)
  | none => some (s, [])
  | some val => do
      let (s', effects) ←
        { s with testMode := selectTestMode s.testMode val }.handle val
      return (s', .serialPrintlnChar val :: effects)

/-- The globals `loop` is first run on. -/
def start (T : Target) : Sketch T := (new T).setup.1

end Sketch

/-- The sketch as a machine: an input for every iteration of `loop`. -/
def session (T : Target) : Math.FallibleTransducer (Sketch T) (Option UInt8) Effect :=
  ⟨Sketch.loop⟩

end DotMatrixPrinter
