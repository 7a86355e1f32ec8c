import DotMatrixPrinter.Math.BitOrder
import DotMatrixPrinter.Math.Blocks
import DotMatrixPrinter.Math.TerminatedScan
import DotMatrixPrinter.Math.Transducer
import DotMatrixPrinter.LineScript.Basic
import DotMatrixPrinter.LineScript.Observer
import DotMatrixPrinter.LineScript.Duration
import DotMatrixPrinter.LineScript.Interleaving
import DotMatrixPrinter.LineScript.Fairness
import DotMatrixPrinter.LineScript.Prompt
import DotMatrixPrinter.LineScript.Stopwatch
import DotMatrixPrinter.LineScript.Program
import DotMatrixPrinter.Driver.Target
import DotMatrixPrinter.Driver.CBM
import DotMatrixPrinter.Driver.Text
import DotMatrixPrinter.Driver.Conversion
import DotMatrixPrinter.Driver.Calls
import DotMatrixPrinter.Driver.Frame
import DotMatrixPrinter.Driver.BusState
import DotMatrixPrinter.Driver.Listener
import DotMatrixPrinter.Driver.Duration
import DotMatrixPrinter.Driver.WireTiming
import DotMatrixPrinter.Driver.Handshake
import DotMatrixPrinter.Driver.Agreement
import DotMatrixPrinter.Driver.Completion
import DotMatrixPrinter.Driver.Reset
import DotMatrixPrinter.Driver.CallAgreement
import DotMatrixPrinter.Driver.LateAnswer
import DotMatrixPrinter.Sketch.Loop
import DotMatrixPrinter.Sketch.Dialog
import DotMatrixPrinter.Sketch.Buffer
import DotMatrixPrinter.Sketch.Session
import DotMatrixPrinter.Sketch.Conversation
import DotMatrixPrinter.Sketch.LineEnding
import DotMatrixPrinter.Sketch.Transcript
import DotMatrixPrinter.Sketch.Wire
import DotMatrixPrinter.Sketch.Alphabet
import DotMatrixPrinter.Sketch.System
import DotMatrixPrinter.Sketch.Timing
