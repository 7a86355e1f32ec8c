/-
# Sessions come to an end

The two poll loops of a frame have no bound, so a session ends only if the printer
answers. It does answer when it gets its turns: from every point of every interleaving
the session can still finish, and the printer alone cannot keep itself busy. An
interleaving in which the session never ends is then one that never lets the printer
move although it could, and one that cannot go on has delivered every byte.
-/

import DotMatrixPrinter.Driver.Agreement
import DotMatrixPrinter.LineScript.Fairness

namespace DotMatrixPrinter

open LineScript

/-- How the interleavings of a session with the printer end. -/
structure SessionEnds (mode : PrintMode) (printerAddr : ℤ) (bytes : List UInt8) : Prop where
  /-- None of them goes on for ever without starving the printer. -/
  fair : ∀ ρ : Endless bus (sessionScript mode printerAddr bytes) Link.start, ¬ ρ.Fair
  /-- One that cannot go on has run the whole script, and the printer has received
  every byte. -/
  delivered : ∀ trace s x,
    Run bus (sessionScript mode printerAddr bytes) Link.start trace s x →
    (∀ e s' y, ¬ Step bus s x e s' y) →
    s = [] ∧ x.received = sessionBytes mode printerAddr bytes

/-- What has an outline terminates: the printer cannot keep itself busy for ever. -/
theorem terminates_of_outline {Q R : Link → Prop} {s : PinScript} {x : Link}
    (h : Outline bus Obligation Q s R) (hx : Q x) : Terminates bus s x := by
  apply terminates_of_canFinish Link.pending fun x y hstep => pending_lt_of_printerStep hstep
  exact fun trace s' y hrun => (h x hx trace s' y hrun).canFinish

theorem terminates_session (mode : PrintMode) (printerAddr : ℤ) (bytes : List UInt8) :
    Terminates bus (sessionScript mode printerAddr bytes) Link.start :=
  terminates_of_outline (outline_session mode printerAddr bytes) rfl

/-- Whatever the bytes, a session ends in every interleaving that is fair to the
printer, and it ends with every byte delivered. -/
theorem handshake_terminates (mode : PrintMode) (printerAddr : ℤ) (bytes : List UInt8) :
    SessionEnds mode printerAddr bytes where
  fair := (terminates_session mode printerAddr bytes).endless
  delivered trace s x hrun hstuck := by
    obtain rfl : s = [] := (terminates_session mode printerAddr bytes).stuck trace s x hrun hstuck
    exact ⟨rfl, received_of_session hrun⟩

end DotMatrixPrinter
