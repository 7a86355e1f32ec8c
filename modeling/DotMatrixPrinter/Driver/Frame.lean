/-
# The wires of a frame

The levels a script leaves on the output pins, and the bits of a frame one by one.
The driver takes a byte apart with shifts and masks and inverts each bit for the
inverting buffer behind the pin; here each of its eight calls is shown to drive
the pin with the complement of one bit of the byte, in ascending order.
-/

import DotMatrixPrinter.Driver.CBM
import DotMatrixPrinter.Math.BitOrder

namespace DotMatrixPrinter

open Math.BitOrder

/-- The levels last written to the output pins. -/
@[ext]
structure Levels where
  attn : Bool
  reset : Bool
  clk : Bool
  dataOut : Bool
  deriving DecidableEq, Repr

namespace Levels

/-- Record one write. The data-in pin is an input and has no level of its own. -/
def set (l : Levels) : Pin → Bool → Levels
  | .attn, level => { l with attn := level }
  | .reset, level => { l with reset := level }
  | .clk, level => { l with clk := level }
  | .dataOut, level => { l with dataOut := level }
  | .dataIn, _ => l

/-- Attention and reset inactive, the clock high, the data line released. -/
def idle : Levels := ⟨false, false, true, false⟩

end Levels

/-! ## The bits of a byte -/

/-- The low bit of a shifted byte is the bit of that number. -/
theorem shiftRight_and_one (data : UInt8) {i : ℕ} (hi : i < 8) :
    (data >>> UInt8.ofNat i) &&& 0x01 = if data.toNat.testBit i then 1 else 0 := by
  apply UInt8.toNat.inj
  have hshift : (UInt8.ofNat i).toNat % 8 = i := by
    rw [UInt8.toNat_ofNat']
    omega
  rw [UInt8.toNat_and, UInt8.toNat_shiftRight, hshift, Nat.shiftRight_eq_div_pow,
    Nat.testBit_eq_decide_div_mod_eq]
  show data.toNat / 2 ^ i &&& 1 = _
  rw [Nat.and_one_is_mod]
  rcases Nat.mod_two_eq_zero_or_one (data.toNat / 2 ^ i) with h | h <;> simp [h]

/-- A byte is assembled from its own eight bits. -/
theorem ofNat_ofBits_bitsOf (data : UInt8) :
    UInt8.ofNat (ofBits (bitsOf 8 data.toNat)) = data := by
  rw [ofBits_bitsOf, Nat.mod_eq_of_lt data.toNat_lt, UInt8.ofNat_toNat]

/-- One bit on the wires: the data line is set, then the clock goes up and down. -/
def sendBit (bit : Bool) : PinScript :=
  [.write .dataOut !bit, .pause 20, .write .clk true, .pause 20, .write .clk false, .pause 20]

/-- The first `n` bits of a byte on the wires. -/
def sendBits (data : UInt8) (n : ℕ) : PinScript :=
  (List.range n).flatMap fun i => sendBit (data.toNat.testBit i)

theorem sendBits_succ (data : UInt8) (n : ℕ) :
    sendBits data (n + 1) = sendBits data n ++ sendBit (data.toNat.testBit n) := by
  simp [sendBits, List.range_succ]

theorem cbmSerialWriteBit_eq (data : UInt8) {i : ℕ} (hi : i < 8) :
    cbmSerialWriteBit ((data >>> UInt8.ofNat i) &&& 0x01) =
      sendBit (data.toNat.testBit i) := by
  rw [shiftRight_and_one data hi]
  cases data.toNat.testBit i <;> rfl

/-- The eight calls of `cbm_serial_write_byte` send the eight bits of the byte. -/
theorem cbmSerialWriteByte_eq (data : UInt8) : cbmSerialWriteByte data = sendBits data 8 := by
  have hloop : cbmSerialWriteByte data = (List.range 8).flatMap fun i =>
      cbmSerialWriteBit ((data >>> UInt8.ofNat i) &&& 0x01) := by
    simp [cbmSerialWriteByte, List.range_succ]
  rw [hloop, sendBits, List.flatMap_def, List.flatMap_def]
  exact congrArg List.flatten (List.map_congr_left fun i hi =>
    cbmSerialWriteBit_eq data (List.mem_range.mp hi))

end DotMatrixPrinter
