/-
# The C++ targets the driver is built for

The same source is compiled for an AVR board, where plain `char` is signed and
`int` has 16 bits, and for an ESP32, where `char` is unsigned and `int` has 32
bits. Both choices are parameters of the model. A `char` is its eight bits; only
its value in a comparison or a computation depends on the target.
-/

import Mathlib.Data.Nat.Notation
import Mathlib.Data.Int.Notation
import Mathlib.Data.List.Basic
import Mathlib.Tactic.NormNum

namespace DotMatrixPrinter

/-- What the compiler decides about `char` and `int`. -/
structure Target where
  charSigned : Bool
  intBits : ℕ
  /-- No C++ implementation has a shorter `int`. -/
  intBits_ge : 16 ≤ intBits

namespace Target

/-- Arduino Diecimila. -/
def avr : Target := ⟨true, 16, le_rfl⟩

/-- The board of the web interface. -/
def esp32 : Target := ⟨false, 32, by decide⟩

variable (T : Target)

/-- The value of a `char` once it is promoted to `int`. -/
def charToInt (c : UInt8) : ℤ :=
  if T.charSigned then c.toBitVec.toInt else c.toNat

/-- The conversion of an `unsigned int` to `int`. -/
def unsignedToInt (n : ℕ) : ℤ := (n : ℤ).bmod (2 ^ T.intBits)

theorem charToInt_eq (c : UInt8) :
    T.charToInt c =
      if T.charSigned ∧ 128 ≤ c.toNat then (c.toNat : ℤ) - 256 else c.toNat := by
  have hc := c.toNat_lt
  unfold charToInt
  cases T.charSigned
  · simp
  · simp only [if_true, BitVec.toInt_eq_toNat_cond, UInt8.toNat_toBitVec, true_and]
    split <;> split <;> omega

/-- Seven-bit characters have the same value on every target. -/
theorem charToInt_of_lt {c : UInt8} (h : c.toNat < 128) : T.charToInt c = c.toNat := by
  rw [charToInt_eq, if_neg (by omega)]

/-- A length that does not fit becomes negative, and no other value is possible. -/
theorem unsignedToInt_eq_or_neg {n : ℕ} (h : n < 2 ^ T.intBits) :
    T.unsignedToInt n = n ∨ T.unsignedToInt n < 0 := by
  have hmod : (n : ℤ) % ((2 ^ T.intBits : ℕ) : ℤ) = n :=
    Int.emod_eq_of_lt (by omega) (by exact_mod_cast h)
  unfold unsignedToInt
  rw [Int.bmod_def, hmod]
  split
  · exact Or.inl rfl
  · exact Or.inr (by omega)

end Target

/-- A `const char*`: the cells from the pointer to the end of the array it points
into. Moving the pointer drops cells; reading past them is undefined. -/
abbrev CharPtr := List UInt8

/-- A string literal, with the NUL the compiler puts behind it. -/
def literal (text : String) : CharPtr := text.toList.map Char.toUInt8 ++ [0]

/-- An Arduino `String`. It may hold NUL characters; its length is an
`unsigned int`. -/
structure ArduinoString (T : Target) where
  chars : List UInt8
  fits : chars.length < 2 ^ T.intBits

namespace ArduinoString

variable {T : Target}

/-- The number of characters held. -/
def length (s : ArduinoString T) : ℕ := s.chars.length

/-- The characters with a NUL behind them. -/
def cStr (s : ArduinoString T) : CharPtr := s.chars ++ [0]

/-- A string short enough for every target. -/
def ofChars (chars : List UInt8) (h : chars.length < 2 ^ 16) : ArduinoString T :=
  ⟨chars, lt_of_lt_of_le h (Nat.pow_le_pow_right (by decide) T.intBits_ge)⟩

/-- `String(const char*)` copies the characters before the first NUL. -/
def ofCStr (text : CharPtr) (h : (text.takeWhile (· ≠ 0)).length < 2 ^ T.intBits) :
    ArduinoString T :=
  ⟨text.takeWhile (· ≠ 0), h⟩

end ArduinoString

end DotMatrixPrinter
