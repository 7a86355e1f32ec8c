/-
# Least-significant-bit-first words

A serial line carries a word one bit at a time. This module fixes the list of
bits a word is sent as, least significant bit first, and the number a receiver
assembles from such a list. The two are inverse up to the width of the word, and
the list is built one bit at a time at its end, which is how a receiver sees it.
-/

import Mathlib.Algebra.Ring.Nat
import Mathlib.Data.List.Basic

namespace DotMatrixPrinter.Math.BitOrder

/-- The lowest `width` bits of a number, least significant first. -/
def bitsOf (width n : ℕ) : List Bool := (List.range width).map n.testBit

/-- The number whose bits, least significant first, are the list. -/
def ofBits : List Bool → ℕ
  | [] => 0
  | bit :: rest => bit.toNat + 2 * ofBits rest

@[simp]
theorem bitsOf_zero (n : ℕ) : bitsOf 0 n = [] := rfl

@[simp]
theorem length_bitsOf (width n : ℕ) : (bitsOf width n).length = width := by
  simp [bitsOf]

/-- A receiver that already has `width` bits takes bit number `width` next. -/
theorem bitsOf_succ (width n : ℕ) :
    bitsOf (width + 1) n = bitsOf width n ++ [n.testBit width] := by
  simp [bitsOf, List.range_succ]

/-- The first bit is the parity, the others are the bits of the half. -/
theorem bitsOf_succ_eq_cons (width n : ℕ) :
    bitsOf (width + 1) n = n.testBit 0 :: bitsOf width (n / 2) := by
  simp only [bitsOf, List.range_succ_eq_map, List.map_cons, List.map_map]
  refine congrArg (n.testBit 0 :: ·) (List.map_congr_left fun i _ => ?_)
  simp [Nat.testBit_succ]

/-- The bits taken so far are an initial part of the bits of the whole word. -/
theorem bitsOf_isPrefix {taken width : ℕ} (h : taken ≤ width) (n : ℕ) :
    bitsOf taken n <+: bitsOf width n := by
  obtain ⟨missing, rfl⟩ := Nat.exists_eq_add_of_le h
  clear h
  induction missing with
  | zero => exact List.prefix_rfl
  | succ missing ih =>
      rw [← Nat.add_assoc, bitsOf_succ]
      exact ih.trans (List.prefix_append _ _)

/-- Assembling the bits of a number recovers it, up to the width that was sent. -/
theorem ofBits_bitsOf (width n : ℕ) : ofBits (bitsOf width n) = n % 2 ^ width := by
  induction width generalizing n with
  | zero => simp [ofBits, Nat.mod_one]
  | succ width ih =>
      rw [bitsOf_succ_eq_cons, ofBits, ih, Nat.testBit_zero, pow_succ', Nat.mod_mul]
      rcases Nat.mod_two_eq_zero_or_one n with h | h <;> simp [h]

end DotMatrixPrinter.Math.BitOrder
