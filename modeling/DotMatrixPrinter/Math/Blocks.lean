/-
# Cutting a list into blocks

A list that arrives item by item is cut into blocks of one length: an item that fills
the open block closes it. The closed blocks and the open one make up the list, each
closed block has the full length, and the open one is shorter.
-/

import Mathlib.Data.Nat.Notation
import Mathlib.Data.List.Basic

namespace DotMatrixPrinter.Math.Blocks

variable {α : Type*} {n : ℕ}

/-- Add items to the open block, closing it whenever it has `n` items. The closed blocks
and the open one. -/
def blocks (n : ℕ) : List α → List α → List (List α) × List α
  | opened, [] => ([], opened)
  | opened, x :: xs =>
      if (opened ++ [x]).length = n then
        ((opened ++ [x]) :: (blocks n [] xs).1, (blocks n [] xs).2)
      else blocks n (opened ++ [x]) xs

@[simp]
theorem blocks_nil (opened : List α) : blocks n opened [] = ([], opened) := rfl

theorem blocks_cons_of_eq {opened : List α} {x : α} (h : (opened ++ [x]).length = n)
    (xs : List α) :
    blocks n opened (x :: xs) =
      ((opened ++ [x]) :: (blocks n [] xs).1, (blocks n [] xs).2) :=
  if_pos h

theorem blocks_cons_of_ne {opened : List α} {x : α} (h : (opened ++ [x]).length ≠ n)
    (xs : List α) : blocks n opened (x :: xs) = blocks n (opened ++ [x]) xs :=
  if_neg h

/-- The blocks make up the list. -/
theorem flatten_blocks (opened xs : List α) :
    (blocks n opened xs).1.flatten ++ (blocks n opened xs).2 = opened ++ xs := by
  induction xs generalizing opened with
  | nil => simp
  | cons x xs ih =>
      by_cases h : (opened ++ [x]).length = n
      · rw [blocks_cons_of_eq h, List.flatten_cons, List.append_assoc, ih]
        simp
      · rw [blocks_cons_of_ne h, ih]
        simp

theorem length_of_mem_blocks {opened xs block : List α} (h : block ∈ (blocks n opened xs).1) :
    block.length = n := by
  induction xs generalizing opened with
  | nil => simp at h
  | cons x xs ih =>
      by_cases hfull : (opened ++ [x]).length = n
      · rw [blocks_cons_of_eq hfull] at h
        obtain rfl | h := List.mem_cons.mp h
        · exact hfull
        · exact ih h
      · rw [blocks_cons_of_ne hfull] at h
        exact ih h

theorem length_open_lt {opened : List α} (h : opened.length < n) (xs : List α) :
    (blocks n opened xs).2.length < n := by
  induction xs generalizing opened with
  | nil => exact h
  | cons x xs ih =>
      by_cases hfull : (opened ++ [x]).length = n
      · rw [blocks_cons_of_eq hfull]
        exact ih (Nat.zero_lt_of_lt h)
      · rw [blocks_cons_of_ne hfull]
        have hlength : (opened ++ [x]).length = opened.length + 1 := by simp
        exact ih (by omega)

end DotMatrixPrinter.Math.Blocks
