/-
# Printing a text

`print` has two loops and an overload. Each sends the characters of the text one
frame a character, converted by `cbm_switch_case`, up to the first NUL or to the
length it was given. The loops agree wherever both are asked for the whole text,
and neither reads behind the terminator; a length that becomes negative on the way
from `String` to `int` selects the other loop and changes nothing.
-/

import DotMatrixPrinter.Driver.CBM

namespace DotMatrixPrinter

open Math.TerminatedScan

/-- The byte a character is sent as: the result of `cbm_switch_case` converted to
`unsigned char`. -/
def convert (T : Target) (c : UInt8) : UInt8 := UInt8.ofInt (cbmSwitchCase T c)

/-- The frames of `print(text)`, if it stays inside the text. -/
def printedFrames (T : Target) (text : CharPtr) : Option (List UInt8) :=
  (print T text (-1)).map fun printed => framesOf printed.out

variable {T : Target}

/-! ## The loops -/

theorem flatMap_printChar (chars : List UInt8) :
    chars.flatMap (printChar T) = sendFrames (chars.map (convert T)) := by
  rw [sendFrames, List.flatMap_map]
  rfl

/-- The pointer walk sends every character before the first NUL. -/
theorem print_of_neg {text : CharPtr} {k : ℕ} (h : FirstAt 0 text k) {length : ℤ}
    (hlength : length < 0) :
    print T text length =
      some ⟨List.range (k + 1), sendFrames ((text.take k).map (convert T))⟩ := by
  rw [print, if_pos hlength, scanWhile_eq h, flatMap_printChar, List.range_eq_range']

/-- The counted loop sends the characters below its bound and before the first NUL. -/
theorem print_of_nonneg {text : CharPtr} {k : ℕ} (h : FirstAt 0 text k) {length : ℤ}
    (hlength : 0 ≤ length) :
    print T text length =
      some ⟨List.range (min length.toNat (k + 1)),
        sendFrames ((text.take (min length.toNat k)).map (convert T))⟩ := by
  rw [print, if_neg (by omega), scanFor_eq h, flatMap_printChar, List.range_eq_range']
  simp

/-- The frames of `print` are its characters, converted one by one. -/
theorem printedFrames_eq {text : List UInt8} (h : (0 : UInt8) ∉ text) :
    printedFrames T (text ++ [0]) = some (text.map (convert T)) := by
  simp [printedFrames, print_of_neg (firstAt_append_cons h [])]

/-- A text that holds a NUL is printed without reading behind its array. -/
theorem exists_print (text : CharPtr) (h : (0 : UInt8) ∈ text) (length : ℤ) :
    ∃ printed, print T text length = some printed := by
  rcases exists_firstAt h with ⟨k, hk⟩
  rcases lt_or_ge length 0 with hneg | hnonneg
  · exact ⟨_, print_of_neg hk hneg⟩
  · exact ⟨_, print_of_nonneg hk hnonneg⟩

/-- A terminator put behind some characters ends the text there or earlier. -/
theorem print_append_nul {typed rest : List UInt8} {length : ℤ}
    (hlength : length < 0 ∨ typed.length < length) {printed : Printed}
    (h : print T (typed ++ 0 :: rest) length = some printed) :
    ∃ k, FirstAt 0 (typed ++ 0 :: rest) k ∧ k ≤ typed.length ∧
      printed.loads = List.range (k + 1) ∧
      printed.out = sendFrames ((typed.takeWhile (· ≠ 0)).map (convert T)) := by
  rcases exists_firstAt_append_cons (0 : UInt8) typed rest with ⟨k, hk, hle, htake⟩
  refine ⟨k, hk, hle, ?_⟩
  rcases hlength with hneg | hlt
  · rw [print_of_neg hk hneg, htake, Option.some.injEq] at h
    simp [← h]
  · have hloads : min length.toNat (k + 1) = k + 1 := by omega
    have hsent : min length.toNat k = k := by omega
    rw [print_of_nonneg hk (by omega), hloads, hsent, htake, Option.some.injEq] at h
    simp [← h]

/-- A length that reaches the first NUL makes no difference. -/
theorem print_out_of_le {text : CharPtr} {k : ℕ} (h : FirstAt 0 text k) {length : ℤ}
    (hlength : length < 0 ∨ k ≤ length) :
    (print T text length).map Scan.out =
      some (sendFrames ((text.take k).map (convert T))) := by
  rcases lt_or_ge length 0 with hneg | hnonneg
  · simp [print_of_neg h hneg]
  · have hmin : min length.toNat k = k := by omega
    simp [print_of_nonneg h hnonneg, hmin]

theorem ArduinoString.exists_firstAt (s : ArduinoString T) :
    ∃ k, FirstAt 0 s.cStr k ∧ k ≤ s.length := by
  have hnul : (0 : UInt8) ∈ s.cStr := by simp [cStr]
  rcases Math.TerminatedScan.exists_firstAt hnul with ⟨k, hk⟩
  have hlt := hk.lt_length
  simp only [cStr, List.length_append, List.length_singleton] at hlt
  exact ⟨k, hk, by unfold ArduinoString.length; omega⟩

/-- The overload for `String` sends the characters before the first NUL, whether or
not the length still fits once it is converted to `int`. -/
theorem printString_out (s : ArduinoString T) :
    (printString s).map Scan.out =
      some (sendFrames ((s.cStr.takeWhile (· ≠ 0)).map (convert T))) := by
  rcases s.exists_firstAt with ⟨k, hk, hle⟩
  rw [← hk.take_eq_takeWhile, printString]
  apply print_out_of_le hk
  rcases T.unsignedToInt_eq_or_neg s.fits with heq | hneg
  · exact Or.inr (by
      rw [ArduinoString.length] at hle ⊢
      omega)
  · exact Or.inl hneg

theorem exists_printString (s : ArduinoString T) : ∃ printed, printString s = some printed :=
  exists_print _ (by simp [ArduinoString.cStr]) _

/-- Whatever a call of `print` is given, its pin operations are frames sent in a row. -/
theorem exists_sendFrames_of_print {text : CharPtr} {length : ℤ} {printed : Printed}
    (h : print T text length = some printed) : ∃ bytes, printed.out = sendFrames bytes := by
  have htake : ∃ k, printed.out = (text.take k).flatMap (printChar T) := by
    unfold print at h
    split at h
    · exact exists_take_of_scanWhile h
    · exact exists_take_of_scanFor h
  rcases htake with ⟨k, hk⟩
  exact ⟨_, hk.trans (flatMap_printChar _)⟩

/-- What it takes for the ways of printing a text whose first NUL is at `k` to agree. -/
structure PrintWaysAgree (T : Target) (text : CharPtr) (k : ℕ) : Prop where
  /-- A negative length sends all `k` characters and reads up to the NUL. -/
  walk : ∀ length : ℤ, length < 0 → ∃ printed, print T text length = some printed ∧
    printed.out = sendFrames ((text.take k).map (convert T)) ∧ ∀ i ∈ printed.loads, i ≤ k
  /-- Any other length bounds both what is sent and what is read. -/
  count : ∀ length : ℤ, 0 ≤ length → ∃ printed, print T text length = some printed ∧
    printed.out = sendFrames ((text.take (min length.toNat k)).map (convert T)) ∧
    (∀ i ∈ printed.loads, (i : ℤ) ≤ min (length - 1) k) ∧ (length = 0 → printed.loads = [])
  whole : ∀ length : ℤ, length < 0 ∨ k ≤ length →
    (print T text length).map Scan.out = (print T text (-1)).map Scan.out
  /-- A `String` with the same characters before its first NUL, whatever it holds
  behind it and whatever its length becomes as an `int`. -/
  string : ∀ s : ArduinoString T, s.cStr.takeWhile (· ≠ 0) = text.take k →
    (printString s).map Scan.out = (print T text (-1)).map Scan.out
  copied : ∀ hfits, (printString (ArduinoString.ofCStr (T := T) text hfits)).map Scan.out =
    (print T text (-1)).map Scan.out
  split : ∀ m ≤ k, ∃ first later, print T text m = some first ∧
    print T (text.drop m) (-1) = some later ∧
    (print T text (-1)).map Scan.out = some (first.out ++ later.out)

/-- The three ways of printing agree on every text. -/
theorem print_ways_agree (T : Target) (text : CharPtr) (k : ℕ) (h : FirstAt 0 text k) :
    PrintWaysAgree T text k := by
  have hwhole : (print T text (-1)).map Scan.out =
      some (sendFrames ((text.take k).map (convert T))) :=
    print_out_of_le h (Or.inl (by decide))
  have hstring (s : ArduinoString T) (hs : s.cStr.takeWhile (· ≠ 0) = text.take k) :
      (printString s).map Scan.out = (print T text (-1)).map Scan.out := by
    rw [printString_out, hs, hwhole]
  refine ⟨?_, ?_, ?_, hstring, ?_, ?_⟩
  · intro length hlength
    refine ⟨_, print_of_neg h hlength, rfl, fun i hi => ?_⟩
    have := List.mem_range.mp hi
    omega
  · intro length hlength
    refine ⟨_, print_of_nonneg h hlength, rfl, fun i hi => ?_, fun hzero => by simp [hzero]⟩
    have := List.mem_range.mp hi
    omega
  · intro length hlength
    rw [hwhole, print_out_of_le h hlength]
  · intro hfits
    apply hstring
    have hcopy := (firstAt_append_cons h.not_mem_take []).take_eq_takeWhile
    rw [List.take_left] at hcopy
    show (text.takeWhile (· ≠ 0) ++ [0]).takeWhile (· ≠ 0) = text.take k
    rw [← h.take_eq_takeWhile]
    exact hcopy.symm
  · intro m hm
    refine ⟨_, _, print_of_nonneg h (by omega), print_of_neg (h.drop hm) (by decide), ?_⟩
    have hmin : min ((m : ℤ).toNat) k = m := by omega
    have hsplit : text.take k = text.take m ++ (text.drop m).take (k - m) := by
      rw [← List.take_add, Nat.add_sub_cancel' hm]
    rw [hwhole, hmin, ← sendFrames_append, ← List.map_append, ← hsplit]

/-- A text with a second NUL behind its first. -/
theorem print_ways_agree_hi : PrintWaysAgree .avr ['h'.toUInt8, 'i'.toUInt8, 0, 1, 0] 2 :=
  print_ways_agree .avr ['h'.toUInt8, 'i'.toUInt8, 0, 1, 0] 2
    (firstAt_append_cons (by decide : (0 : UInt8) ∉ ['h'.toUInt8, 'i'.toUInt8]) [1, 0])

end DotMatrixPrinter
