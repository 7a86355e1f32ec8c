/-
# What a character is sent as

`cbm_switch_case` tests two ranges and sends everything else as 113, the code its
comment reserves for characters above `'z'`. The characters from the space to the
backquote are missed by both tests, so they too become 113, and a text survives
up to letter case only when it has none of them. The same tests compare a `char`,
so from 128 on their outcome depends on whether the compiler made it signed.
-/

import DotMatrixPrinter.Driver.Text

namespace DotMatrixPrinter

open Math.TerminatedScan

variable {T : Target}

/-! ## The conversion, case by case -/

theorem ofInt_toNat (c : UInt8) : UInt8.ofInt (c.toNat : ℤ) = c := by
  have hc := c.toNat_lt
  apply UInt8.toNat.inj
  simp only [UInt8.ofInt, UInt8.toNat_ofNat']
  omega

theorem ofInt_toNat_sub (c : UInt8) : UInt8.ofInt ((c.toNat : ℤ) - 32) = c - 32 := by
  rw [Int.sub_eq_add_neg, UInt8.ofInt_add, ofInt_toNat, UInt8.sub_eq_add_neg]
  rfl

theorem convert_control {c : UInt8} (h : c.toNat < 32) : convert T c = 32 := by
  rw [convert, cbmSwitchCase, T.charToInt_of_lt (by omega), if_pos (by omega)]
  rfl

theorem convert_lower {c : UInt8} (h : 97 ≤ c.toNat) (h' : c.toNat ≤ 122) :
    convert T c = c - 32 := by
  rw [convert, cbmSwitchCase, T.charToInt_of_lt (by omega), if_neg (by omega),
    if_pos (by simp; omega), ofInt_toNat_sub]

/-- The last `return` is reached by every seven-bit character the range tests miss. -/
theorem cbmSwitchCase_other {c : UInt8} (h : 32 ≤ c.toNat)
    (h' : c.toNat < 97 ∨ 122 < c.toNat) (hseven : c.toNat < 128) : cbmSwitchCase T c = 113 := by
  rw [cbmSwitchCase, T.charToInt_of_lt hseven, if_neg (by omega), if_neg (by simp; omega)]

theorem convert_other {c : UInt8} (h : 32 ≤ c.toNat) (h' : c.toNat < 97 ∨ 122 < c.toNat)
    (hseven : c.toNat < 128) : convert T c = 113 := by
  rw [convert, cbmSwitchCase_other h h' hseven]
  rfl

/-- A signed `char` from 128 on is negative, so it is taken for a control character. -/
theorem cbmSwitchCase_high_signed {c : UInt8} (hT : T.charSigned = true) (h : 128 ≤ c.toNat) :
    cbmSwitchCase T c = 32 := by
  have hc := c.toNat_lt
  have hvalue : T.charToInt c = (c.toNat : ℤ) - 256 := by
    rw [T.charToInt_eq, if_pos ⟨hT, h⟩]
  rw [cbmSwitchCase, hvalue, if_pos (by omega)]

theorem cbmSwitchCase_high_unsigned {c : UInt8} (hT : T.charSigned = false)
    (h : 128 ≤ c.toNat) : cbmSwitchCase T c = 113 := by
  have hvalue : T.charToInt c = c.toNat := by
    rw [T.charToInt_eq, if_neg (by simp [hT])]
  rw [cbmSwitchCase, hvalue, if_neg (by omega), if_neg (by simp; omega)]

/-! ## The law the conversion is meant to follow -/

/-- Spaces for control characters, upper case for lower case, 113 above `'z'`, and
every other character as it is. -/
def lawfulCode (c : UInt8) : UInt8 :=
  if c.toNat < 32 then 32
  else if 'a'.toNat ≤ c.toNat ∧ c.toNat ≤ 'z'.toNat then c - 32
  else if 'z'.toNat < c.toNat then 113
  else c

/-- A letter without its case. -/
def toUpper (c : UInt8) : UInt8 :=
  if 'a'.toNat ≤ c.toNat ∧ c.toNat ≤ 'z'.toNat then c - 32 else c

/-- `print` sends every character of the text as the law has it. -/
def ConversionLaw (T : Target) (text : List UInt8) : Prop :=
  printedFrames T (text ++ [0]) = some (text.map lawfulCode)

/-- Two texts over the codes from the space to `'z'` are sent alike exactly when they
differ in letter case only. -/
def CaseLaw (T : Target) (first second : List UInt8) : Prop :=
  (∀ c ∈ first ++ second, 32 ≤ c.toNat ∧ c.toNat ≤ 'z'.toNat) →
    (printedFrames T (first ++ [0]) = printedFrames T (second ++ [0]) ↔
      first.map toUpper = second.map toUpper)

theorem convert_eq_lawfulCode_iff {c : UInt8} (h : c.toNat < 128) :
    convert T c = lawfulCode c ↔ c.toNat < 32 ∨ 97 ≤ c.toNat := by
  have ha : 'a'.toNat = 97 := rfl
  have hz : 'z'.toNat = 122 := rfl
  unfold lawfulCode
  rw [ha, hz]
  by_cases hcontrol : c.toNat < 32
  · simp [hcontrol, convert_control]
  · by_cases hlower : 97 ≤ c.toNat ∧ c.toNat ≤ 122
    · rw [convert_lower hlower.1 hlower.2, if_neg hcontrol, if_pos hlower]
      simp [hlower.1]
    · rw [convert_other (by omega) (by omega) h]
      by_cases habove : 122 < c.toNat
      · simp [hcontrol, hlower, habove]
        omega
      · have hne : (113 : UInt8) ≠ c := fun heq => by
          have : c.toNat = 113 := by rw [← heq]; rfl
          omega
        simp [hcontrol, hlower, habove, hne]
        omega

theorem conversionLaw_iff {text : List UInt8} (h : ∀ c ∈ text, c ≠ 0 ∧ c.toNat < 128) :
    ConversionLaw T text ↔ ∀ c ∈ text, c.toNat < 32 ∨ 97 ≤ c.toNat := by
  rw [ConversionLaw, printedFrames_eq fun hzero => (h 0 hzero).1 rfl, Option.some.injEq,
    List.map_inj_left]
  exact forall₂_congr fun c hc => convert_eq_lawfulCode_iff (h c hc).2

/-- On seven-bit texts the law holds, for each text and for the two together, exactly
when neither has a character from the space to the backquote. -/
theorem conversion_lawful_iff (T : Target) (first second : List UInt8)
    (h : ∀ c ∈ first ++ second, c ≠ 0 ∧ c.toNat < 128) :
    (ConversionLaw T first ∧ ConversionLaw T second ∧ CaseLaw T first second) ↔
      ∀ c ∈ first ++ second, c.toNat < 32 ∨ 97 ≤ c.toNat := by
  have hfirst (c : UInt8) (hc : c ∈ first) := h c (List.mem_append_left _ hc)
  have hsecond (c : UInt8) (hc : c ∈ second) := h c (List.mem_append_right _ hc)
  constructor
  · rintro ⟨hlaw, hlaw', -⟩ c hc
    rcases List.mem_append.mp hc with hc | hc
    · exact (conversionLaw_iff hfirst).mp hlaw c hc
    · exact (conversionLaw_iff hsecond).mp hlaw' c hc
  · intro hgap
    refine ⟨(conversionLaw_iff hfirst).mpr fun c hc => hgap c (List.mem_append_left _ hc),
      (conversionLaw_iff hsecond).mpr fun c hc => hgap c (List.mem_append_right _ hc), ?_⟩
    intro hrange
    have hz : 'z'.toNat = 122 := rfl
    have hupper (c : UInt8) (hc : c ∈ first ++ second) : convert T c = toUpper c := by
      have hlow : 97 ≤ c.toNat := (hgap c hc).resolve_left (by have := hrange c hc; omega)
      have hhigh : c.toNat ≤ 122 := (hrange c hc).2
      rw [convert_lower hlow hhigh, toUpper, if_pos ⟨hlow, hhigh⟩]
    rw [printedFrames_eq fun hzero => (hfirst 0 hzero).1 rfl,
      printedFrames_eq fun hzero => (hsecond 0 hzero).1 rfl, Option.some.injEq,
      List.map_congr_left fun c hc => hupper c (List.mem_append_left _ hc),
      List.map_congr_left fun c hc => hupper c (List.mem_append_right _ hc)]

/-- The text `A` is sent as 113, the text `B` too. -/
theorem conversion_not_lawful :
    ¬ ConversionLaw .avr ['A'.toUInt8] ∧ ¬ CaseLaw .avr ['A'.toUInt8] ['B'.toUInt8] := by
  have hframes (c : UInt8) (hzero : 0 ≠ c) (h : 32 ≤ c.toNat) (h' : c.toNat < 97) :
      printedFrames .avr ([c] ++ [0]) = some [113] := by
    rw [printedFrames_eq (by simpa using hzero), List.map_singleton,
      convert_other h (Or.inl h') (by omega)]
  refine ⟨fun hlaw => ?_, fun hlaw => ?_⟩
  · rw [ConversionLaw, hframes _ (by decide) (by decide) (by decide)] at hlaw
    exact absurd hlaw (by decide)
  · have hcase := hlaw (by simp; decide)
    rw [hframes _ (by decide) (by decide) (by decide),
      hframes _ (by decide) (by decide) (by decide)] at hcase
    exact absurd (hcase.mp rfl) (by decide)

/-- Two texts of small letters meet the law. -/
theorem conversion_lawful_small_letters :
    ConversionLaw .avr ['o'.toUInt8, 'k'.toUInt8] ∧
      ConversionLaw .avr ['n'.toUInt8, 'o'.toUInt8] ∧
      CaseLaw .avr ['o'.toUInt8, 'k'.toUInt8] ['n'.toUInt8, 'o'.toUInt8] :=
  (conversion_lawful_iff .avr ['o'.toUInt8, 'k'.toUInt8] ['n'.toUInt8, 'o'.toUInt8]
    (by simp; decide)).mpr (by simp; decide)

/-! ## Signed and unsigned characters -/

/-- A text is printed alike on two targets, and every character above `'z'` takes the
case meant for it on both. -/
def TargetsAgree (S U : Target) (text : List UInt8) : Prop :=
  printedFrames S (text ++ [0]) = printedFrames U (text ++ [0]) ∧
    ∀ c ∈ text, 'z'.toNat < c.toNat → cbmSwitchCase S c = 113 ∧ cbmSwitchCase U c = 113

theorem convert_congr_of_lt (S U : Target) {c : UInt8} (h : c.toNat < 128) :
    convert S c = convert U c := by
  rw [convert, convert, cbmSwitchCase, cbmSwitchCase, S.charToInt_of_lt h, U.charToInt_of_lt h]

/-- A signed and an unsigned `char` print a text alike exactly when it is seven-bit. -/
theorem targets_agree_iff (S U : Target) (hS : S.charSigned = true) (hU : U.charSigned = false)
    (text : List UInt8) (htext : ∀ c ∈ text, c ≠ 0) :
    TargetsAgree S U text ↔ ∀ c ∈ text, c.toNat < 128 := by
  have hzero : (0 : UInt8) ∉ text := fun hmem => htext 0 hmem rfl
  unfold TargetsAgree
  rw [printedFrames_eq hzero, printedFrames_eq hzero, Option.some.injEq, List.map_inj_left]
  constructor
  · rintro ⟨hframes, -⟩ c hc
    by_contra hhigh
    have heq := hframes c hc
    rw [convert, convert, cbmSwitchCase_high_signed hS (by omega),
      cbmSwitchCase_high_unsigned hU (by omega)] at heq
    exact absurd heq (by decide)
  · intro hseven
    refine ⟨fun c hc => convert_congr_of_lt S U (hseven c hc), fun c hc habove => ?_⟩
    have hz : 'z'.toNat = 122 := rfl
    rw [hz] at habove
    exact ⟨cbmSwitchCase_other (by omega) (Or.inr habove) (hseven c hc),
      cbmSwitchCase_other (by omega) (Or.inr habove) (hseven c hc)⟩

/-- The Latin-1 code of `é` is a space on the one board and 113 on the other. -/
theorem targets_disagree : ¬ TargetsAgree .avr .esp32 [233] := by
  rintro ⟨hframes, -⟩
  rw [printedFrames_eq (by decide), printedFrames_eq (by decide), Option.some.injEq,
    List.map_singleton, List.map_singleton, convert, convert,
    cbmSwitchCase_high_signed rfl (by decide), cbmSwitchCase_high_unsigned rfl (by decide)]
    at hframes
  exact absurd hframes (by decide)

/-- A text with a character above `'z'` that is still seven-bit. -/
theorem targets_agree_on_brace : TargetsAgree .avr .esp32 ['a'.toUInt8, 123] :=
  (targets_agree_iff .avr .esp32 rfl rfl ['a'.toUInt8, 123] (by simp; decide)).mpr (by simp; decide)

end DotMatrixPrinter
