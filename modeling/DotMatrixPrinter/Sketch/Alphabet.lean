/-
# The bytes a session sends

Everything a session prints goes through `cbm_switch_case` but the rows of the self
test, which are sent as they are. So the session on any target is one machine, the same
for all of them, whose outputs are characters to be converted and bytes to be sent raw;
only the conversion depends on the target, through the sign of `char`. Two boards then
drive the pins alike exactly when they agree on that sign or print seven-bit text only.

The conversion has a small range: the space, the capital letters and one code beside
them. No message leaves it, so a control code reaches the printer from the rows of a self
test only, and what a session can send at all is that range and these rows.
-/

import DotMatrixPrinter.Sketch.LineEnding
import DotMatrixPrinter.Sketch.Transcript
import DotMatrixPrinter.Sketch.Wire

namespace DotMatrixPrinter

open Math.Blocks Math.TerminatedScan

variable {T : Target}

/-! ## The conversion -/

/-- The range of the conversion: the space, the capital letters, and 113. -/
def Printable (data : UInt8) : Prop :=
  data = 32 ∨ data = 113 ∨ 65 ≤ data.toNat ∧ data.toNat ≤ 90

instance : DecidablePred Printable := fun data =>
  inferInstanceAs (Decidable (data = 32 ∨ data = 113 ∨ 65 ≤ data.toNat ∧ data.toNat ≤ 90))

theorem convert_of_signed {c : UInt8} (hT : T.charSigned = true) (h : 128 ≤ c.toNat) :
    convert T c = 32 := by
  rw [convert, cbmSwitchCase_high_signed hT h]
  rfl

theorem convert_of_unsigned {c : UInt8} (hT : T.charSigned = false) (h : 128 ≤ c.toNat) :
    convert T c = 113 := by
  rw [convert, cbmSwitchCase_high_unsigned hT h]
  rfl

theorem printable_convert (T : Target) (c : UInt8) : Printable (convert T c) := by
  by_cases hcontrol : c.toNat < 32
  · exact Or.inl (convert_control hcontrol)
  · by_cases hseven : c.toNat < 128
    · by_cases hlower : 97 ≤ c.toNat ∧ c.toNat ≤ 122
      · have hupper : (c - 32).toNat = c.toNat - 32 := by
          have hle : (32 : UInt8) ≤ c := by
            show 32 ≤ c.toNat
            omega
          exact UInt8.toNat_sub_of_le c 32 hle
        rw [Printable, convert_lower hlower.1 hlower.2, hupper]
        omega
      · exact Or.inr (Or.inl (convert_other (by omega) (by omega) hseven))
    · cases hT : T.charSigned with
      | true => exact Or.inl (convert_of_signed hT (by omega))
      | false => exact Or.inr (Or.inl (convert_of_unsigned hT (by omega)))

/-- Two targets convert a character alike exactly when they agree on the sign of `char`
or the character has seven bits. -/
theorem convert_eq_iff (S U : Target) (c : UInt8) :
    convert S c = convert U c ↔ S.charSigned = U.charSigned ∨ c.toNat < 128 := by
  by_cases hseven : c.toNat < 128
  · simp [hseven, convert_congr_of_lt S U hseven]
  · have hhigh : 128 ≤ c.toNat := by omega
    cases hS : S.charSigned <;> cases hU : U.charSigned
    all_goals simp [hseven, hS, hU, hhigh, convert_of_signed, convert_of_unsigned]

/-! ## One machine for all targets -/

/-- A byte on its way to the printer. -/
inductive Sending
  /-- A character of a text: it is converted. -/
  | char (c : UInt8)
  /-- It is sent as it is. -/
  | raw (data : UInt8)

/-- The byte of the frame. -/
def Sending.byte (T : Target) : Sending → UInt8
  | .char c => convert T c
  | .raw data => data

@[simp]
theorem byte_comp_char (T : Target) : Sending.byte T ∘ Sending.char = convert T := rfl

@[simp]
theorem byte_comp_raw (T : Target) : Sending.byte T ∘ Sending.raw = id := rfl

/-- The title of the self test. -/
def titleChars : List UInt8 :=
  "Hello World, here are the chars supported by the printer:".toList.map Char.toUInt8

/-- The rows of the self test. -/
def selfTestRows : List UInt8 :=
  (List.range 16).flatMap fun (i : ℕ) => (CBM.selfTestRow i).map UInt8.ofInt

/-- What is sent at each step of the dialogue. -/
def sendings : Responses Sending where
  ignored _ := []
  selfTest := (titleChars ++ newlineChars).map .char ++ selfTestRows.map .raw
  opened := []
  stored _ := []
  flushed typed val := (cut (typed ++ [val])).map .char
  ended typed := (cut typed ++ newlineChars).map .char

theorem newlineFrames_eq_map (T : Target) : newlineFrames T = newlineChars.map (convert T) := by
  rw [newlineFrames_eq, newlineChars, List.map_cons, List.map_cons, List.map_nil,
    convert_control (by decide), convert_control (by decide)]

/-- The self test prints its title like any text, and its rows as they are. -/
theorem selfTestFrames_eq (T : Target) :
    selfTestFrames T = (titleChars ++ newlineChars).map (convert T) ++ selfTestRows := by
  obtain ⟨title, htitle⟩ := exists_println ⟨crLf T⟩
    (literal "Hello World, here are the chars supported by the printer:") (by simp [literal]) (-1)
  have hliteral : literal "Hello World, here are the chars supported by the printer:" =
      titleChars ++ 0 :: [] := rfl
  have hnul : (0 : UInt8) ∉ titleChars := by decide
  have hscript := htitle
  rw [hliteral] at hscript
  have hframes := framesOf_println hscript
  rw [cut_of_not_mem hnul, printFrames_of_not_mem hnul, newlineFrames_eq_map,
    ← List.map_append] at hframes
  simp only [selfTestFrames, CBM.printSelfTest, htitle, bind, pure, Option.bind_some,
    Option.map_some, Option.getD_some, framesOf_append, hframes, selfTestRows_eq_sendFrames,
    framesOf_sendFrames, selfTestRows]

theorem printFrames_cut (T : Target) (block : List UInt8) :
    printFrames T (cut block) = (cut block).map (convert T) :=
  printFrames_of_not_mem (not_mem_cut block)

/-- The session on a target is the machine of all of them, with its bytes converted. -/
theorem printedBytes_eq_map (T : Target) (inputs : List (Option UInt8)) :
    printedBytes T inputs =
      (sendings.machine.run .idle (inputs.flatMap Option.toList)).2.map (Sending.byte T) := by
  have hstep (d : Dialog) (val : UInt8) : (reference T).step d val =
      ((sendings.machine.step d val).1,
        (sendings.machine.step d val).2.map (Sending.byte T)) := by
    cases d with
    | idle =>
        simp only [reference, Responses.machine, frameResponses, sendings, selfTestFrames_eq]
        split_ifs <;> simp
    | message typed =>
        simp only [reference, Responses.machine, frameResponses, sendings, printFrames_cut,
          newlineFrames_eq_map]
        split_ifs <;> simp
  rw [printedBytes, Math.Transducer.run_map hstep]

/-! ## Different boards -/

/-- The characters of a request that are printed: of each block those before its first
NUL. -/
def Request.chars : Request → List UInt8
  | .message text => (blocks 999 [] text.val).1.flatMap cut ++ cut (blocks 999 [] text.val).2
  | _ => []

/-- The characters of a conversation that have been printed. -/
def Conversation.chars (c : Conversation) : List UInt8 :=
  c.requests.flatMap Request.chars ++
    match c.typing with
    | none => []
    | some text => (blocks 999 [] text.val).1.flatMap cut

/-- Nothing that is converted has its eighth bit set. -/
def SevenBit (sent : List Sending) : Prop := ∀ c, .char c ∈ sent → c.toNat < 128

@[simp]
theorem sevenBit_append (first later : List Sending) :
    SevenBit (first ++ later) ↔ SevenBit first ∧ SevenBit later := by
  simp only [SevenBit, List.mem_append, or_imp, forall_and]

@[simp]
theorem sevenBit_map_char (text : List UInt8) :
    SevenBit (text.map .char) ↔ ∀ c ∈ text, c.toNat < 128 := by
  simp [SevenBit]

@[simp]
theorem sevenBit_map_raw (bytes : List UInt8) : SevenBit (bytes.map .raw) := by
  simp [SevenBit]

theorem toNat_lt_of_mem_newlineChars : ∀ c ∈ newlineChars, c.toNat < 128 := by
  have hall : (newlineChars.all fun c => c.toNat < 128) = true := by decide
  simpa using hall

theorem toNat_lt_of_mem_titleChars : ∀ c ∈ titleChars, c.toNat < 128 := by
  have hall : (titleChars.all fun c => c.toNat < 128) = true := by decide
  simpa using hall

theorem text_sendings (typed message : List UInt8) :
    sendings.text typed message = ((blocks 999 typed message).1.flatMap cut).map .char := by
  rw [List.map_flatMap]
  exact Responses.text_eq_flatMap (fun _ => rfl) (fun _ _ => rfl) typed message

theorem sevenBit_request (r : Request) :
    SevenBit (sendings.request r) ↔ ∀ c ∈ r.chars, c.toNat < 128 := by
  cases r with
  | ignored => simp [Responses.request, sendings, Request.chars, SevenBit]
  | selfTest =>
      have hsent : sendings.request .selfTest =
          titleChars.map .char ++ (newlineChars.map .char ++ selfTestRows.map .raw) := by
        simp [Responses.request, sendings]
      rw [hsent, sevenBit_append, sevenBit_append, sevenBit_map_char, sevenBit_map_char]
      exact ⟨fun _ c hc => absurd hc List.not_mem_nil, fun _ =>
        ⟨toNat_lt_of_mem_titleChars, toNat_lt_of_mem_newlineChars, sevenBit_map_raw selfTestRows⟩⟩
  | message text =>
      have hsent : sendings.request (.message text) =
          (Request.message text).chars.map .char ++ newlineChars.map .char := by
        rw [Responses.request, text_sendings]
        simp [sendings, Request.chars]
      rw [hsent, sevenBit_append, sevenBit_map_char, sevenBit_map_char]
      exact and_iff_left toNat_lt_of_mem_newlineChars

/-- Only what is typed can have its eighth bit set. -/
theorem sevenBit_run (c : Conversation) :
    SevenBit (sendings.machine.run .idle c.bytes).2 ↔ ∀ val ∈ c.chars, val.toNat < 128 := by
  have hrequests (requests : List Request) : SevenBit (requests.flatMap sendings.request) ↔
      ∀ val ∈ requests.flatMap Request.chars, val.toNat < 128 := by
    induction requests with
    | nil => simp [SevenBit]
    | cons r requests ih =>
        rw [List.flatMap_cons, List.flatMap_cons, sevenBit_append, sevenBit_request, ih,
          List.forall_mem_append]
  have htyping : SevenBit (sendings.typing c.typing) ↔
      ∀ val ∈ (match c.typing with
        | none => []
        | some text => (blocks 999 [] text.val).1.flatMap cut), val.toNat < 128 := by
    cases c.typing with
    | none => simp [Responses.typing, SevenBit]
    | some text =>
        have hopened : sendings.opened = [] := rfl
        rw [Responses.typing, text_sendings, hopened, List.nil_append, sevenBit_map_char]
  rw [sendings.run_conversation, sevenBit_append, hrequests, htyping, Conversation.chars,
    List.forall_mem_append]

theorem byte_eq_iff (S U : Target) (e : Sending) :
    e.byte S = e.byte U ↔ S.charSigned = U.charSigned ∨ ∀ c, .char c = e → c.toNat < 128 := by
  cases e with
  | char c => simp [Sending.byte, convert_eq_iff]
  | raw data => simp [Sending.byte]

theorem printedBytes_eq_iff (S U : Target) (inputs : List (Option UInt8)) :
    printedBytes S inputs = printedBytes U inputs ↔ S.charSigned = U.charSigned ∨
      ∀ c ∈ (Conversation.parse (inputs.flatMap Option.toList)).chars, c.toNat < 128 := by
  rw [← sevenBit_run, Conversation.bytes_parse, printedBytes_eq_map, printedBytes_eq_map,
    List.map_inj_left]
  simp only [byte_eq_iff, SevenBit]
  constructor
  · intro h
    by_cases hsign : S.charSigned = U.charSigned
    · exact Or.inl hsign
    · exact Or.inr fun c hc => (h _ hc).resolve_left hsign c rfl
  · intro h e he
    exact h.imp_right fun hseven c hc => hseven c (hc ▸ he)

/-- The same input is one bus script on two targets exactly when they agree on the sign
of `char` or no character that is printed of a message has its eighth bit set. -/
theorem boards_drive_alike_iff (S U : Target) (inputs : List (Option UInt8)) :
    ∃ s effects u effects', (session S).run (Sketch.start S) inputs = some (s, effects) ∧
      (session U).run (Sketch.start U) inputs = some (u, effects') ∧
      (busScript S effects = busScript U effects' ↔ S.charSigned = U.charSigned ∨
        ∀ c ∈ (Conversation.parse (inputs.flatMap Option.toList)).chars, c.toNat < 128) := by
  obtain ⟨s, effects, hrun, hscript⟩ := busScript_session S inputs
  obtain ⟨u, effects', hrun', hscript'⟩ := busScript_session U inputs
  refine ⟨s, effects, u, effects', hrun, hrun', ?_⟩
  rw [hscript, hscript', ← printedBytes_eq_iff]
  constructor
  · intro heq
    have hbytes := congrArg framesOf (List.append_cancel_left heq)
    rw [framesOf_session, framesOf_session] at hbytes
    exact List.append_cancel_left hbytes
  · intro heq
    rw [heq]

/-! ## What can be sent at all -/

/-- The codes the columns of the self test begin with. -/
def selfTestColumns : List ℕ := [32, 48, 64, 80, 96, 112, 160, 176, 192, 200, 224, 240]

/-- The columns from 192 and from 200 overlap, so there is none for 216 to 223. -/
theorem exists_column_iff (code : ℕ) :
    (∃ column ∈ selfTestColumns, column ≤ code ∧ code < column + 16) ↔
      32 ≤ code ∧ code < 128 ∨ 160 ≤ code ∧ code < 216 ∨ 224 ≤ code ∧ code < 256 := by
  simp only [selfTestColumns, List.mem_cons, List.not_mem_nil, or_false, exists_eq_or_imp,
    exists_eq_left]
  omega

theorem mem_selfTestRow {i : ℕ} {value : ℤ} : value ∈ CBM.selfTestRow i ↔
    value = 10 ∨ value = 13 ∨ value = 32 ∨
      ∃ column ∈ selfTestColumns, value = (i + column : ℕ) := by
  simp only [CBM.selfTestRow, selfTestColumns, List.mem_cons, List.not_mem_nil, or_false,
    exists_eq_or_imp, exists_eq_left, Nat.cast_add, Nat.cast_ofNat]
  grind

theorem mem_selfTestRows (data : UInt8) : data ∈ selfTestRows ↔ data = 10 ∨ data = 13 ∨
    32 ≤ data.toNat ∧ data.toNat < 128 ∨ 160 ≤ data.toNat ∧ data.toNat < 216 ∨
    224 ≤ data.toNat := by
  simp only [selfTestRows, List.mem_flatMap, List.mem_range, List.mem_map, mem_selfTestRow]
  constructor
  · intro h
    obtain ⟨i, hi, value, rfl | rfl | rfl | ⟨column, hcolumn, rfl⟩, rfl⟩ := h
    · exact Or.inl rfl
    · exact Or.inr (Or.inl rfl)
    · exact Or.inr (Or.inr (Or.inl (by decide)))
    · have hcode := (exists_column_iff (i + column)).mp ⟨column, hcolumn, by omega, by omega⟩
      have hvalue : (UInt8.ofInt (i + column : ℕ)).toNat = i + column := by
        simp only [UInt8.ofInt, UInt8.toNat_ofNat']
        omega
      rw [hvalue]
      omega
  · intro h
    have hdata := data.toNat_lt
    obtain rfl | rfl | hcode := h
    · exact ⟨0, by decide, 10, Or.inl rfl, rfl⟩
    · exact ⟨0, by decide, 13, Or.inr (Or.inl rfl), rfl⟩
    · obtain ⟨column, hcolumn, hle, hlt⟩ := (exists_column_iff data.toNat).mpr (by omega)
      have hsum : data.toNat - column + column = data.toNat := by omega
      exact ⟨data.toNat - column, by omega, data.toNat,
        Or.inr (Or.inr (Or.inr ⟨column, hcolumn, by rw [hsum]⟩)), ofInt_toNat data⟩

/-- Only a self test sends bytes that are not converted. -/
theorem raw_mem_request {data : UInt8} {r : Request} :
    .raw data ∈ sendings.request r ↔ r = .selfTest ∧ data ∈ selfTestRows := by
  cases r with
  | ignored => simp [Responses.request, sendings]
  | selfTest => simp [Responses.request, sendings]
  | message text =>
      rw [Responses.request, text_sendings]
      simp [sendings]

theorem raw_mem_run {data : UInt8} {c : Conversation} :
    .raw data ∈ (sendings.machine.run .idle c.bytes).2 ↔
      .selfTest ∈ c.requests ∧ data ∈ selfTestRows := by
  have htyping : .raw data ∉ sendings.typing c.typing := by
    cases c.typing with
    | none => exact List.not_mem_nil
    | some text =>
        rw [Responses.typing, text_sendings]
        simp [sendings]
  rw [sendings.run_conversation, List.mem_append, or_iff_left htyping, List.mem_flatMap]
  constructor
  · intro h
    obtain ⟨r, hr, hdata⟩ := h
    obtain ⟨rfl, hrow⟩ := raw_mem_request.mp hdata
    exact ⟨hr, hrow⟩
  · intro h
    exact ⟨.selfTest, h.1, raw_mem_request.mpr ⟨rfl, h.2⟩⟩

/-- A byte that is printed is of the alphabet of the conversion or of a self test. -/
theorem printable_or_of_mem_printedBytes {inputs : List (Option UInt8)} {data : UInt8}
    (h : data ∈ printedBytes T inputs) :
    Printable data ∨ .selfTest ∈ (Conversation.parse (inputs.flatMap Option.toList)).requests ∧
      data ∈ selfTestRows := by
  rw [printedBytes_eq_map, ← Conversation.bytes_parse (inputs.flatMap Option.toList),
    List.mem_map] at h
  obtain ⟨e, he, rfl⟩ := h
  cases e with
  | char c => exact Or.inl (printable_convert T c)
  | raw data => exact Or.inr (raw_mem_run.mp he)

/-- A self test prints its rows. -/
theorem mem_printedBytes_of_selfTest {inputs : List (Option UInt8)} {data : UInt8}
    (h : .selfTest ∈ (Conversation.parse (inputs.flatMap Option.toList)).requests)
    (hrow : data ∈ selfTestRows) : data ∈ printedBytes T inputs := by
  rw [printedBytes_eq_map, ← Conversation.bytes_parse (inputs.flatMap Option.toList)]
  exact List.mem_map.mpr ⟨.raw data, raw_mem_run.mpr ⟨h, hrow⟩, rfl⟩

/-- All the bytes a session sends behind the header are spaces, capital letters and 113
exactly when no self test has been asked for; no message, whatever it holds, sends a
control code. -/
theorem session_printable_iff (T : Target) (inputs : List (Option UInt8)) :
    ∃ s effects, (session T).run (Sketch.start T) inputs = some (s, effects) ∧
      ((∀ data ∈ effects.flatMap Effect.frames, Printable data) ↔
        .selfTest ∉ (Conversation.parse (inputs.flatMap Option.toList)).requests) := by
  obtain ⟨s, effects, hrun, -, hframes⟩ := (session_refines T).run (tracks_start T) inputs
  rw [← printedBytes] at hframes
  refine ⟨s, effects, hrun, ?_⟩
  rw [hframes]
  constructor
  · intro hall hself
    have hten := hall 10 (mem_printedBytes_of_selfTest hself
      ((mem_selfTestRows 10).mpr (Or.inl rfl)))
    exact absurd hten (by decide)
  · intro hself data hdata
    exact (printable_or_of_mem_printedBytes hdata).resolve_right fun h => hself h.1

/-- Some session sends a byte behind the header exactly when it ends a row of the self
test, is seven-bit and no control code, or lies in one of two ranges above; no session
sends 216 to 223. -/
theorem sendable_iff (T : Target) (data : UInt8) :
    (∃ inputs s effects, (session T).run (Sketch.start T) inputs = some (s, effects) ∧
      data ∈ effects.flatMap Effect.frames) ↔
    data = 10 ∨ data = 13 ∨ 32 ≤ data.toNat ∧ data.toNat < 128 ∨
      160 ≤ data.toNat ∧ data.toNat < 216 ∨ 224 ≤ data.toNat := by
  constructor
  · intro h
    obtain ⟨inputs, s, effects, hrun, hdata⟩ := h
    obtain ⟨-, hframes⟩ := (session_refines T).of_run (tracks_start T) hrun
    rw [hframes, ← printedBytes] at hdata
    obtain hprintable | ⟨-, hrow⟩ := printable_or_of_mem_printedBytes hdata
    · obtain rfl | rfl | hletter := hprintable
      · exact Or.inr (Or.inr (Or.inl (by decide)))
      · exact Or.inr (Or.inr (Or.inl (by decide)))
      · omega
    · exact (mem_selfTestRows data).mp hrow
  · intro h
    obtain ⟨s, effects, hrun, -, hframes⟩ :=
      (session_refines T).run (tracks_start T) [some '1'.toUInt8]
    refine ⟨_, s, effects, hrun, ?_⟩
    rw [hframes, ← printedBytes]
    exact mem_printedBytes_of_selfTest (by simp [Conversation.parse, Conversation.read,
      Conversation.add]) ((mem_selfTestRows data).mpr h)

end DotMatrixPrinter
