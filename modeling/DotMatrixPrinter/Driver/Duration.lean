/-
# How long the driver takes

A frame has two loops that wait for the printer, ten microseconds a round, and otherwise
only fixed delays. So the readings on which a frame returns are known exactly, and so is
the time it takes on them: the first loop reads the busy level some number of times and
then the ready level once, the second the other way round. A line that never changes
answers one of the two loops and not the other, so nothing that sends a frame returns on
it.
-/

import DotMatrixPrinter.Driver.Calls
import DotMatrixPrinter.Driver.Frame
import DotMatrixPrinter.LineScript.Duration

namespace DotMatrixPrinter

open LineScript

/-- How often each of the two loops of a frame goes round. -/
structure Wait where
  ready : ℕ
  taken : ℕ

namespace Wait

/-- The readings of a frame that waits like this. -/
def readings (w : Wait) : List Bool :=
  List.replicate w.ready false ++ [true] ++ (List.replicate w.taken true ++ [false])

/-- What such a frame takes, in microseconds. -/
def time (w : Wait) : ℕ := 640 + 10 * (w.ready + w.taken)

end Wait

variable {rs : List Bool} {t : ℕ}

/-! ## Frames -/

theorem isBlind_of_mem_sendBits {data : UInt8} {n : ℕ} {c : PinCommand}
    (h : c ∈ sendBits data n) : c.isBlind = true := by
  rcases List.mem_flatMap.mp h with ⟨i, -, hc⟩
  simp only [sendBit, List.mem_cons, List.not_mem_nil, or_false] at hc
  rcases hc with rfl | rfl | rfl | rfl | rfl | rfl <;> rfl

theorem pauses_sendBits (data : UInt8) (n : ℕ) : pauses (sendBits data n) = 60 * n := by
  induction n with
  | zero => rfl
  | succ n ih =>
      rw [sendBits_succ, pauses_append, ih, Nat.mul_succ]
      rfl

/-- What a frame returns on, and how long it then takes. -/
theorem answered_cbmSerialWriteFrame (data : UInt8) :
    Answered (cbmSerialWriteFrame data 0) rs t ↔ ∃ w : Wait, rs = w.readings ∧ t = w.time := by
  let opening : PinScript := [.note (.enterFrame data), digitalWrite .clk LOW]
  let body : PinScript := [delayMicroseconds 40] ++ sendBits data 8 ++
    [digitalWrite .clk HIGH, digitalWrite .dataOut LOW, delayMicroseconds 20]
  let closing : PinScript := [delayMicroseconds 100, .note .leaveFrame]
  have hframe : cbmSerialWriteFrame data 0 =
      opening ++ whileNotDeviceReady :: (body ++ whileDeviceReady :: closing) := by
    simp [cbmSerialWriteFrame, beginFrame, endFrame, cbmSerialWriteByte_eq, opening, body, closing]
  have hopening : ∀ c ∈ opening, c.isBlind = true := by
    simp [opening, digitalWrite, Command.isBlind]
  have hbody : ∀ c ∈ body, c.isBlind = true := by
    intro c hc
    simp only [body, List.mem_append, List.mem_cons, List.not_mem_nil, or_false] at hc
    obtain (rfl | hc) | rfl | rfl | rfl := hc
    case inl.inr => exact isBlind_of_mem_sendBits hc
    all_goals rfl
  have hbodyTime : pauses body = 540 := by
    rw [pauses_append, pauses_append, pauses_sendBits]
    rfl
  have hclosing : ∀ c ∈ closing, c.isBlind = true := by
    simp [closing, delayMicroseconds, Command.isBlind]
  rw [hframe]
  constructor
  · intro h
    obtain ⟨_, hready, rfl⟩ := (answered_append_of_blind hopening).mp h
    obtain ⟨ready, _, _, hbits, rfl, rfl⟩ := answered_pollWhile_cons.mp hready
    obtain ⟨_, htaken, rfl⟩ := (answered_append_of_blind hbody).mp hbits
    obtain ⟨taken, _, _, hrest, rfl, rfl⟩ := answered_pollWhile_cons.mp htaken
    obtain ⟨rfl, rfl⟩ := (answered_of_blind hclosing).mp hrest
    refine ⟨⟨ready, taken⟩, by simp [Wait.readings], ?_⟩
    rw [hbodyTime]
    simp [pauses, opening, closing, digitalWrite, delayMicroseconds, Command.ownPause, Wait.time]
    omega
  · rintro ⟨w, rfl, rfl⟩
    refine (answered_append_of_blind hopening).mpr ⟨_, answered_pollWhile_cons.mpr
      ⟨w.ready, _, _, (answered_append_of_blind hbody).mpr ⟨_, answered_pollWhile_cons.mpr
        ⟨w.taken, _, _, (answered_of_blind hclosing).mpr ⟨rfl, rfl⟩, rfl, rfl⟩, rfl⟩, ?_, rfl⟩, ?_⟩
    · simp [Wait.readings]
    · rw [hbodyTime]
      simp [pauses, opening, closing, digitalWrite, delayMicroseconds, Command.ownPause, Wait.time]
      omega

/-- Frames in a row wait one after the other. -/
theorem answered_sendFrames (bytes : List UInt8) :
    Answered (sendFrames bytes) rs t ↔ ∃ waits : List Wait, waits.length = bytes.length ∧
      rs = waits.flatMap Wait.readings ∧ t = (waits.map Wait.time).sum := by
  induction bytes generalizing rs t with
  | nil =>
      constructor
      · intro h
        cases h
        exact ⟨[], rfl, rfl, rfl⟩
      · rintro ⟨waits, hlength, rfl, rfl⟩
        obtain rfl := List.eq_nil_of_length_eq_zero hlength
        exact .nil
  | cons data bytes ih =>
      have hcons : sendFrames (data :: bytes) = cbmSerialWriteFrame data 0 ++ sendFrames bytes :=
        List.flatMap_cons
      rw [hcons]
      constructor
      · intro h
        obtain ⟨_, _, _, _, hframe, hrest, rfl, rfl⟩ := answered_append.mp h
        obtain ⟨w, rfl, rfl⟩ := (answered_cbmSerialWriteFrame data).mp hframe
        obtain ⟨waits, hlength, rfl, rfl⟩ := ih.mp hrest
        exact ⟨w :: waits, by simp [hlength], by simp, by simp⟩
      · rintro ⟨waits, hlength, rfl, rfl⟩
        cases waits with
        | nil => simp at hlength
        | cons w waits =>
            have hframe := (answered_cbmSerialWriteFrame data).mpr ⟨w, rfl, rfl⟩
            have hrest := ih.mpr ⟨waits, by simpa using hlength, rfl, rfl⟩
            rw [List.flatMap_cons, List.map_cons, List.sum_cons]
            exact hframe.append hrest

/-! ## Sessions -/

/-- The header is two frames, and everything before the first is fixed delays. -/
theorem begin_eq (mode : PrintMode) (printerAddr : ℤ) :
    CBM.begin mode printerAddr =
      (CBM.resetPrinter ++ [digitalWrite .attn HIGH, delayMicroseconds 2000,
        digitalWrite .clk HIGH, delayMicroseconds 2000]) ++
      (sendFrames [UInt8.ofInt (0x20 + printerAddr), UInt8.ofInt (0x60 + mode.toInt)] ++
        [delayMicroseconds 20, digitalWrite .attn LOW]) := by
  simp [CBM.begin, cbmSerialBegin, sendFrames]

/-- What a session returns on, from the reset of the printer to its last frame. -/
theorem answered_begin_sendFrames (mode : PrintMode) (printerAddr : ℤ) (bytes : List UInt8) :
    Answered (CBM.begin mode printerAddr ++ sendFrames bytes) rs t ↔
      ∃ waits : List Wait, waits.length = bytes.length + 2 ∧ rs = waits.flatMap Wait.readings ∧
        t = 3104020 + (waits.map Wait.time).sum := by
  let header : List UInt8 := [UInt8.ofInt (0x20 + printerAddr), UInt8.ofInt (0x60 + mode.toInt)]
  let opening : PinScript := CBM.resetPrinter ++ [digitalWrite .attn HIGH, delayMicroseconds 2000,
    digitalWrite .clk HIGH, delayMicroseconds 2000]
  let closing : PinScript := [delayMicroseconds 20, digitalWrite .attn LOW]
  have hsession : CBM.begin mode printerAddr ++ sendFrames bytes =
      opening ++ (sendFrames header ++ (closing ++ sendFrames bytes)) := by
    simp [begin_eq, opening, header, closing]
  have hopening : ∀ c ∈ opening, c.isBlind = true := by
    simp [opening, CBM.resetPrinter, pinMode, digitalWrite, delay, delayMicroseconds,
      Command.isBlind]
  have hopeningTime : pauses opening = 3104000 := rfl
  have hclosing : ∀ c ∈ closing, c.isBlind = true := by
    simp [closing, digitalWrite, delayMicroseconds, Command.isBlind]
  have hclosingTime : pauses closing = 20 := rfl
  rw [hsession, answered_append_of_blind hopening, hopeningTime]
  constructor
  · rintro ⟨_, h, rfl⟩
    obtain ⟨_, _, _, _, hheader, hrest, rfl, rfl⟩ := answered_append.mp h
    obtain ⟨first, hfirst, rfl, rfl⟩ := (answered_sendFrames header).mp hheader
    obtain ⟨_, hbytes, rfl⟩ := (answered_append_of_blind hclosing).mp hrest
    obtain ⟨later, hlater, rfl, rfl⟩ := (answered_sendFrames bytes).mp hbytes
    have hlength : (first ++ later).length = bytes.length + 2 := by
      rw [List.length_append, hfirst, hlater, Nat.add_comm]
      rfl
    refine ⟨first ++ later, hlength, List.flatMap_append.symm, ?_⟩
    rw [List.map_append, List.sum_append, hclosingTime]
    omega
  · rintro ⟨waits, hlength, rfl, rfl⟩
    have hfirst : (waits.take 2).length = header.length := by
      rw [List.length_take, hlength, Nat.min_eq_left (by omega)]
      rfl
    have hlater : (waits.drop 2).length = bytes.length := by
      rw [List.length_drop, hlength, Nat.add_sub_cancel]
    have hanswered := ((answered_sendFrames header).mpr ⟨_, hfirst, rfl, rfl⟩).append
      ((answered_append_of_blind hclosing).mpr
        ⟨_, (answered_sendFrames bytes).mpr ⟨_, hlater, rfl, rfl⟩, rfl⟩)
    rw [← List.flatMap_append, List.take_append_drop] at hanswered
    refine ⟨_, hanswered, ?_⟩
    conv_lhs => rw [← List.take_append_drop 2 waits]
    rw [List.map_append, List.sum_append, hclosingTime]
    omega

/-! ## A line that never changes -/

variable {T : Target}

/-- A frame needs both levels of the line. -/
theorem Wait.mem_readings (w : Wait) (level : Bool) : level ∈ w.readings := by
  cases level <;> simp [Wait.readings]

/-- Both levels are among the readings of a call that sends a frame. -/
theorem mem_of_answered {cbm : CBM T} {c : Call T} {s : PinScript} (h : c.script cbm = some s)
    (hframes : framesOf s ≠ []) (hanswered : Answered s rs t) (level : Bool) : level ∈ rs := by
  obtain ⟨mode, printerAddr, rfl, rfl⟩ | ⟨rfl, rfl⟩ | ⟨-, bytes, rfl⟩ := Call.script_cases h
  · have hsession : Answered (CBM.begin mode printerAddr ++ sendFrames []) rs t := by
      simpa [sendFrames] using hanswered
    obtain ⟨waits, hlength, rfl, -⟩ := (answered_begin_sendFrames mode printerAddr []).mp hsession
    cases waits with
    | nil => simp at hlength
    | cons w waits => exact List.mem_flatMap.mpr ⟨w, List.mem_cons_self, w.mem_readings level⟩
  · exact absurd rfl hframes
  · obtain ⟨waits, hlength, rfl, -⟩ := (answered_sendFrames bytes).mp hanswered
    rw [framesOf_sendFrames] at hframes
    cases waits with
    | nil => exact absurd (List.eq_nil_of_length_eq_zero hlength.symm) hframes
    | cons w waits => exact List.mem_flatMap.mpr ⟨w, List.mem_cons_self, w.mem_readings level⟩

/-- On a data line that never changes, however long one waits, a call that stays inside
its text returns exactly when it sends no frame. -/
theorem returns_on_dead_line_iff (T : Target) (cbm : CBM T) (c : Call T) (s : PinScript)
    (h : c.script cbm = some s) (level : Bool) :
    (∃ n trace rest, exec s (List.replicate n level) = some (trace, rest)) ↔ framesOf s = [] := by
  constructor
  · rintro ⟨n, trace, rest, hexec⟩
    by_contra hframes
    obtain ⟨used, hused, hanswered⟩ := exists_exec_iff.mp ⟨trace, hexec, rfl⟩
    have hmem := List.mem_append_left rest (mem_of_answered h hframes hanswered !level)
    rw [← hused] at hmem
    exact absurd (List.eq_of_mem_replicate hmem) (by simp)
  · intro hframes
    obtain ⟨mode, printerAddr, rfl, rfl⟩ | ⟨rfl, rfl⟩ | ⟨-, bytes, rfl⟩ := Call.script_cases h
    · simp at hframes
    · exact ⟨1, [.read level], [], rfl⟩
    · rw [framesOf_sendFrames] at hframes
      rw [hframes]
      exact ⟨0, [], [], rfl⟩

/-- `begin` never returns when no printer answers. -/
theorem returns_on_dead_line_begin : ¬ ∃ n trace rest,
    exec (CBM.begin .Graphic 4) (List.replicate n true) = some (trace, rest) := by
  have hiff := returns_on_dead_line_iff .avr (CBM.new .avr) (.begin .Graphic 4) _ rfl true
  simpa using hiff

end DotMatrixPrinter
