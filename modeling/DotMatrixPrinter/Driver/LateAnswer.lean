/-
# A printer that answers attention late

`cbm_serial_begin` asserts attention and waits four milliseconds in all. The device is to
acknowledge by pulling the data line low, but nobody looks: the first frame is begun in
any case, and its ready poll takes a line that nobody pulls low for a printer that is
ready. The handshake relies on the printer having answered by then.

This module takes the assumption away and shows what it is worth. A printer that answers
after the bits of the first byte misses that byte, and the driver sees exactly what it
sees of a printer that is in time. One that answers before the last bit of it takes its
falling edge for the announcement of a frame, and the driver waits for ever.
-/

import DotMatrixPrinter.Driver.Agreement
import DotMatrixPrinter.LineScript.Prompt

namespace DotMatrixPrinter

open LineScript

/-- The bus with a printer that may answer attention at any time. -/
def lateBus : Plant Pin Mark Link := { bus with mayWrite := fun x _ _ => x.edge = false }

theorem maps_lateBus : bus.Maps lateBus id where
  input _ := rfl
  mayWrite _ _ _ h := h.seen
  write _ _ _ := rfl
  note _ _ := rfl
  env _ _ h := h

/-- What the driver has sent before makes no difference to either side. -/
def Link.sentBefore (data : UInt8) (x : Link) : Link := { x with sent := data :: x.sent }

theorem seeEdge_sentBefore (data : UInt8) (x : Link) :
    (x.sentBefore data).seeEdge = x.seeEdge.sentBefore data := by
  obtain ⟨levels, edge, phase, received, dropped, sent, sending⟩ := x
  cases phase with
  | unaddressed | called | waiting | opened | full => rfl
  | sampling bits =>
      by_cases hlast : bits.length + 1 = 8
      · simp [Link.seeEdge, Link.sentBefore, Link.line, Phase.pulls, hlast]
      · simp [Link.seeEdge, Link.sentBefore, Link.line, Phase.pulls, hlast]

theorem write_sentBefore (data : UInt8) (x : Link) (pin : Pin) (level : Bool) :
    (x.sentBefore data).write pin level = (x.write pin level).sentBefore data := by
  cases pin <;> cases level
  case attn.true => cases h : x.levels.attn <;> simp [Link.write, Link.sentBefore, h]
  case clk.false => cases h : x.levels.clk <;> simp [Link.write, Link.sentBefore, h]
  all_goals rfl

theorem maps_sentBefore (data : UInt8) : bus.Maps lateBus (Link.sentBefore data) where
  input _ := rfl
  mayWrite _ _ _ h := h.seen
  write := write_sentBefore data
  note x mark := by cases mark <;> rfl
  env x y h := by
    cases h with
    | answer h => exact .answer h
    | release h => exact .release h
    | acknowledge h hclk => exact .acknowledge h hclk
    | see h =>
        show PrinterStep (x.sentBefore data) (x.seeEdge.sentBefore data)
        rw [← seeEdge_sentBefore]
        exact .see h

/-! ## A printer that has not answered -/

/-- Attention is asserted, the printer has not answered, and it has no edge to see. -/
def Link.deaf (levels : Levels) (sent : List UInt8) (sending : Option UInt8) : Link :=
  ⟨levels, false, .called, [], 0, sent, sending⟩

variable {levels : Levels} {sent : List UInt8} {sending : Option UInt8}

/-- Whatever the driver writes, the printer lets it pass. -/
theorem run_deaf_write (pin : Pin) (level : Bool) :
    Run lateBus [.write pin level] (.deaf levels sent sending)
      (promptTrace [.write pin level]) [] (.deaf (levels.set pin level) sent sending) := by
  have hwrite : Run lateBus [.write pin level] (.deaf levels sent sending) [.write pin level] []
      ((Link.deaf levels sent sending).write pin level) := .single (.write rfl)
  have hsee : Relation.ReflTransGen PrinterStep
      ((Link.deaf levels sent sending).write pin level)
      (.deaf (levels.set pin level) sent sending) := by
    obtain ⟨attn, reset, clk, dataOut⟩ := levels
    cases pin <;> cases level
    case attn.true => cases attn <;> exact .refl
    case clk.false =>
      cases clk with
      | false => exact .refl
      | true => exact .single (.see rfl)
    all_goals exact .refl
  exact hwrite.trans (.of_env hsee)

theorem run_deaf_pause (us : ℕ) :
    Run lateBus [.pause us] (.deaf levels sent sending) (promptTrace [.pause us]) []
      (.deaf levels sent sending) :=
  .single (.pause us)

/-- The bits of a byte go by. -/
theorem run_deaf_sendBits (attn reset dataOut : Bool) (data : UInt8) (n : ℕ) :
    ∃ dataOut', Run lateBus (sendBits data n) (.deaf ⟨attn, reset, false, dataOut⟩ sent sending)
      (promptTrace (sendBits data n)) []
      (.deaf ⟨attn, reset, false, dataOut'⟩ sent sending) := by
  induction n with
  | zero => exact ⟨dataOut, .start⟩
  | succ n ih =>
      obtain ⟨dataOut', hbits⟩ := ih
      rw [sendBits_succ, promptTrace_append]
      exact ⟨_, hbits.seq <| (run_deaf_write .dataOut _).seq <| (run_deaf_pause 20).seq <|
        (run_deaf_write .clk true).seq <| (run_deaf_pause 20).seq <|
        (run_deaf_write .clk false).seq (run_deaf_pause 20)⟩

/-- Attention is asserted and the clock raised. -/
theorem run_deaf_assertAttention :
    Run lateBus [digitalWrite .attn HIGH, delayMicroseconds 2000, digitalWrite .clk HIGH,
        delayMicroseconds 2000] Link.start
      (promptTrace [digitalWrite .attn HIGH, delayMicroseconds 2000, digitalWrite .clk HIGH,
        delayMicroseconds 2000]) [] (.deaf ⟨true, false, true, false⟩ [] none) := by
  have hcall : Run lateBus [digitalWrite .attn HIGH] Link.start
      (promptTrace [digitalWrite .attn HIGH]) [] (.deaf ⟨true, false, false, false⟩ [] none) :=
    .single (.write rfl)
  exact hcall.seq <| (run_deaf_pause 2000).seq <| (run_deaf_write .clk true).seq
    (run_deaf_pause 2000)

/-- A frame is begun: nobody pulls the data line, so the driver takes the printer for
ready. -/
theorem run_deaf_beginFrame (data : UInt8) :
    Run lateBus ([.note (.enterFrame data)] ++ beginFrame 0)
      (.deaf ⟨true, false, true, false⟩ [] none)
      (promptTrace ([.note (.enterFrame data)] ++ beginFrame 0)) []
      (.deaf ⟨true, false, false, false⟩ [data] (some data)) := by
  have henter : Run lateBus [.note (.enterFrame data)] (.deaf ⟨true, false, true, false⟩ [] none)
      (promptTrace [.note (.enterFrame data)]) []
      (.deaf ⟨true, false, true, false⟩ [data] (some data)) := .single (.note _)
  have hready : Run lateBus [whileNotDeviceReady]
      (.deaf ⟨true, false, false, false⟩ [data] (some data)) (promptTrace [whileNotDeviceReady]) []
      (.deaf ⟨true, false, false, false⟩ [data] (some data)) :=
    .single (.leave fun h => by cases h)
  exact henter.seq <| (run_deaf_write .clk false).seq <| hready.seq (run_deaf_pause 40)

/-- The frame is ended: the printer answers attention, and the driver takes that for the
acknowledgment of the byte. -/
theorem run_deaf_endFrame (data : UInt8) (dataOut : Bool) :
    Run lateBus (endFrame ++ [.note .leaveFrame])
      (.deaf ⟨true, false, false, dataOut⟩ [data] (some data))
      (promptTrace (endFrame ++ [.note .leaveFrame])) []
      (.sentBefore data ⟨⟨true, false, true, false⟩, false, .waiting, [], 0, [], none⟩) := by
  let waiting : Link :=
    ⟨⟨true, false, true, false⟩, false, .waiting, [], 0, [data], some data⟩
  have hanswer : Run lateBus [whileDeviceReady]
      (.deaf ⟨true, false, true, false⟩ [data] (some data)) [] [whileDeviceReady] waiting :=
    .of_env (.single (PrinterStep.answer rfl))
  have htaken :
      Run lateBus [whileDeviceReady] waiting (promptTrace [whileDeviceReady]) [] waiting :=
    .single (.leave fun h => by cases h)
  have hleave : Run lateBus [.pause 100, .note .leaveFrame] waiting
      (promptTrace [.pause 100, .note .leaveFrame]) [] (waiting.mark .leaveFrame) :=
    (Run.single (.pause 100)).trans (.single (.note _))
  exact (run_deaf_write .clk true).seq <| (run_deaf_write .dataOut false).seq <|
    (run_deaf_pause 20).seq <| (hanswer.trans htaken).seq hleave

/-- A frame can pass the printer by: it is sent from beginning to end and its byte is
missed. -/
theorem run_deaf_frame (data : UInt8) :
    Run lateBus (cbmSerialWriteFrame data 0) (.deaf ⟨true, false, true, false⟩ [] none)
      (promptTrace (cbmSerialWriteFrame data 0)) []
      (.sentBefore data ⟨⟨true, false, true, false⟩, false, .waiting, [], 0, [], none⟩) := by
  obtain ⟨dataOut, hbits⟩ := run_deaf_sendBits true false false data 8
  have hframe := (run_deaf_beginFrame data).seq (hbits.seq (run_deaf_endFrame data dataOut))
  rw [cbmSerialWriteFrame, cbmSerialWriteByte_eq]
  simpa only [promptTrace_append, List.append_assoc] using hframe

/-! ## The session -/

/-- A session behind its first frame. -/
def laterScript (mode : PrintMode) (bytes : List UInt8) : PinScript :=
  cbmSerialWriteFrame (UInt8.ofInt (0x60 + mode.toInt)) 0 ++
    [delayMicroseconds 20, digitalWrite .attn LOW] ++ sendFrames bytes

theorem sessionScript_eq (mode : PrintMode) (printerAddr : ℤ) (bytes : List UInt8) :
    sessionScript mode printerAddr bytes =
      [digitalWrite .attn HIGH, delayMicroseconds 2000, digitalWrite .clk HIGH,
        delayMicroseconds 2000] ++
      (cbmSerialWriteFrame (UInt8.ofInt (0x20 + printerAddr)) 0 ++ laterScript mode bytes) := by
  simp [sessionScript, cbmSerialBegin, laterScript]

/-- A frame reads the data line in its two loops only. -/
theorem sample_not_mem_frame (data : UInt8) : .sample ∉ cbmSerialWriteFrame data 0 := by
  simp [cbmSerialWriteFrame, beginFrame, endFrame, cbmSerialWriteByte, cbmSerialWriteBit,
    digitalWrite, delayMicroseconds, whileNotDeviceReady, whileDeviceReady]

theorem sample_not_mem_laterScript (mode : PrintMode) (bytes : List UInt8) :
    .sample ∉ laterScript mode bytes := by
  simp [laterScript, sendFrames, sample_not_mem_frame, digitalWrite, delayMicroseconds]

theorem sample_not_mem_sessionScript (mode : PrintMode) (printerAddr : ℤ) (bytes : List UInt8) :
    .sample ∉ sessionScript mode printerAddr bytes := by
  simp [sessionScript_eq, sample_not_mem_frame, sample_not_mem_laterScript, digitalWrite,
    delayMicroseconds]

/-- What has an outline has a prompt interleaving. -/
theorem exists_prompt_of_outline {Q R : Link → Prop} {s : PinScript} {x : Link}
    (h : Outline bus Obligation Q s R) (hx : Q x) (hsample : .sample ∉ s) :
    ∃ y, Run bus s x (promptTrace s) [] y ∧ R y := by
  obtain ⟨y, hrun⟩ := exists_prompt exists_rest hsample
    fun trace s' z hrun => (h x hx trace s' z hrun).canFinish
  exact ⟨y, hrun, (h x hx _ _ _ hrun).done rfl⟩

theorem outline_laterScript (mode : PrintMode) (bytes : List UInt8) :
    Outline bus Obligation (Resting true [] [] none) (laterScript mode bytes)
      (Resting true (UInt8.ofInt (0x60 + mode.toInt) :: bytes)
        (UInt8.ofInt (0x60 + mode.toInt) :: bytes) none) :=
  ((outline_cbmSerialWriteFrame 0 [] _).append (outline_releaseAttention _)).append
    (outline_sendFrames _ bytes)

/-- What a printer that may answer attention at any time makes of a session. -/
structure LateAnswer (mode : PrintMode) (printerAddr : ℤ) (bytes : List UInt8) : Prop where
  /-- A printer in time is one that may be late. -/
  inTime : ∀ trace s x, Run bus (sessionScript mode printerAddr bytes) Link.start trace s x →
    Run lateBus (sessionScript mode printerAddr bytes) Link.start trace s x
  /-- The driver has returned and has seen what a printer in time shows it, and the
  printer has missed the first byte. -/
  unnoticed : ∃ trace x y,
    Run lateBus (sessionScript mode printerAddr bytes) Link.start trace [] x ∧
    Run bus (sessionScript mode printerAddr bytes) Link.start trace [] y ∧
    x.received = (sessionBytes mode printerAddr bytes).tail ∧
    y.received = sessionBytes mode printerAddr bytes
  /-- The driver waits for ever. -/
  hangs : ∃ trace s x, Run lateBus (sessionScript mode printerAddr bytes) Link.start trace s x ∧
    ¬ CanFinish lateBus s x

theorem exists_unnoticed (mode : PrintMode) (printerAddr : ℤ) (bytes : List UInt8) :
    ∃ trace x y,
      Run lateBus (sessionScript mode printerAddr bytes) Link.start trace [] x ∧
      Run bus (sessionScript mode printerAddr bytes) Link.start trace [] y ∧
      x.received = (sessionBytes mode printerAddr bytes).tail ∧
      y.received = sessionBytes mode printerAddr bytes := by
  let first := UInt8.ofInt (0x20 + printerAddr)
  let answered : Link := ⟨⟨true, false, true, false⟩, false, .waiting, [], 0, [], none⟩
  obtain ⟨x, hlater, hx⟩ := exists_prompt_of_outline (x := answered)
    (outline_laterScript mode bytes) (.waiting true false) (sample_not_mem_laterScript mode bytes)
  obtain ⟨y, htime, hy⟩ := exists_prompt_of_outline (outline_session mode printerAddr bytes) rfl
    (sample_not_mem_sessionScript mode printerAddr bytes)
  have hmissed := run_deaf_assertAttention.seq
    ((run_deaf_frame first).seq ((maps_sentBefore first).run hlater))
  rw [← promptTrace_append, ← promptTrace_append, ← sessionScript_eq] at hmissed
  exact ⟨_, _, y, hmissed, htime, hx.received_eq, hy.received_eq⟩

/-- The printer answers between the last two bits, and sees the next falling edge. -/
theorem exists_run_announced (bit dataOut : Bool) (data : UInt8) :
    ∃ trace, Run lateBus (sendBit bit) (.deaf ⟨true, false, false, dataOut⟩ [data] (some data))
      trace [] ⟨⟨true, false, false, !bit⟩, false, .sampling [], [], 0, [data], some data⟩ := by
  let waiting : Link :=
    ⟨⟨true, false, true, !bit⟩, false, .waiting, [], 0, [data], some data⟩
  have hup : Run lateBus [.write .dataOut !bit, .pause 20, .write .clk true, .pause 20]
      (.deaf ⟨true, false, false, dataOut⟩ [data] (some data)) _ []
      (.deaf ⟨true, false, true, !bit⟩ [data] (some data)) :=
    (run_deaf_write .dataOut (!bit)).seq <| (run_deaf_pause 20).seq <|
      (run_deaf_write .clk true).seq (run_deaf_pause 20)
  have hanswer : Relation.ReflTransGen PrinterStep
      (.deaf ⟨true, false, true, !bit⟩ [data] (some data)) waiting :=
    .single (.answer rfl)
  have hdown : Run lateBus [.write .clk false, .pause 20] waiting _ [.pause 20]
      (waiting.write .clk false) := .single (.write rfl)
  have hopen : Relation.ReflTransGen PrinterStep (waiting.write .clk false)
      ⟨⟨true, false, false, !bit⟩, false, .sampling [], [], 0, [data], some data⟩ :=
    (Relation.ReflTransGen.single (.see rfl)).tail (.release rfl)
  exact ⟨_, hup.seq <| (Run.of_env hanswer).trans <| hdown.trans <| (Run.of_env hopen).trans <|
    .single (.pause 20)⟩

theorem exists_hanging (mode : PrintMode) (printerAddr : ℤ) (bytes : List UInt8) :
    ∃ trace s x, Run lateBus (sessionScript mode printerAddr bytes) Link.start trace s x ∧
      ¬ CanFinish lateBus s x := by
  let first := UInt8.ofInt (0x20 + printerAddr)
  let sampling : Link :=
    ⟨⟨true, false, true, false⟩, false, .sampling [], [], 0, [first], some first⟩
  obtain ⟨dataOut, hbits⟩ : ∃ dataOut, Run lateBus (sendBits first 7)
      (.deaf ⟨true, false, false, false⟩ [first] (some first)) (promptTrace (sendBits first 7)) []
      (.deaf ⟨true, false, false, dataOut⟩ [first] (some first)) :=
    run_deaf_sendBits true false false first 7
  obtain ⟨last, hlast⟩ := exists_run_announced (first.toNat.testBit 7) dataOut first
  have hup : Run lateBus [digitalWrite .clk HIGH, digitalWrite .dataOut LOW, delayMicroseconds 20]
      ⟨⟨true, false, false, !first.toNat.testBit 7⟩, false, .sampling [], [], 0, [first],
        some first⟩ _ [] sampling :=
    ((Run.single (.write rfl)).trans (.single (.write rfl))).trans (.single (.pause 20))
  have hrun := run_deaf_assertAttention.seq <| (run_deaf_beginFrame first).seq <|
    hbits.seq <| hlast.seq hup
  have hscript : sessionScript mode printerAddr bytes =
      [digitalWrite .attn HIGH, delayMicroseconds 2000, digitalWrite .clk HIGH,
        delayMicroseconds 2000] ++ (([.note (.enterFrame first)] ++ beginFrame 0) ++
      (sendBits first 7 ++ (sendBit (first.toNat.testBit 7) ++
        [digitalWrite .clk HIGH, digitalWrite .dataOut LOW, delayMicroseconds 20]))) ++
      whileDeviceReady :: ([delayMicroseconds 100, .note .leaveFrame] ++
        laterScript mode bytes) := by
    rw [sessionScript_eq, cbmSerialWriteFrame, cbmSerialWriteByte_eq, sendBits_succ]
    simp [endFrame, first]
  have hreach := hrun.append (whileDeviceReady :: ([delayMicroseconds 100, .note .leaveFrame] ++
    laterScript mode bytes))
  rw [← hscript] at hreach
  refine ⟨_, _, sampling, hreach, fun hfinish => ?_⟩
  have hahead := hfinish.goesAhead fun y => not_printerStep rfl rfl
  exact hahead rfl

/-- Whatever the session, a printer that answers attention late may miss the first byte
without any difference for the driver to see, and it may leave the driver waiting for
ever. -/
theorem late_answer (mode : PrintMode) (printerAddr : ℤ) (bytes : List UInt8) :
    LateAnswer mode printerAddr bytes where
  inTime _ _ _ hrun := maps_lateBus.run hrun
  unnoticed := exists_unnoticed mode printerAddr bytes
  hangs := exists_hanging mode printerAddr bytes

end DotMatrixPrinter
