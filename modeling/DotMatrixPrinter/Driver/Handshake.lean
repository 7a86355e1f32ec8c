/-
# The handshake with a printer

The driver and an addressed printer share the data line, which is high only while
both release it. The driver's side is its own script; the printer's side is not in
the repository and is given by what a CBM printer is known to do. It takes its
steps whenever it likes: it answers attention, sees a clock edge, releases the data
line for a frame it has been announced, and acknowledges a byte it has taken. Two
points of timing are assumed of it. It sees a clock edge before the driver's next
pin write, and it has answered attention before the first frame starts.

The invariant follows the frame. Between two frames the printer holds the line low;
the ready poll can only be left once the printer has released the line for this
frame, because the driver releases its own side before it polls; while bits are on
the wires the printer has taken all of them but the one whose edge it has not seen;
and the busy poll can only be left once the printer has taken the byte.
-/

import DotMatrixPrinter.Driver.Frame
import DotMatrixPrinter.LineScript.Interleaving

namespace DotMatrixPrinter

open LineScript Math.BitOrder

/-! ## The printer -/

/-- Where the printer is. -/
inductive Phase
  /-- Attention has not been asserted yet. -/
  | unaddressed
  /-- Attention is asserted and the printer has not answered. -/
  | called
  /-- No frame is open; the data line is pulled low. -/
  | waiting
  /-- A frame has been announced; the data line is still pulled low. -/
  | opened
  /-- The data line is released and these bits of the open frame are taken. -/
  | sampling (bits : List Bool)
  /-- The byte is appended; the data line is not pulled low yet. -/
  | full
  deriving DecidableEq

/-- Does the printer pull the data line low? -/
def Phase.pulls : Phase → Bool
  | .waiting | .opened => true
  | _ => false

/-- Has the printer a step to take that no clock edge asks for? -/
def Phase.acts : Phase → Bool
  | .called | .opened | .full => true
  | _ => false

/-- The driver's pins, the printer, and the bytes on both sides. -/
@[ext]
structure Link where
  levels : Levels
  /-- A falling clock edge the printer has not seen yet. -/
  edge : Bool
  phase : Phase
  received : List UInt8
  /-- Bits that came while the printer was not sampling. -/
  dropped : ℕ
  /-- The bytes the driver has started to send. -/
  sent : List UInt8
  /-- The byte the driver is sending, if it is inside a frame. -/
  sending : Option UInt8

namespace Link

/-- The data line: high while both sides release it. -/
def line (x : Link) : Bool := !x.levels.dataOut && !x.phase.pulls

/-- The printer sees a falling clock edge. -/
def seeEdge (x : Link) : Link :=
  match x.phase with
  | .unaddressed | .called => { x with edge := false }
  | .waiting => { x with edge := false, phase := .opened }
  | .opened => { x with edge := false, dropped := x.dropped + 1 }
  | .sampling bits =>
      let taken := bits ++ [x.line]
      if taken.length = 8 then
        { x with
          edge := false
          phase := .full
          received := x.received ++ [UInt8.ofNat (ofBits taken)] }
      else { x with edge := false, phase := .sampling taken }
  | .full => { x with edge := false, phase := .sampling [] }

/-- An edge is seen once, and no byte is sent by seeing it. -/
theorem seeEdge_edge (x : Link) : x.seeEdge.edge = false := by
  unfold seeEdge
  split
  all_goals first | rfl | (dsimp only; split <;> rfl)

theorem seeEdge_sent (x : Link) : x.seeEdge.sent = x.sent := by
  unfold seeEdge
  split
  all_goals first | rfl | (dsimp only; split <;> rfl)

/-- The driver writes a pin. -/
def write (x : Link) (pin : Pin) (level : Bool) : Link :=
  let x' := { x with levels := x.levels.set pin level }
  match pin, level with
  | .attn, true => if x.levels.attn then x' else { x' with phase := .called }
  | .clk, false => if x.levels.clk then { x' with edge := true } else x'
  | _, _ => x'

/-- The driver enters or leaves a frame. -/
def mark (x : Link) : Mark → Link
  | .pinMode _ _ => x
  | .enterFrame data => { x with sent := x.sent ++ [data], sending := some data }
  | .leaveFrame => { x with sending := none }

/-- The timing assumed of the printer. -/
structure MayWrite (x : Link) (pin : Pin) (level : Bool) : Prop where
  /-- It sees an edge before the next pin write. -/
  seen : x.edge = false
  /-- It has answered attention before a frame starts. -/
  answered : pin = .clk → level = false → x.levels.clk = true → x.phase ≠ .called

/-- The pins as `begin` leaves them for `cbm_serial_begin`, and a printer that has
just been reset. -/
def start : Link := ⟨⟨false, false, false, false⟩, false, .unaddressed, [], 0, [], none⟩

end Link

/-- The printer's own steps. -/
inductive PrinterStep : Link → Link → Prop
  | answer {x : Link} (h : x.phase = .called) : PrinterStep x { x with phase := .waiting }
  | see {x : Link} (h : x.edge = true) : PrinterStep x x.seeEdge
  | release {x : Link} (h : x.phase = .opened) :
      PrinterStep x { x with phase := .sampling [] }
  | acknowledge {x : Link} (h : x.phase = .full) (hclk : x.levels.clk = true) :
      PrinterStep x { x with phase := .waiting }

/-- The bus the driver's script runs on. -/
def bus : Plant Pin Mark Link where
  input := Link.line
  mayWrite := Link.MayWrite
  write := Link.write
  note := Link.mark
  env := PrinterStep

/-- How many steps the printer can take in a row. -/
def Link.pending (x : Link) : ℕ := (if x.edge then 2 else 0) + (if x.phase.acts then 1 else 0)

/-- Every step of the printer leaves it fewer. -/
theorem pending_lt_of_printerStep {x y : Link} (h : PrinterStep x y) : y.pending < x.pending := by
  cases h with
  | answer h | release h | acknowledge h _ => simp [Link.pending, Phase.acts, h]
  | see h =>
      have hedge := x.seeEdge_edge
      simp only [Link.pending, h, hedge, if_true, Bool.false_eq_true, if_false]
      split <;> split <;> omega

/-- Left alone, the printer comes to rest. -/
theorem exists_rest (x : Link) :
    ∃ y, Relation.ReflTransGen PrinterStep x y ∧ ∀ z, ¬ PrinterStep y z := by
  induction hn : x.pending using Nat.strong_induction_on generalizing x with
  | _ n ih =>
      by_cases hrest : ∀ z, ¬ PrinterStep x z
      · exact ⟨x, .refl, hrest⟩
      · push Not at hrest
        rcases hrest with ⟨z, hstep⟩
        have hless := pending_lt_of_printerStep hstep
        rw [hn] at hless
        rcases ih z.pending hless z rfl with ⟨y, hpath, hrest⟩
        exact ⟨y, .head hstep hpath, hrest⟩

/-! ## The invariant, phase by phase

Every assertion fixes the clock, the printer's phase and both lists. Attention and
reset are left free: no frame depends on them. -/

/-- No frame is on the wires and the driver releases the data line. -/
inductive Resting (clk : Bool) (received sent : List UInt8) (sending : Option UInt8) :
    Link → Prop
  | called (attn reset : Bool) : Resting clk received sent sending
      ⟨⟨attn, reset, clk, false⟩, false, .called, received, 0, sent, sending⟩
  | waiting (attn reset : Bool) : Resting clk received sent sending
      ⟨⟨attn, reset, clk, false⟩, false, .waiting, received, 0, sent, sending⟩

/-- The frame of `data` is announced and the driver waits for the line to go high. -/
inductive Opening (done : List UInt8) (data : UInt8) : Link → Prop
  | unseen (attn reset : Bool) : Opening done data
      ⟨⟨attn, reset, false, false⟩, true, .waiting, done, 0, done ++ [data], some data⟩
  | seen (attn reset : Bool) : Opening done data
      ⟨⟨attn, reset, false, false⟩, false, .opened, done, 0, done ++ [data], some data⟩
  | released (attn reset : Bool) : Opening done data
      ⟨⟨attn, reset, false, false⟩, false, .sampling [], done, 0, done ++ [data], some data⟩

/-- The clock is low after `n` bits of `data`; the printer may still have to see the
edge of the last one. -/
inductive Sampling (done : List UInt8) (data : UInt8) : ℕ → Link → Prop
  | settled {n : ℕ} (attn reset dataOut : Bool) (h : n < 8) : Sampling done data n
      ⟨⟨attn, reset, false, dataOut⟩, false, .sampling (bitsOf n data.toNat), done, 0,
        done ++ [data], some data⟩
  | pending {n : ℕ} (attn reset : Bool) (h : n < 8) : Sampling done data (n + 1)
      ⟨⟨attn, reset, false, !data.toNat.testBit n⟩, true,
        .sampling (bitsOf n data.toNat), done, 0, done ++ [data], some data⟩
  | complete (attn reset dataOut : Bool) : Sampling done data 8
      ⟨⟨attn, reset, false, dataOut⟩, false, .full, done ++ [data], 0, done ++ [data],
        some data⟩

/-- Bit `n` is on the data line and its falling edge is still to come. -/
inductive Driven (done : List UInt8) (data : UInt8) (n : ℕ) (clk : Bool) : Link → Prop
  | mk (attn reset : Bool) (h : n < 8) : Driven done data n clk
      ⟨⟨attn, reset, clk, !data.toNat.testBit n⟩, false, .sampling (bitsOf n data.toNat),
        done, 0, done ++ [data], some data⟩

/-- The byte is taken and the clock is high; `free` tells whether the driver has
released the data line. -/
inductive Closing (done : List UInt8) (data : UInt8) (free : Bool) : Link → Prop
  | full (attn reset dataOut : Bool) (h : free = true → dataOut = false) :
      Closing done data free
        ⟨⟨attn, reset, true, dataOut⟩, false, .full, done ++ [data], 0, done ++ [data],
          some data⟩
  | waiting (attn reset dataOut : Bool) (h : free = true → dataOut = false) :
      Closing done data free
        ⟨⟨attn, reset, true, dataOut⟩, false, .waiting, done ++ [data], 0, done ++ [data],
          some data⟩

/-! ## The printer's steps keep every assertion -/

/-- With every edge seen and nothing else to do, the printer waits for the driver. -/
theorem not_printerStep {x y : Link} (hedge : x.edge = false) (hphase : x.phase.acts = false) :
    ¬ PrinterStep x y := by
  intro hstep
  cases hstep with
  | see h => simp [hedge] at h
  | answer h | release h | acknowledge h _ => simp [h, Phase.acts] at hphase

theorem stable_start : Stable bus (· = Link.start) := by
  rintro x y rfl hstep
  exact absurd hstep (not_printerStep rfl rfl)

theorem stable_resting (clk : Bool) (received sent : List UInt8) (sending : Option UInt8) :
    Stable bus (Resting clk received sent sending) := by
  rintro x y hx hstep
  cases hx with
  | called attn reset =>
      cases hstep with
      | answer h => exact .waiting attn reset
      | see h | release h | acknowledge h _ => cases h
  | waiting attn reset => exact absurd hstep (not_printerStep rfl rfl)

theorem stable_opening (done : List UInt8) (data : UInt8) :
    Stable bus (Opening done data) := by
  rintro x y hx hstep
  cases hx with
  | unseen attn reset =>
      cases hstep with
      | see h => exact .seen attn reset
      | answer h | release h | acknowledge h _ => cases h
  | seen attn reset =>
      cases hstep with
      | release h => exact .released attn reset
      | answer h | see h | acknowledge h _ => cases h
  | released attn reset => exact absurd hstep (not_printerStep rfl rfl)

/-- The edge of bit `n` is seen while that bit is on the data line. -/
theorem seeEdge_bit {n : ℕ} (h : n < 8) (attn reset : Bool) (done : List UInt8)
    (data : UInt8) :
    Sampling done data (n + 1) (Link.seeEdge
      ⟨⟨attn, reset, false, !data.toNat.testBit n⟩, true, .sampling (bitsOf n data.toNat),
        done, 0, done ++ [data], some data⟩) := by
  have hline : bitsOf n data.toNat ++ [!(!data.toNat.testBit n) && !false] =
      bitsOf (n + 1) data.toNat := by
    rw [Bool.not_not, Bool.not_false, Bool.and_true, bitsOf_succ]
  simp only [Link.seeEdge, Link.line, Phase.pulls, hline, length_bitsOf]
  by_cases hlast : n + 1 = 8
  · rw [if_pos hlast, hlast, ofNat_ofBits_bitsOf]
    exact .complete attn reset _
  · rw [if_neg hlast]
    exact .settled attn reset _ (by omega)

theorem stable_sampling (done : List UInt8) (data : UInt8) (n : ℕ) :
    Stable bus (Sampling done data n) := by
  rintro x y hx hstep
  cases hx with
  | settled attn reset dataOut hn => exact absurd hstep (not_printerStep rfl rfl)
  | pending attn reset hn =>
      cases hstep with
      | see h => exact seeEdge_bit hn attn reset done data
      | answer h | release h | acknowledge h _ => cases h
  | complete attn reset dataOut =>
      cases hstep with
      | acknowledge h hclk => cases hclk
      | answer h | see h | release h => cases h

theorem stable_driven (done : List UInt8) (data : UInt8) (n : ℕ) (clk : Bool) :
    Stable bus (Driven done data n clk) := by
  rintro x y ⟨attn, reset, hn⟩ hstep
  exact absurd hstep (not_printerStep rfl rfl)

theorem stable_closing (done : List UInt8) (data : UInt8) (free : Bool) :
    Stable bus (Closing done data free) := by
  rintro x y hx hstep
  cases hx with
  | full attn reset dataOut hfree =>
      cases hstep with
      | acknowledge h _ => exact .waiting attn reset dataOut hfree
      | answer h | see h | release h => cases h
  | waiting attn reset dataOut hfree => exact absurd hstep (not_printerStep rfl rfl)

end DotMatrixPrinter
