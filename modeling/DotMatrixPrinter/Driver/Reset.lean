/-
# Before the first session

`begin` first drives every output pin low and pulses the reset line, whatever levels the
pins had when the board came up. The printer has not been addressed yet, so all it may
do meanwhile is to see a clock edge it has no use for. When the pulse is over the link
is where a session starts.
-/

import DotMatrixPrinter.Driver.Agreement

namespace DotMatrixPrinter

open LineScript

/-- The board has come up with these levels and the printer has not been talked to. -/
def Link.powerUp (levels : Levels) : Link := ⟨levels, false, .unaddressed, [], 0, [], none⟩

/-- The printer has not been addressed. `settled` tells that it has no edge to see. -/
inductive Silent (settled : Bool) (levels : Levels) : Link → Prop
  | mk (edge : Bool) (h : settled = true → edge = false) :
      Silent settled levels ⟨levels, edge, .unaddressed, [], 0, [], none⟩

variable {settled : Bool} {levels : Levels}

theorem stable_silent : Stable bus (Silent settled levels) := by
  rintro x y ⟨edge, hedge⟩ hstep
  cases hstep with
  | see h => exact .mk false fun _ => rfl
  | answer h | release h | acknowledge h _ => cases h

theorem Silent.agreement {x : Link} (h : Silent settled levels x) : Agreement x := by
  cases h with
  | mk edge hedge => exact agreement_of_handedOver rfl rfl (by simp)

/-- A pin is driven. Only a falling clock leaves an edge to see, and only a rising
attention line would address the printer. -/
theorem outline_silent_write (settled : Bool) (levels : Levels) (pin : Pin) (level : Bool)
    (haddress : ¬ (pin = .attn ∧ level = true))
    (hedge : settled = true → pin ≠ .clk ∨ level = true) :
    Outline bus Obligation (Silent false levels) [.write pin level]
      (Silent settled (levels.set pin level)) := by
  apply Outline.write stable_silent stable_silent
  · exact fun x hx => hx.agreement.obligation (by simp)
  · rintro x ⟨edge, -⟩ hmay
    obtain rfl : edge = false := hmay.seen
    cases pin <;> cases level
    case clk.false =>
      have hunsettled : ¬ settled = true := by simpa using hedge
      show Silent settled _ (if levels.clk then _ else _)
      split
      · exact .mk true fun h => absurd h hunsettled
      · exact .mk false fun _ => rfl
    case attn.true => exact absurd ⟨rfl, rfl⟩ haddress
    all_goals exact .mk false fun _ => rfl
  · rintro x ⟨edge, -⟩
    cases edge with
    | false => exact ⟨_, .refl, rfl, fun _ _ _ h => by cases h⟩
    | true => exact ⟨_, .single (.see rfl), rfl, fun _ _ _ h => by cases h⟩

theorem outline_silent_delay (us : ℕ) :
    Outline bus Obligation (Silent settled levels) [.pause us] (Silent settled levels) :=
  Outline.pause stable_silent fun _ hx => hx.agreement.obligation (by simp)

theorem outline_silent_pinMode (pin : Pin) (direction : PinDirection) :
    Outline bus Obligation (Silent settled levels) [pinMode pin direction]
      (Silent settled levels) := by
  apply Outline.note stable_silent stable_silent
  · exact fun x hx => hx.agreement.obligation (by simp)
  · exact fun x hx => hx

/-- The reset pulse leaves the link where a session starts. -/
theorem outline_resetPrinter (levels : Levels) :
    Outline bus Obligation (· = Link.powerUp levels) CBM.resetPrinter (· = Link.start) := by
  have hmode (pin : Pin) (direction : PinDirection) :
      Outline bus Obligation (Silent false levels) [pinMode pin direction]
        (Silent false levels) := outline_silent_pinMode pin direction
  have hmodes := (hmode .reset .OUTPUT).append <| (hmode .attn .OUTPUT).append <|
    (hmode .clk .OUTPUT).append <| (hmode .dataOut .OUTPUT).append (hmode .dataIn .INPUT)
  have hlow := (outline_silent_write false levels .reset false (by simp) (by simp)).append <|
    (outline_silent_write false _ .attn false (by simp) (by simp)).append <|
    (outline_silent_write false _ .clk false (by simp) (by simp)).append
      (outline_silent_write false _ .dataOut false (by simp) (by simp))
  have hpulse := (outline_silent_write false ⟨false, false, false, false⟩ .reset true (by simp)
    (by simp)).append <| (outline_silent_delay 100000).append <|
    (outline_silent_write true _ .reset false (by simp) (by simp)).append
      (outline_silent_delay 3000000)
  refine (hmodes.append (hlow.append hpulse)).consequence ?_ ?_
  · rintro x rfl
    exact .mk false fun _ => rfl
  · rintro x ⟨edge, hedge⟩
    rw [hedge rfl]
    rfl

end DotMatrixPrinter
