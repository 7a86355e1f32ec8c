/-
# Agreement of driver and printer

The outline of a frame, command by command, and from it the outline of a session:
the two header frames under attention and then any frames. An outline speaks about
every interleaving with the printer, so its consequences hold at every point any
run can reach. No bit is dropped, the printer's bytes are an initial part of the
driver's, both poll loops are left for the reason they are meant to be left for,
and wherever a run has got to it can still finish.
-/

import DotMatrixPrinter.Driver.Handshake

namespace DotMatrixPrinter

open LineScript Math.BitOrder

/-- What holds of the two sides at every point. -/
structure Agreement (x : Link) : Prop where
  dropped : x.dropped = 0
  /-- Between two frames the printer has every byte that was sent. -/
  between : x.sending = none → x.received = x.sent
  /-- Inside a frame it has them all, or all but the byte of that frame. -/
  inFlight : ∀ data, x.sending = some data →
    x.received = x.sent ∨ x.received ++ [data] = x.sent
  /-- The bits it has taken are the first bits of the byte of that frame. -/
  taken : ∀ bits, x.phase = .sampling bits → ∃ data, x.sending = some data ∧
    x.received ++ [data] = x.sent ∧ bits <+: bitsOf 8 data.toNat

theorem Agreement.received_isPrefix {x : Link} (h : Agreement x) : x.received <+: x.sent := by
  cases hsending : x.sending with
  | none => exact ⟨[], by rw [List.append_nil, h.between hsending]⟩
  | some data =>
      rcases h.inFlight data hsending with heq | heq
      · exact ⟨[], by rw [List.append_nil, heq]⟩
      · exact ⟨[data], heq⟩

/-- What holds before a command of the driver. -/
structure Obligation (c : PinCommand) (x : Link) : Prop where
  agreement : Agreement x
  /-- The driver releases the data line while it polls. -/
  released : ∀ level us, c = .pollWhile level us → x.levels.dataOut = false
  /-- The ready poll is answered by a printer that is about to take this frame. -/
  ready : c = whileNotDeviceReady → x.line = true → x.phase = .sampling []
  /-- The busy poll is answered by a printer that has taken this frame's byte. -/
  taken : c = whileDeviceReady → x.line = false → x.phase = .waiting ∧ x.received = x.sent

theorem Agreement.obligation {c : PinCommand} {x : Link} (h : Agreement x)
    (hc : ∀ level us, c ≠ .pollWhile level us) : Obligation c x where
  agreement := h
  released level us heq := absurd heq (hc level us)
  ready heq := absurd heq (hc _ _)
  taken heq := absurd heq (hc _ _)

/-! ## Every assertion implies agreement -/

/-- A state with every byte handed over. -/
theorem agreement_of_handedOver {x : Link} (hdropped : x.dropped = 0) (heq : x.received = x.sent)
    (hphase : ∀ bits, x.phase ≠ .sampling bits) : Agreement x where
  dropped := hdropped
  between _ := heq
  inFlight _ _ := Or.inl heq
  taken bits h := absurd h (hphase bits)

/-- A state inside the frame of `data` with the byte on its way. -/
theorem agreement_of_taking {x : Link} {done : List UInt8} {data : UInt8}
    (hdropped : x.dropped = 0) (hreceived : x.received = done) (hsent : x.sent = done ++ [data])
    (hsending : x.sending = some data)
    (hbits : ∀ bits, x.phase = .sampling bits → bits <+: bitsOf 8 data.toNat) :
    Agreement x where
  dropped := hdropped
  between hnone := by simp [hsending] at hnone
  inFlight data' hsome := by
    obtain rfl : data = data' := Option.some.inj (hsending.symm.trans hsome)
    exact Or.inr (by rw [hreceived, hsent])
  taken bits hphase := ⟨data, hsending, by rw [hreceived, hsent], hbits bits hphase⟩

theorem Resting.received_eq {clk : Bool} {received sent : List UInt8} {sending : Option UInt8}
    {x : Link} (h : Resting clk received sent sending x) : x.received = received := by
  cases h with
  | called | waiting => rfl

/-- Both sides have the same bytes. -/
theorem Resting.agreement_of_eq {clk : Bool} {bytes : List UInt8} {sending : Option UInt8}
    {x : Link} (h : Resting clk bytes bytes sending x) : Agreement x := by
  cases h with
  | called | waiting => exact agreement_of_handedOver rfl rfl (by simp)

/-- The byte of the frame that was just entered is on its way. -/
theorem Resting.agreement_entered {clk : Bool} {done : List UInt8} {data : UInt8} {x : Link}
    (h : Resting clk done (done ++ [data]) (some data) x) : Agreement x := by
  cases h with
  | called | waiting =>
      exact agreement_of_taking rfl rfl rfl rfl fun bits hbits => by cases hbits

theorem Opening.agreement {done : List UInt8} {data : UInt8} {x : Link}
    (h : Opening done data x) : Agreement x := by
  cases h with
  | unseen | seen => exact agreement_of_taking rfl rfl rfl rfl fun bits hbits => by cases hbits
  | released =>
      apply agreement_of_taking rfl rfl rfl rfl
      intro bits hbits
      cases hbits
      exact List.nil_prefix

theorem Sampling.agreement {done : List UInt8} {data : UInt8} {n : ℕ} {x : Link}
    (h : Sampling done data n x) : Agreement x := by
  cases h with
  | settled attn reset dataOut hn | pending attn reset hn =>
      apply agreement_of_taking rfl rfl rfl rfl
      intro bits hbits
      cases hbits
      exact bitsOf_isPrefix hn.le data.toNat
  | complete => exact agreement_of_handedOver rfl rfl (by simp)

theorem Driven.agreement {done : List UInt8} {data : UInt8} {n : ℕ} {clk : Bool} {x : Link}
    (h : Driven done data n clk x) : Agreement x := by
  rcases h with ⟨attn, reset, hn⟩
  apply agreement_of_taking rfl rfl rfl rfl
  intro bits hbits
  cases hbits
  exact bitsOf_isPrefix hn.le data.toNat

theorem Closing.agreement {done : List UInt8} {data : UInt8} {free : Bool} {x : Link}
    (h : Closing done data free x) : Agreement x := by
  cases h with
  | full | waiting => exact agreement_of_handedOver rfl rfl (by simp)

/-! ## The outline of a frame -/

/-- A delay changes nothing. -/
theorem outline_delay {Q : Link → Prop} (hQ : Stable bus Q) (h : ∀ x, Q x → Agreement x)
    (us : ℕ) : Outline bus Obligation Q [delayMicroseconds us] Q :=
  Outline.pause hQ fun x hx => (h x hx).obligation (by simp)

theorem outline_enterFrame (done : List UInt8) (data : UInt8) :
    Outline bus Obligation (Resting true done done none) [.note (.enterFrame data)]
      (Resting true done (done ++ [data]) (some data)) := by
  apply Outline.note (stable_resting _ _ _ _) (stable_resting _ _ _ _)
  · exact fun x hx => hx.agreement_of_eq.obligation (by simp)
  · intro x hx
    cases hx with
    | called attn reset => exact .called attn reset
    | waiting attn reset => exact .waiting attn reset

/-- The frame is announced once the printer has answered attention. -/
theorem outline_announce (done : List UInt8) (data : UInt8) :
    Outline bus Obligation (Resting true done (done ++ [data]) (some data))
      [digitalWrite .clk LOW] (Opening done data) := by
  apply Outline.write (stable_resting _ _ _ _) (stable_opening _ _)
  · exact fun x hx => hx.agreement_entered.obligation (by simp)
  · intro x hx hmay
    cases hx with
    | called attn reset => exact absurd rfl (hmay.answered rfl rfl rfl)
    | waiting attn reset => exact .unseen attn reset
  · intro x hx
    cases hx with
    | called attn reset =>
        exact ⟨_, .single (.answer rfl), rfl, fun _ _ _ hcalled => by cases hcalled⟩
    | waiting attn reset => exact ⟨_, .refl, rfl, fun _ _ _ hcalled => by cases hcalled⟩

/-- Before the release the printer pulls the line low, so only the release ends the
ready poll. -/
theorem outline_whileNotDeviceReady (done : List UInt8) (data : UInt8) :
    Outline bus Obligation (Opening done data) [whileNotDeviceReady] (Sampling done data 0) := by
  apply Outline.pollWhile (stable_opening _ _) (stable_sampling _ _ _)
  · intro x hx
    refine ⟨⟨hx.agreement, fun _ _ _ => by cases hx <;> rfl, fun _ hline => ?_, fun h => ?_⟩,
      hx.agreement.obligation (by simp)⟩
    · cases hx with
      | unseen | seen => cases hline
      | released => rfl
    · cases h
  · intro x hx hinput
    cases hx with
    | unseen | seen => exact absurd rfl hinput
    | released attn reset => exact .settled attn reset false (by decide)
  · intro x hx
    cases hx with
    | unseen attn reset =>
        exact ⟨_, (Relation.ReflTransGen.single (.see rfl)).tail (.release rfl),
          fun h => by cases h⟩
    | seen attn reset => exact ⟨_, .single (.release rfl), fun h => by cases h⟩
    | released attn reset => exact ⟨_, .refl, fun h => by cases h⟩

theorem outline_beginFrame (done : List UInt8) (data : UInt8) (lastFrame : ℤ) :
    Outline bus Obligation (Resting true done (done ++ [data]) (some data))
      (beginFrame lastFrame) (Sampling done data 0) := by
  have hopen := (outline_announce done data).append (outline_whileNotDeviceReady done data)
  have hsampling := stable_sampling done data 0
  unfold beginFrame
  by_cases hlast : lastFrame = 1
  · rw [if_pos hlast]
    exact hopen.append (Outline.nil hsampling)
  · rw [if_neg hlast]
    exact hopen.append (outline_delay hsampling (fun _ hx => hx.agreement) 40)

/-- Bit `n` is put on the data line after the printer has seen the edge before it. -/
theorem outline_driveBit (done : List UInt8) (data : UInt8) {n : ℕ} (hn : n < 8) :
    Outline bus Obligation (Sampling done data n) [.write .dataOut !data.toNat.testBit n]
      (Driven done data n false) := by
  apply Outline.write (stable_sampling _ _ _) (stable_driven _ _ _ _)
  · exact fun x hx => hx.agreement.obligation (by simp)
  · intro x hx hmay
    cases hx with
    | settled attn reset dataOut h => exact ⟨attn, reset, hn⟩
    | pending => exact absurd hmay.seen (by simp)
    | complete => exact absurd hn (by simp)
  · intro x hx
    cases hx with
    | settled => exact ⟨_, .refl, rfl, fun h => by cases h⟩
    | pending => exact ⟨_, .single (.see rfl), Link.seeEdge_edge _, fun h => by cases h⟩
    | complete => exact absurd hn (by simp)

theorem outline_clockHigh (done : List UInt8) (data : UInt8) (n : ℕ) :
    Outline bus Obligation (Driven done data n false) [.write .clk true]
      (Driven done data n true) := by
  apply Outline.write (stable_driven _ _ _ _) (stable_driven _ _ _ _)
  · exact fun x hx => hx.agreement.obligation (by simp)
  · rintro x ⟨attn, reset, hn⟩ hmay
    exact ⟨attn, reset, hn⟩
  · rintro x ⟨attn, reset, hn⟩
    exact ⟨_, .refl, rfl, fun _ h => by cases h⟩

theorem outline_clockLow (done : List UInt8) (data : UInt8) (n : ℕ) :
    Outline bus Obligation (Driven done data n true) [.write .clk false]
      (Sampling done data (n + 1)) := by
  apply Outline.write (stable_driven _ _ _ _) (stable_sampling _ _ _)
  · exact fun x hx => hx.agreement.obligation (by simp)
  · rintro x ⟨attn, reset, hn⟩ hmay
    exact .pending attn reset hn
  · rintro x ⟨attn, reset, hn⟩
    exact ⟨_, .refl, rfl, fun _ _ _ h => by cases h⟩

theorem outline_sendBit (done : List UInt8) (data : UInt8) {n : ℕ} (hn : n < 8) :
    Outline bus Obligation (Sampling done data n) (sendBit (data.toNat.testBit n))
      (Sampling done data (n + 1)) := by
  have hdriven (clk : Bool) := outline_delay (stable_driven done data n clk)
    (fun _ hx => hx.agreement) 20
  exact ((outline_driveBit done data hn).append (hdriven false)).append
    (((outline_clockHigh done data n).append (hdriven true)).append
      ((outline_clockLow done data n).append
        (outline_delay (stable_sampling done data (n + 1)) (fun _ hx => hx.agreement) 20)))

theorem outline_sendBits (done : List UInt8) (data : UInt8) {n : ℕ} (hn : n ≤ 8) :
    Outline bus Obligation (Sampling done data 0) (sendBits data n) (Sampling done data n) := by
  induction n with
  | zero => exact Outline.nil (stable_sampling done data 0)
  | succ n ih =>
      rw [sendBits_succ]
      exact (ih (by omega)).append (outline_sendBit done data hn)

/-- The clock goes up after the printer has seen the last edge. -/
theorem outline_clockUp (done : List UInt8) (data : UInt8) :
    Outline bus Obligation (Sampling done data 8) [digitalWrite .clk HIGH]
      (Closing done data false) := by
  apply Outline.write (stable_sampling _ _ _) (stable_closing _ _ _)
  · exact fun x hx => hx.agreement.obligation (by simp)
  · intro x hx hmay
    cases hx with
    | settled _ _ _ h => exact absurd h (by simp)
    | pending => exact absurd hmay.seen (by simp)
    | complete attn reset dataOut => exact .full attn reset dataOut (by simp)
  · intro x hx
    cases hx with
    | settled _ _ _ h => exact absurd h (by simp)
    | pending => exact ⟨_, .single (.see rfl), Link.seeEdge_edge _, fun _ h => by cases h⟩
    | complete => exact ⟨_, .refl, rfl, fun _ h => by cases h⟩

theorem outline_releaseData (done : List UInt8) (data : UInt8) :
    Outline bus Obligation (Closing done data false) [digitalWrite .dataOut LOW]
      (Closing done data true) := by
  apply Outline.write (stable_closing _ _ _) (stable_closing _ _ _)
  · exact fun x hx => hx.agreement.obligation (by simp)
  · intro x hx hmay
    cases hx with
    | full attn reset => exact .full attn reset false fun _ => rfl
    | waiting attn reset => exact .waiting attn reset false fun _ => rfl
  · intro x hx
    cases hx with
    | full | waiting => exact ⟨_, .refl, rfl, fun h => by cases h⟩

/-- The driver has released the line, so only the acknowledgment ends the busy poll. -/
theorem outline_whileDeviceReady (done : List UInt8) (data : UInt8) :
    Outline bus Obligation (Closing done data true) [whileDeviceReady]
      (Resting true (done ++ [data]) (done ++ [data]) (some data)) := by
  have hfull (attn reset dataOut : Bool) (h : true = true → dataOut = false) :
      Link.line ⟨⟨attn, reset, true, dataOut⟩, false, .full, done ++ [data], 0, done ++ [data],
        some data⟩ = true := by
    rw [h rfl]
    rfl
  apply Outline.pollWhile (stable_closing _ _ _) (stable_resting _ _ _ _)
  · intro x hx
    refine ⟨⟨hx.agreement, fun _ _ _ => ?_, fun h => ?_, fun _ hline => ?_⟩,
      hx.agreement.obligation (by simp)⟩
    · cases hx with
      | full _ _ _ h | waiting _ _ _ h => exact h rfl
    · cases h
    · cases hx with
      | full attn reset dataOut h =>
          rw [hfull attn reset dataOut h] at hline
          cases hline
      | waiting => exact ⟨rfl, rfl⟩
  · intro x hx hinput
    cases hx with
    | full attn reset dataOut h => exact absurd (hfull attn reset dataOut h) hinput
    | waiting attn reset dataOut h =>
        obtain rfl := h rfl
        exact .waiting attn reset
  · intro x hx
    cases hx with
    | full attn reset dataOut h =>
        exact ⟨_, .single (.acknowledge rfl rfl), by simp [bus, Link.line, Phase.pulls]⟩
    | waiting attn reset dataOut h =>
        exact ⟨_, .refl, by simp [bus, Link.line, Phase.pulls]⟩

theorem outline_endFrame (done : List UInt8) (data : UInt8) :
    Outline bus Obligation (Sampling done data 8) endFrame
      (Resting true (done ++ [data]) (done ++ [data]) (some data)) :=
  ((outline_clockUp done data).append (outline_releaseData done data)).append
    ((outline_delay (stable_closing done data true) (fun _ hx => hx.agreement) 20).append
      ((outline_whileDeviceReady done data).append
        (outline_delay (stable_resting _ _ _ _) (fun _ hx => hx.agreement_of_eq) 100)))

theorem outline_leaveFrame (bytes : List UInt8) (data : UInt8) :
    Outline bus Obligation (Resting true bytes bytes (some data)) [.note .leaveFrame]
      (Resting true bytes bytes none) := by
  apply Outline.note (stable_resting _ _ _ _) (stable_resting _ _ _ _)
  · exact fun x hx => hx.agreement_of_eq.obligation (by simp)
  · intro x hx
    cases hx with
    | called attn reset => exact .called attn reset
    | waiting attn reset => exact .waiting attn reset

/-- A frame hands over its byte, and leaves both sides as it found them. -/
theorem outline_cbmSerialWriteFrame (lastFrame : ℤ) (done : List UInt8) (data : UInt8) :
    Outline bus Obligation (Resting true done done none) (cbmSerialWriteFrame data lastFrame)
      (Resting true (done ++ [data]) (done ++ [data]) none) := by
  rw [cbmSerialWriteFrame, cbmSerialWriteByte_eq]
  exact ((((outline_enterFrame done data).append (outline_beginFrame done data lastFrame)).append
    (outline_sendBits done data le_rfl)).append (outline_endFrame done data)).append
    (outline_leaveFrame (done ++ [data]) data)

/-! ## Sessions -/

theorem outline_sendFrames (done bytes : List UInt8) :
    Outline bus Obligation (Resting true done done none) (sendFrames bytes)
      (Resting true (done ++ bytes) (done ++ bytes) none) :=
  Outline.flatMap (F := fun bytes => Resting true bytes bytes none)
    (fun bytes => stable_resting true bytes bytes none)
    (fun done data => outline_cbmSerialWriteFrame 0 done data) done bytes

/-- Attention is asserted and the clock raised before the printer need have answered. -/
theorem outline_assertAttention :
    Outline bus Obligation (· = Link.start)
      [digitalWrite .attn HIGH, delayMicroseconds 2000, digitalWrite .clk HIGH,
        delayMicroseconds 2000]
      (Resting true [] [] none) := by
  have hrise : Outline bus Obligation (· = Link.start) [digitalWrite .attn HIGH]
      (Resting false [] [] none) := by
    apply Outline.write stable_start (stable_resting _ _ _ _)
    · rintro x rfl
      have hstart : Agreement Link.start := agreement_of_handedOver rfl rfl (by simp [Link.start])
      exact hstart.obligation (by simp)
    · rintro x rfl hmay
      exact .called true false
    · rintro x rfl
      exact ⟨_, .refl, rfl, fun h => by cases h⟩
  have hclock : Outline bus Obligation (Resting false [] [] none) [digitalWrite .clk HIGH]
      (Resting true [] [] none) := by
    apply Outline.write (stable_resting _ _ _ _) (stable_resting _ _ _ _)
    · exact fun x hx => hx.agreement_of_eq.obligation (by simp)
    · intro x hx hmay
      cases hx with
      | called attn reset => exact .called attn reset
      | waiting attn reset => exact .waiting attn reset
    · intro x hx
      cases hx with
      | called | waiting => exact ⟨_, .refl, rfl, fun _ h => by cases h⟩
  have hdelay (clk : Bool) := outline_delay (stable_resting clk [] [] none)
    (fun _ hx => hx.agreement_of_eq) 2000
  exact (hrise.append (hdelay false)).append (hclock.append (hdelay true))

theorem outline_releaseAttention (bytes : List UInt8) :
    Outline bus Obligation (Resting true bytes bytes none)
      [delayMicroseconds 20, digitalWrite .attn LOW] (Resting true bytes bytes none) := by
  have hfall : Outline bus Obligation (Resting true bytes bytes none) [digitalWrite .attn LOW]
      (Resting true bytes bytes none) := by
    apply Outline.write (stable_resting _ _ _ _) (stable_resting _ _ _ _)
    · exact fun x hx => hx.agreement_of_eq.obligation (by simp)
    · intro x hx hmay
      cases hx with
      | called attn reset => exact .called false reset
      | waiting attn reset => exact .waiting false reset
    · intro x hx
      cases hx with
      | called | waiting => exact ⟨_, .refl, rfl, fun h => by cases h⟩
  exact (outline_delay (stable_resting _ _ _ _) (fun _ hx => hx.agreement_of_eq) 20).append hfall

/-- The bytes a session sends: the header of `cbm_serial_begin` and the data. -/
def sessionBytes (mode : PrintMode) (printerAddr : ℤ) (bytes : List UInt8) : List UInt8 :=
  [UInt8.ofInt (0x20 + printerAddr), UInt8.ofInt (0x60 + mode.toInt)] ++ bytes

/-- The session itself. -/
def sessionScript (mode : PrintMode) (printerAddr : ℤ) (bytes : List UInt8) : PinScript :=
  cbmSerialBegin mode printerAddr ++ sendFrames bytes

theorem outline_session (mode : PrintMode) (printerAddr : ℤ) (bytes : List UInt8) :
    Outline bus Obligation (· = Link.start) (sessionScript mode printerAddr bytes)
      (Resting true (sessionBytes mode printerAddr bytes)
        (sessionBytes mode printerAddr bytes) none) :=
  (((outline_assertAttention.append
    (outline_cbmSerialWriteFrame 0 [] (UInt8.ofInt (0x20 + printerAddr)))).append
    (outline_cbmSerialWriteFrame 0 _ (UInt8.ofInt (0x60 + mode.toInt)))).append
    (outline_releaseAttention _)).append (outline_sendFrames _ bytes)

theorem framesOf_session (mode : PrintMode) (printerAddr : ℤ) (bytes : List UInt8) :
    framesOf (sessionScript mode printerAddr bytes) = sessionBytes mode printerAddr bytes := by
  have hbegin : framesOf (cbmSerialBegin mode printerAddr) =
      [UInt8.ofInt (0x20 + printerAddr), UInt8.ofInt (0x60 + mode.toInt)] :=
    framesOf_begin mode printerAddr
  rw [sessionScript, sessionBytes, framesOf_append, framesOf_sendFrames, hbegin]

/-- A printer that has taken part in a whole session has received its bytes. -/
theorem received_of_session {mode : PrintMode} {printerAddr : ℤ} {bytes : List UInt8}
    {trace : PinTrace} {x : Link}
    (h : Run bus (sessionScript mode printerAddr bytes) Link.start trace [] x) :
    x.received = sessionBytes mode printerAddr bytes := by
  cases (outline_session mode printerAddr bytes _ rfl _ _ _ h).done rfl with
  | called | waiting => rfl

/-- One step sends the next frame's byte or leaves the frames to come as they are. -/
theorem sent_step {s s' : PinScript} {x y : Link} {e : Option (Event Pin Mark)}
    (h : Step bus s x e s' y) : y.sent ++ framesOf s' = x.sent ++ framesOf s := by
  have hcons (c : PinCommand) (s : PinScript) : framesOf (c :: s) = framesOf [c] ++ framesOf s :=
    framesOf_append [c] s
  cases h with
  | env hstep =>
      cases hstep with
      | see => rw [Link.seeEdge_sent]
      | answer | release | acknowledge => rfl
  | @write s x pin level =>
      have hsent : (x.write pin level).sent = x.sent := by
        cases pin <;> cases level <;> simp only [Link.write] <;> split <;> rfl
      rw [hcons]
      exact congrArg (· ++ framesOf s') hsent
  | note mark =>
      rw [hcons]
      cases mark with
      | enterFrame data => exact List.append_assoc _ _ _
      | pinMode | leaveFrame => rfl
  | pause | sample | leave | again => rfl

/-- What has been sent and what is still to come are together what was to come. -/
theorem sent_append_framesOf {s s' : PinScript} {x y : Link} {trace : PinTrace}
    (h : Run bus s x trace s' y) : y.sent ++ framesOf s' = x.sent ++ framesOf s :=
  h.invariant (J := fun s' y => y.sent ++ framesOf s' = x.sent ++ framesOf s) rfl
    fun hJ hstep => (sent_step hstep).trans hJ

/-- An outline that hands over every byte agrees at every point. -/
theorem agreement_of_outlined {bytes : List UInt8} {s : PinScript} {x : Link}
    (h : Outlined bus Obligation (Resting true bytes bytes none) s x) : Agreement x := by
  cases s with
  | nil => exact (h.done rfl).agreement_of_eq
  | cons c rest => exact (h.next c rest rfl).agreement

/-- What the two sides agree on when the driver still has `s` to run of a session
that sends `total`. -/
structure HandshakeAgreement (total : List UInt8) (s : PinScript) (x : Link) : Prop where
  /-- No bit is dropped, and the bytes agree between frames and inside them. -/
  agreement : Agreement x
  /-- The printer has an initial part of what was sent. -/
  received : x.received <+: x.sent
  /-- What was sent is an initial part of the session, and the rest is still to come. -/
  sent : x.sent ++ framesOf s = total
  /-- Neither poll is answered by the driver's own level or by an earlier frame. -/
  next : ∀ c rest, s = c :: rest → Obligation c x
  /-- When the driver is done the printer has every byte once and in order. -/
  finished : s = [] → x.received = total
  /-- No deadlock: left alone the printer comes to rest, and the driver goes ahead. -/
  progress : ∀ c rest, s = c :: rest → ∃ y, Relation.ReflTransGen PrinterStep x y ∧
    (∀ z, ¬ PrinterStep y z) ∧ GoesAhead bus y c
  /-- The driver can still get to its end. -/
  canFinish : CanFinish bus s x

/-- At every point of every interleaving of a session with the printer the two sides
agree. -/
theorem handshake_agreement (mode : PrintMode) (printerAddr : ℤ) (bytes : List UInt8)
    {trace : PinTrace} {s : PinScript} {x : Link}
    (h : Run bus (sessionScript mode printerAddr bytes) Link.start trace s x) :
    HandshakeAgreement (sessionBytes mode printerAddr bytes) s x := by
  have hpoint := outline_session mode printerAddr bytes _ rfl _ _ _ h
  have hsent : x.sent ++ framesOf s = sessionBytes mode printerAddr bytes :=
    (sent_append_framesOf h).trans (framesOf_session mode printerAddr bytes)
  have hagree := agreement_of_outlined hpoint
  refine ⟨hagree, hagree.received_isPrefix, hsent, hpoint.next, ?_, ?_, hpoint.canFinish⟩
  · rintro rfl
    exact received_of_session h
  · rintro c rest rfl
    rcases exists_rest x with ⟨y, hpath, hrest⟩
    have hlater := outline_session mode printerAddr bytes _ rfl _ _ _ (h.trans (.of_env hpath))
    exact ⟨y, hpath, hrest, hlater.canFinish.goesAhead hrest⟩

/-- Some interleaving finishes, and leaves the printer with the whole session. -/
theorem handshake_agreement_finished :
    ∃ trace x, Run bus (sessionScript .Graphic 4 [72, 13]) Link.start trace [] x ∧
      x.received = [0x24, 0x60, 72, 13] := by
  rcases (handshake_agreement .Graphic 4 [72, 13] .start).canFinish with ⟨trace, x, hrun⟩
  exact ⟨trace, x, hrun, (handshake_agreement .Graphic 4 [72, 13] hrun).finished rfl⟩

end DotMatrixPrinter
