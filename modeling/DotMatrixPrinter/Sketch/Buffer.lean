/-
# The message buffer

The buffer is never cleared and its bounds are checked in one place only, so what
keeps it safe is spread over the sketch: the index is reset whenever the buffer has
been printed, every byte is stored right behind the last one, and a terminator is
stored before every print.

The history of a session tells which cells were stored since the last print. Its
invariant says that these are the cells from zero on, holding what is being typed.
A print then stops at the latest at the terminator stored last, so it reads nothing
an earlier block or an earlier message has left.
-/

import DotMatrixPrinter.Sketch.Dialog

namespace DotMatrixPrinter

open Math.TerminatedScan

variable {T : Target}

/-! ## The current block -/

/-- The cells stored since the buffer was last printed, with the bytes stored. -/
def Effect.blockAfter (block : List (ℤ × UInt8)) : Effect → List (ℤ × UInt8)
  | .store index value => block ++ [(index, value)]
  | .printed _ _ => []
  | _ => block

/-- The cells stored in the block that is open after some effects. -/
def currentBlock (effects : List Effect) : List (ℤ × UInt8) :=
  effects.foldl Effect.blockAfter []

theorem currentBlock_concat (effects : List Effect) (e : Effect) :
    currentBlock (effects ++ [e]) = e.blockAfter (currentBlock effects) := by
  simp [currentBlock]

/-- The cells from zero on, holding `bytes`. -/
def cellsOf (bytes : List UInt8) : List (ℤ × UInt8) :=
  bytes.zipIdx.map fun cell => ((cell.2 : ℤ), cell.1)

theorem cellsOf_concat (bytes : List UInt8) (value : UInt8) :
    cellsOf (bytes ++ [value]) = cellsOf bytes ++ [((bytes.length : ℤ), value)] := by
  simp [cellsOf, List.zipIdx_append]

theorem mem_cellsOf {bytes : List UInt8} {i : ℕ} {value : UInt8}
    (h : bytes[i]? = some value) : ((i : ℤ), value) ∈ cellsOf bytes :=
  List.mem_map.mpr ⟨(value, i), List.mk_mem_zipIdx_iff_getElem?.mpr h, rfl⟩

/-! ## Safe effects -/

/-- What makes a print of the buffer safe, when it comes after the effects `earlier`. -/
structure PrintSafe (earlier : List Effect) (text : CharPtr) (what : Printed) : Prop where
  /-- It reads inside the buffer. -/
  inBounds : ∀ i ∈ what.loads, i ≤ 999
  /-- Every byte it reads was stored in the current block. -/
  fresh : ∀ i ∈ what.loads, ∃ value, text[i]? = some value ∧
    ((i : ℤ), value) ∈ currentBlock earlier
  /-- It stops at a NUL no later than the cell stored last. -/
  stops : ∃ k, FirstAt 0 text k ∧ what.loads = List.range (k + 1) ∧
    ∃ last, (currentBlock earlier).getLast? = some last ∧ (k : ℤ) ≤ last.1

/-- What a session has done so far, with the block that is open now. -/
structure History (block : List (ℤ × UInt8)) (effects : List Effect) : Prop where
  block : currentBlock effects = block
  stores : ∀ index value, .store index value ∈ effects → 0 ≤ index ∧ index ≤ 999
  prints : ∀ earlier text what later, effects = earlier ++ .printed text what :: later →
    PrintSafe earlier text what

theorem History.nil : History [] [] :=
  ⟨rfl, fun _ _ h => by simp at h, fun _ _ _ _ h => by simp at h⟩

/-- A print in a longer history is the effect added last, or an earlier one. -/
theorem History.concat {block block' : List (ℤ × UInt8)} {effects : List Effect} {e : Effect}
    (h : History block effects) (hblock : e.blockAfter block = block')
    (hstore : ∀ index value, e = .store index value → 0 ≤ index ∧ index ≤ 999)
    (hprint : ∀ text what, e = .printed text what → PrintSafe effects text what) :
    History block' (effects ++ [e]) where
  block := by rw [currentBlock_concat, h.block, hblock]
  stores index value hmem := by
    rcases List.mem_append.mp hmem with hmem | hmem
    · exact h.stores index value hmem
    · exact hstore index value (List.mem_singleton.mp hmem).symm
  prints earlier text what later heq := by
    rcases List.eq_nil_or_concat later with rfl | ⟨later, e', rfl⟩
    · obtain ⟨rfl, hlast⟩ := List.append_inj' heq rfl
      exact hprint text what (List.cons.inj hlast).1
    · rw [List.concat_eq_append, ← List.cons_append, ← List.append_assoc] at heq
      exact h.prints earlier text what later (List.append_inj' heq rfl).1

theorem History.store {block : List (ℤ × UInt8)} {effects : List Effect}
    (h : History block effects) (index : ℤ) (hindex : 0 ≤ index ∧ index ≤ 999)
    (value : UInt8) :
    History (block ++ [(index, value)]) (effects ++ [.store index value]) := by
  apply h.concat (e := .store index value) rfl
  · intro index' value' heq
    cases heq
    exact hindex
  · intro text what heq
    cases heq

theorem History.printed {block : List (ℤ × UInt8)} {effects : List Effect}
    (h : History block effects) {text : CharPtr} {what : Printed}
    (hsafe : PrintSafe effects text what) : History [] (effects ++ [.printed text what]) := by
  apply h.concat (e := .printed text what) rfl
  · intro index value heq
    cases heq
  · intro text' what' heq
    cases heq
    exact hsafe

/-- Does an effect leave the buffer alone? -/
def Effect.isAside : Effect → Bool
  | .store _ _ | .printed _ _ => false
  | _ => true

theorem History.aside {block : List (ℤ × UInt8)} {effects : List Effect}
    (h : History block effects) (asides : List Effect) (hasides : ∀ e ∈ asides, e.isAside = true) :
    History block (effects ++ asides) := by
  induction asides generalizing effects with
  | nil => simpa using h
  | cons e asides ih =>
      have he := hasides e List.mem_cons_self
      have hnext : History block (effects ++ [e]) := by
        apply h.concat
        · cases e with
          | store | printed => simp [Effect.isAside] at he
          | _ => rfl
        · rintro index value rfl
          simp [Effect.isAside] at he
        · rintro text what rfl
          simp [Effect.isAside] at he
      have hrest := ih hnext fun e' he' => hasides e' (List.mem_cons_of_mem e he')
      rwa [List.append_assoc, List.singleton_append] at hrest

/-- A print of what is typed, right after its terminator was stored, is safe. -/
theorem printSafe_of_typed {effects : List Effect} {typed rest : List UInt8} {what : Printed}
    (hblock : currentBlock effects = cellsOf (typed ++ [0])) (hroom : typed.length ≤ 999)
    {k : ℕ} (hk : FirstAt 0 (typed ++ 0 :: rest) k) (hle : k ≤ typed.length)
    (hloads : what.loads = List.range (k + 1)) :
    PrintSafe effects (typed ++ 0 :: rest) what where
  inBounds i hi := by
    rw [hloads, List.mem_range] at hi
    omega
  fresh i hi := by
    rw [hloads, List.mem_range] at hi
    have hlt : i < (typed ++ [0]).length := by
      rw [List.length_append, List.length_singleton]
      omega
    refine ⟨(typed ++ [0])[i], ?_, ?_⟩
    · rw [← List.singleton_append, ← List.append_assoc, List.getElem?_append_left hlt,
        List.getElem?_eq_getElem]
    · rw [hblock]
      exact mem_cellsOf (List.getElem?_eq_getElem hlt)
  stops := by
    refine ⟨k, hk, hloads, ((typed.length : ℤ), 0), ?_, by simpa using hle⟩
    rw [hblock, cellsOf_concat]
    simp

/-! ## Every session is safe -/

/-- The cells of the open block, as the dialogue has them. -/
def Dialog.cells : Dialog → List (ℤ × UInt8)
  | .idle => []
  | .message typed => cellsOf typed

/-- A step of the dialogue adds safe effects only. -/
theorem History.dialogStep {cbm : CBM T} {d d' : Dialog} {input : Option UInt8}
    {effects here : List Effect} (h : History d.cells effects)
    (hstep : DialogStep cbm d input d' here) : History d'.cells (effects ++ here) := by
  have hmenu : ∀ e ∈ testMenu, e.isAside = true := by simp [testMenu, Effect.isAside]
  cases hstep with
  | quiet => simpa using h
  | ignored | opened => exact h.aside _ (by simp [Effect.isAside])
  | selfTest => exact h.aside _ (by simpa [Effect.isAside] using hmenu)
  | @ended typed rest what hroom hwhat =>
      rcases exists_of_println_eq_some hwhat with ⟨line, ending, hline, -, hprinted⟩
      rcases print_append_nul (Or.inl (by decide)) hline with ⟨k, hk, hle, hline, -⟩
      have hloads : what.loads = List.range (k + 1) := by rw [hprinted, hline]
      have hecho := h.aside [.serialPrintlnChar '#'.toUInt8] (by simp [Effect.isAside])
      have hstore := hecho.store (typed.length : ℤ) (by omega) 0
      have hsafe := printSafe_of_typed (hstore.block.trans (cellsOf_concat typed 0).symm)
        (by omega) hk hle hloads
      have hdone := (hstore.printed hsafe).aside (.serialPrintln "Done." :: testMenu)
        (by simpa [Effect.isAside] using hmenu)
      simpa [Dialog.cells] using hdone
  | @appended typed val hval hroom =>
      have hecho := h.aside [.serialPrintlnChar val] (by simp [Effect.isAside])
      have hstore := hecho.store (typed.length : ℤ) (by omega) val
      simpa [Dialog.cells, cellsOf_concat] using hstore
  | @flushed typed rest val what hval hfull hwhat =>
      have hprint : print T (typed ++ [val] ++ 0 :: rest) dataMaxLength = some what := by
        rw [List.append_assoc]
        exact hwhat
      rcases print_append_nul (Or.inr (by simp [dataMaxLength, hfull])) hprint with
        ⟨k, hk, hle, hloads, -⟩
      have hecho := h.aside [.serialPrintlnChar val] (by simp [Effect.isAside])
      have hstore := (hecho.store (typed.length : ℤ) (by omega) val).store
        (typed.length + 1 : ℤ) (by omega) 0
      have hblock : currentBlock (effects ++ [.serialPrintlnChar val] ++
          [.store typed.length val] ++ [.store (typed.length + 1) 0]) =
          cellsOf (typed ++ [val] ++ [0]) := by
        rw [hstore.block, cellsOf_concat, cellsOf_concat]
        simp [Dialog.cells]
      have hsafe := printSafe_of_typed hblock (by simp [hfull]) hk hle hloads
      simpa [Dialog.cells, cellsOf] using hstore.printed hsafe

/-- Buffer safety of a session that has reached `s` and done `effects`. -/
structure BufferSafe (s : Sketch T) (effects : List Effect) : Prop where
  testMode : s.testMode = -1 ∨ s.testMode = 0 ∨ s.testMode = 2
  typing : s.testMode = 2 ↔ 0 ≤ s.dataIndex
  /-- The test of the index against the length of the buffer never fails. -/
  dataIndex : -1 ≤ s.dataIndex ∧ s.dataIndex ≤ 998
  stores : ∀ index value, .store index value ∈ effects → 0 ≤ index ∧ index ≤ 999
  prints : ∀ earlier text what later, effects = earlier ++ .printed text what :: later →
    PrintSafe earlier text what

theorem History.bufferSafe {cbm : CBM T} {s : Sketch T} {d : Dialog} {effects : List Effect}
    (h : History d.cells effects) (hs : Tracks cbm s d) : BufferSafe s effects := by
  cases hs with
  | idle hmode => exact ⟨by simp; omega, by simp; omega, by simp, h.stores, h.prints⟩
  | message hroom hdata => exact ⟨by simp, by simp, by simp; omega, h.stores, h.prints⟩

/-- Whatever the serial port delivers, the session always has a next state, and neither
its stores nor its prints leave the current block of the buffer. -/
theorem message_buffer_safety (T : Target) (inputs : List (Option UInt8)) :
    ∃ s effects, (session T).run (Sketch.start T) inputs = some (s, effects) ∧
      BufferSafe s effects := by
  have hstart : ∃ d, Tracks ⟨crLf T⟩ (Sketch.start T) d ∧ History d.cells [] :=
    ⟨.idle, tracks_start T, History.nil⟩
  have hrun := (session T).run_of_invariant
    (J := fun s effects => ∃ d, Tracks ⟨crLf T⟩ s d ∧ History d.cells effects)
    (by
      rintro s before input ⟨d, hs, hbefore⟩
      rcases exists_dialogStep hs input with ⟨s', d', here, hloop, hstep, hs'⟩
      exact ⟨s', here, hloop, d', hs', hbefore.dialogStep hstep⟩)
    hstart inputs
  rcases hrun with ⟨s, effects, hrun, d, hs, heffects⟩
  exact ⟨s, effects, hrun, heffects.bufferSafe hs⟩

end DotMatrixPrinter
