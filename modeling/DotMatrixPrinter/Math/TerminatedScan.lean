/-
# Scanning a terminated array

A text handed around as a pointer has no length of its own: it ends at the first
cell holding a terminator. Two loops read such a text. One walks to the
terminator; the other counts up to a bound and also stops at the terminator.
Both are given here over an arbitrary cell type, with the list of cells from the
pointer to the end of the array it points into. A loop that reads past that end
has no result.

The loops report the indices they load, in order, next to what their body
produced, so that a bound on the memory read is a statement about the result.
-/

import Mathlib.Data.Nat.Notation
import Mathlib.Data.Int.Notation
import Mathlib.Data.List.Basic

namespace DotMatrixPrinter.Math.TerminatedScan

universe u v

variable {α : Type u} {β : Type v}

/-- What a loop over a text did: the indices it loaded and what its body produced. -/
structure Scan (β : Type v) where
  loads : List ℕ
  out : List β

/-- Put one more visited cell in front of a scan. -/
def Scan.cons (index : ℕ) (here : List β) (later : Scan β) : Scan β :=
  ⟨index :: later.loads, here ++ later.out⟩

/-- The first cell that holds the terminator is cell number `k`. -/
structure FirstAt (stop : α) (cells : List α) (k : ℕ) : Prop where
  found : cells[k]? = some stop
  before : ∀ i < k, cells[i]? ≠ some stop

variable [DecidableEq α]

/-- Walk to the terminator. The counter `i` is how far the pointer has moved. -/
def scanWhile (stop : α) (body : α → List β) : List α → ℕ → Option (Scan β)
  | [], _ => none
  | c :: rest, i =>
      if c = stop then some ⟨[i], []⟩
      else (scanWhile stop body rest (i + 1)).map (Scan.cons i (body c))

/-- Count up to `length`, leaving early at the terminator. -/
def scanFor (stop : α) (body : α → List β) (length : ℤ) : List α → ℕ → Option (Scan β)
  | [], i => if (i : ℤ) < length then none else some ⟨[], []⟩
  | c :: rest, i =>
      if (i : ℤ) < length then
        if c = stop then some ⟨[i], []⟩
        else (scanFor stop body length rest (i + 1)).map (Scan.cons i (body c))
      else some ⟨[], []⟩

/-! ## The position of the terminator -/

omit [DecidableEq α] in
theorem not_firstAt_nil (stop : α) (k : ℕ) : ¬ FirstAt stop [] k :=
  fun h => by simpa using h.found

omit [DecidableEq α] in
theorem firstAt_cons_zero {stop c : α} {rest : List α} :
    FirstAt stop (c :: rest) 0 ↔ c = stop :=
  ⟨fun h => by simpa using h.found, fun h => ⟨by simp [h], fun i hi => absurd hi (by omega)⟩⟩

omit [DecidableEq α] in
theorem firstAt_cons_succ {stop c : α} {rest : List α} {k : ℕ} :
    FirstAt stop (c :: rest) (k + 1) ↔ c ≠ stop ∧ FirstAt stop rest k := by
  constructor
  · intro h
    refine ⟨fun hc => h.before 0 (by omega) (by simp [hc]), ⟨by simpa using h.found, ?_⟩⟩
    intro i hi
    simpa using h.before (i + 1) (by omega)
  · rintro ⟨hc, h⟩
    refine ⟨by simpa using h.found, ?_⟩
    intro i hi
    cases i with
    | zero => simpa using hc
    | succ i => simpa using h.before i (by omega)

omit [DecidableEq α] in
theorem FirstAt.lt_length {stop : α} {cells : List α} {k : ℕ} (h : FirstAt stop cells k) :
    k < cells.length :=
  (List.getElem?_eq_some_iff.mp h.found).1

omit [DecidableEq α] in
/-- A text is its own characters, none of them the terminator, then the terminator. -/
theorem firstAt_append_cons {stop : α} {text : List α} (h : stop ∉ text) (rest : List α) :
    FirstAt stop (text ++ stop :: rest) text.length := by
  induction text with
  | nil => exact firstAt_cons_zero.mpr rfl
  | cons c text ih =>
      simp only [List.mem_cons, not_or] at h
      exact firstAt_cons_succ.mpr ⟨fun hc => h.1 hc.symm, ih h.2⟩

omit [DecidableEq α] in
/-- The terminator of the rest of a text, seen from a pointer moved inside it. -/
theorem FirstAt.drop {stop : α} {cells : List α} {k m : ℕ} (h : FirstAt stop cells k)
    (hm : m ≤ k) : FirstAt stop (cells.drop m) (k - m) := by
  refine ⟨?_, fun i hi => ?_⟩
  · rw [List.getElem?_drop, Nat.add_sub_cancel' hm]
    exact h.found
  · rw [List.getElem?_drop]
    exact h.before (m + i) (by omega)

omit [DecidableEq α] in
theorem FirstAt.not_mem_take {stop : α} {cells : List α} {k : ℕ} (h : FirstAt stop cells k) :
    stop ∉ cells.take k := by
  intro hmem
  rcases List.mem_iff_getElem?.mp hmem with ⟨i, hi⟩
  rw [List.getElem?_take] at hi
  split at hi
  · exact h.before i (by assumption) hi
  · simp at hi

/-- The characters before the terminator are the longest part free of it. -/
theorem FirstAt.take_eq_takeWhile {stop : α} {cells : List α} {k : ℕ}
    (h : FirstAt stop cells k) : cells.take k = cells.takeWhile (· ≠ stop) := by
  induction cells generalizing k with
  | nil => exact absurd h (not_firstAt_nil stop k)
  | cons c rest ih =>
      cases k with
      | zero => simp [firstAt_cons_zero.mp h]
      | succ k =>
          obtain ⟨hc, hrest⟩ := firstAt_cons_succ.mp h
          simp [hc, ih hrest]

theorem takeWhile_append_stop (stop : α) (typed rest : List α) :
    (typed ++ stop :: rest).takeWhile (· ≠ stop) = typed.takeWhile (· ≠ stop) := by
  induction typed with
  | nil => simp
  | cons c typed ih =>
      rw [List.cons_append, List.takeWhile_cons, List.takeWhile_cons, ih]

/-- An array that holds the terminator has a first cell that does. -/
theorem exists_firstAt {stop : α} {cells : List α} (h : stop ∈ cells) :
    ∃ k, FirstAt stop cells k := by
  induction cells with
  | nil => simp at h
  | cons c rest ih =>
      by_cases hc : c = stop
      · exact ⟨0, firstAt_cons_zero.mpr hc⟩
      · obtain ⟨k, hk⟩ := ih ((List.mem_cons.mp h).resolve_left (Ne.symm hc))
        exact ⟨k + 1, firstAt_cons_succ.mpr ⟨hc, hk⟩⟩

/-- A terminator put behind some cells is found at the latest there, and what is
before it are the cells up to the first terminator among them. -/
theorem exists_firstAt_append_cons (stop : α) (typed rest : List α) :
    ∃ k, FirstAt stop (typed ++ stop :: rest) k ∧ k ≤ typed.length ∧
      (typed ++ stop :: rest).take k = typed.takeWhile (· ≠ stop) := by
  have hstop : stop ∈ typed ++ stop :: rest := by simp
  rcases exists_firstAt hstop with ⟨k, hk⟩
  refine ⟨k, hk, ?_, ?_⟩
  · by_contra hlt
    exact hk.before typed.length (by omega) (by simp)
  · rw [hk.take_eq_takeWhile, takeWhile_append_stop]

/-! ## What the two loops do -/

/-- The walk loads every cell up to and including the terminator, and nothing else. -/
theorem scanWhile_eq {stop : α} {cells : List α} {k : ℕ} (h : FirstAt stop cells k)
    (body : α → List β) (i : ℕ) :
    scanWhile stop body cells i =
      some ⟨List.range' i (k + 1), (cells.take k).flatMap body⟩ := by
  induction cells generalizing k i with
  | nil => exact absurd h (not_firstAt_nil stop k)
  | cons c rest ih =>
      cases k with
      | zero => simp [scanWhile, firstAt_cons_zero.mp h]
      | succ k =>
          obtain ⟨hc, hrest⟩ := firstAt_cons_succ.mp h
          simp [scanWhile, hc, ih hrest, Scan.cons, List.range'_succ]

/-- The counted loop loads the cells below its bound, up to and including the
terminator. -/
theorem scanFor_eq {stop : α} {cells : List α} {k : ℕ} (h : FirstAt stop cells k)
    (body : α → List β) (length : ℤ) (i : ℕ) :
    scanFor stop body length cells i =
      some ⟨List.range' i (min (length - i).toNat (k + 1)),
        (cells.take (min (length - i).toNat k)).flatMap body⟩ := by
  induction cells generalizing k i with
  | nil => exact absurd h (not_firstAt_nil stop k)
  | cons c rest ih =>
      by_cases hi : (i : ℤ) < length
      · obtain ⟨room, hroom⟩ : ∃ room, (length - i).toNat = room + 1 :=
          ⟨(length - i).toNat - 1, by omega⟩
        have hnext : (length - (i + 1 : ℕ)).toNat = room := by omega
        cases k with
        | zero => simp [scanFor, hi, firstAt_cons_zero.mp h, hroom]
        | succ k =>
            obtain ⟨hc, hrest⟩ := firstAt_cons_succ.mp h
            rw [scanFor, if_pos hi, if_neg hc, ih hrest, hnext, hroom, Nat.succ_min_succ,
              Nat.succ_min_succ]
            simp [Scan.cons, List.range'_succ]
      · have hnone : (length - i).toNat = 0 := by omega
        simp [scanFor, hi, hnone]

/-- Whatever array it is run on, a walk that ends has visited an initial part of it. -/
theorem exists_take_of_scanWhile {stop : α} {body : α → List β} {cells : List α} {i : ℕ}
    {scan : Scan β} (h : scanWhile stop body cells i = some scan) :
    ∃ k, scan.out = (cells.take k).flatMap body := by
  induction cells generalizing i scan with
  | nil => simp [scanWhile] at h
  | cons c rest ih =>
      by_cases hc : c = stop
      · rw [scanWhile, if_pos hc, Option.some.injEq] at h
        exact ⟨0, by simp [← h]⟩
      · rw [scanWhile, if_neg hc, Option.map_eq_some_iff] at h
        obtain ⟨later, hlater, rfl⟩ := h
        obtain ⟨k, hk⟩ := ih hlater
        exact ⟨k + 1, by simp [Scan.cons, hk]⟩

/-- Whatever array it is run on, a counted loop that ends has visited an initial
part of it. -/
theorem exists_take_of_scanFor {stop : α} {body : α → List β} {length : ℤ} {cells : List α}
    {i : ℕ} {scan : Scan β} (h : scanFor stop body length cells i = some scan) :
    ∃ k, scan.out = (cells.take k).flatMap body := by
  induction cells generalizing i scan with
  | nil =>
      by_cases hi : (i : ℤ) < length
      · simp [scanFor, hi] at h
      · rw [scanFor, if_neg hi, Option.some.injEq] at h
        exact ⟨0, by simp [← h]⟩
  | cons c rest ih =>
      by_cases hi : (i : ℤ) < length
      · by_cases hc : c = stop
        · rw [scanFor, if_pos hi, if_pos hc, Option.some.injEq] at h
          exact ⟨0, by simp [← h]⟩
        · rw [scanFor, if_pos hi, if_neg hc, Option.map_eq_some_iff] at h
          obtain ⟨later, hlater, rfl⟩ := h
          obtain ⟨k, hk⟩ := ih hlater
          exact ⟨k + 1, by simp [Scan.cons, hk]⟩
      · rw [scanFor, if_neg hi, Option.some.injEq] at h
        exact ⟨0, by simp [← h]⟩

end DotMatrixPrinter.Math.TerminatedScan
