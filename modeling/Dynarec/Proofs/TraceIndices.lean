import Dynarec.Proofs.DispatcherRecords
import Mathlib.Data.Set.Function
import Mathlib.Order.Interval.Set.Defs

namespace Dynarec

namespace Trace

variable {α : Type} {t : Trace α}

inductive Change (α : Type)
  | record (v : Visit α)
  | reset
  deriving DecidableEq, Repr

def Change.visit? : Change α → Option (Visit α)
  | record v => some v
  | reset => none

def change (t : Trace α) : Change α → Trace α
  | .record v => t.record v
  | .reset => t.reset

def changeAll (t : Trace α) (history : List (Change α)) : Trace α := history.foldl change t

def recorded (history : List (Change α)) : List (Visit α) :=
  (history.rtakeWhile fun c => c.visit?.isSome).filterMap Change.visit?

theorem recorded_concat_record (history : List (Change α)) (v : Visit α) :
    recorded (history ++ [.record v]) = recorded history ++ [v] := by
  rw [recorded, List.rtakeWhile_concat_pos _ _ _ (by rfl), List.filterMap_append]
  rfl

theorem recorded_concat_reset (history : List (Change α)) : recorded (history ++ [.reset]) = [] := by
  rw [recorded, List.rtakeWhile_concat_neg _ _ _ (by simp [Change.visit?]), List.filterMap_nil]

theorem holds_changeAll (capacity : Nat) (history : List (Change α)) :
    ((new capacity).changeAll history).Holds (recorded history) := by
  induction history using List.reverseRecOn with
  | nil => exact holds_new capacity
  | append_singleton history c ih =>
      rw [changeAll, List.foldl_append]
      cases c with
      | record v =>
          rw [recorded_concat_record]
          exact ih.record v
      | reset =>
          rw [recorded_concat_reset]
          exact holds_reset _

theorem capacity_changeAll (t : Trace α) (history : List (Change α)) : (t.changeAll history).capacity = t.capacity := by
  induction history using List.reverseRecOn with
  | nil => rfl
  | append_singleton history c ih =>
      rw [changeAll, List.foldl_append]
      cases c with
      | record v => exact (capacity_record _ v).trans ih
      | reset => exact (capacity_reset _).trans ih

def first (t : Trace α) : Nat := t.executed - t.length

theorem isWrapped_iff : t.isWrapped = true ↔ t.capacity < t.executed := decide_eq_true_iff

theorem indexOf_eq (ht : t.executed < indexBound) {row : Nat} (hrow : row < t.length) :
    t.indexOf row = .ok (t.first + row) := by
  have hlength := t.length_eq_min
  rw [indexOf, first]
  by_cases hwrapped : t.isWrapped = true
  · have hlt := isWrapped_iff.mp hwrapped
    have hcapacity : t.length = t.capacity := by omega
    rw [if_pos hwrapped, hcapacity, if_pos (by omega)]
  · have hle : ¬t.capacity < t.executed := mt isWrapped_iff.mpr hwrapped
    rw [if_neg hwrapped, Nat.sub_eq_zero_of_le (by omega), Nat.zero_add]

theorem rowOf?_of_mem (ht : t.executed < indexBound) {i : Nat} (hi : i ∈ Set.Ico t.first t.executed) :
    t.rowOf? i = .ok (some (i - t.first)) := by
  have hlength := t.length_eq_min
  rw [first, Set.mem_Ico] at hi
  rw [rowOf?, first]
  by_cases hwrapped : t.isWrapped = true
  · have hlt := isWrapped_iff.mp hwrapped
    have hrow : t.capacity - 1 - (t.executed - (i + 1)) = i - (t.executed - t.length) := by omega
    rw [if_pos hwrapped, if_pos (by omega), if_pos (by omega), hrow]
  · have hle : ¬t.capacity < t.executed := mt isWrapped_iff.mpr hwrapped
    have hrow : i - (t.executed - t.length) = i := by omega
    rw [if_neg hwrapped, if_pos hi.2, hrow]

/-- The index after the greatest one is not an index, and only a wrapped trace asks for it. -/
theorem rowOf?_of_not_mem {i : Nat} (hbound : i < indexBound) (hi : i ∉ Set.Ico t.first t.executed) :
    t.rowOf? i = if t.isWrapped = true ∧ i + 1 = indexBound then .error .index else .ok none := by
  have hlength := t.length_eq_min
  rw [first, Set.mem_Ico] at hi
  rw [rowOf?]
  by_cases hwrapped : t.isWrapped = true
  · have hlt := isWrapped_iff.mp hwrapped
    by_cases hlast : i + 1 = indexBound
    · rw [if_pos hwrapped, if_neg (by omega), if_pos ⟨hwrapped, hlast⟩]
    · rw [if_pos hwrapped, if_pos (by omega), if_neg (by omega), if_neg (fun h => hlast h.2)]
  · have hle : ¬t.capacity < t.executed := mt isWrapped_iff.mpr hwrapped
    rw [if_neg hwrapped, if_neg (by omega), if_neg (fun h => hwrapped h.1)]

theorem bijOn_indexOf (ht : t.executed < indexBound) :
    Set.BijOn t.indexOf (Set.Iio t.length) (Set.image .ok (Set.Ico t.first t.executed)) := by
  have hlength := t.length_eq_min
  have hfirst : t.first + t.length = t.executed := by
    rw [first]
    omega
  refine ⟨?_, ?_, ?_⟩
  · intro row hrow
    rw [Set.mem_Iio] at hrow
    rw [indexOf_eq ht hrow]
    exact Set.mem_image_of_mem _ (Set.mem_Ico.mpr ⟨Nat.le_add_right _ _, by omega⟩)
  · intro row hrow row' hrow' heq
    rw [indexOf_eq ht hrow, indexOf_eq ht hrow'] at heq
    exact Nat.add_left_cancel (Except.ok.inj heq)
  · rintro _ ⟨i, hi, rfl⟩
    rw [Set.mem_Ico] at hi
    refine ⟨i - t.first, Set.mem_Iio.mpr (by omega), ?_⟩
    rw [indexOf_eq ht (by omega), Nat.add_sub_cancel' hi.1]

/-- Whatever was recorded, rows in use and indices of the visits that they show correspond, and each
gives the other. No other index has a row. All of them are told so but the greatest one, which is refused
once the trace has wrapped. -/
theorem rows_match_indices (capacity : Nat) {history : List (Change α)} (h : (recorded history).length < indexBound) :
    let t : Trace α := (new capacity).changeAll history
    let visits := recorded history
    let surviving := Set.Ico (visits.length - t.length) visits.length
    t.length = min visits.length (max capacity 1) ∧
      Set.BijOn t.indexOf (Set.Iio t.length) (Set.image .ok surviving) ∧
      (∀ row < t.length, ∃ i, t.indexOf row = .ok i ∧ t.rowOf? i = .ok (some row) ∧ t.visit? row = visits[i]?) ∧
      (∀ i ∈ surviving, ∃ row < t.length, t.rowOf? i = .ok (some row) ∧ t.indexOf row = .ok i) ∧
      ∀ i < indexBound, i ∉ surviving →
        t.rowOf? i = if t.isWrapped = true ∧ i + 1 = indexBound then .error .index else .ok none := by
  intro t visits surviving
  have hholds : t.Holds visits := holds_changeAll capacity history
  have hlength := t.length_eq_min
  rw [capacity_changeAll, capacity_new, hholds.executed] at hlength
  have ht : t.executed < indexBound := hholds.executed ▸ h
  have hsurviving : surviving = Set.Ico t.first t.executed := by rw [first, hholds.executed]
  refine ⟨hlength, ?_, ?_, ?_, ?_⟩
  · rw [hsurviving]
    exact bijOn_indexOf ht
  · intro row hrow
    have hmem : t.first + row ∈ Set.Ico t.first t.executed := by
      rw [Set.mem_Ico, first, hholds.executed]
      omega
    refine ⟨t.first + row, indexOf_eq ht hrow, ?_, ?_⟩
    · rw [rowOf?_of_mem ht hmem, Nat.add_sub_cancel_left]
    · rw [hholds.visit? hrow, first, hholds.executed]
  · intro i hi
    have hmem := hsurviving ▸ hi
    rw [Set.mem_Ico, first, hholds.executed] at hmem
    have hrow : i - t.first < t.length := by
      rw [first, hholds.executed]
      omega
    refine ⟨i - t.first, hrow, rowOf?_of_mem ht (hsurviving ▸ hi), ?_⟩
    rw [indexOf_eq ht hrow, Nat.add_sub_cancel' (Set.mem_Ico.mp (hsurviving ▸ hi)).1]
  · intro i hbound hi
    exact rowOf?_of_not_mem hbound (hsurviving ▸ hi)

def wrapAround : List (Change Unit) := .record ⟨0, ()⟩ :: .reset :: (List.range 9).map fun n => .record ⟨n.toUInt32, ()⟩

theorem rows_match_indices_wrapAround :
    (recorded wrapAround).length = 9 ∧
      Set.BijOn ((new 3).changeAll wrapAround).indexOf (Set.Iio 3) (Set.image .ok (Set.Ico 6 9)) := by
  have hrecorded : (recorded wrapAround).length = 9 := by decide +kernel
  have hlength : ((new 3).changeAll wrapAround).length = 3 := by decide +kernel
  have hbound : (recorded wrapAround).length < indexBound := by
    rw [hrecorded]
    decide
  obtain ⟨_, hbij, _⟩ := rows_match_indices 3 hbound
  rw [hrecorded, hlength] at hbij
  exact ⟨hrecorded, hbij⟩

/-- An index that was never recorded is refused instead of having no row. -/
theorem exists_index_refused :
    ∃ (capacity : Nat) (history : List (Change Unit)) (i : Nat),
      (recorded history).length ≤ i ∧ i < indexBound ∧ ((new capacity).changeAll history).rowOf? i = .error .index :=
  ⟨1, [.record ⟨16, ()⟩, .record ⟨32, ()⟩], indexBound - 1, by decide +kernel⟩

end Trace

end Dynarec
