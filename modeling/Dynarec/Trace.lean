namespace Dynarec

structure Visit (α : Type) where
  address : UInt32
  block : α
  deriving DecidableEq, Repr

structure Trace (α : Type) where
  slots : Array (Option (Visit α))
  executed : Nat
  slots_pos : 0 < slots.size

namespace Trace

variable {α : Type}

inductive Overflow
  | index
  deriving DecidableEq, Repr

def indexBound : Nat := UInt64.size

def new (capacity : Nat) : Trace α where
  slots := Array.replicate (max capacity 1) none
  executed := 0
  slots_pos := by
    rw [Array.size_replicate]
    exact Nat.lt_of_lt_of_le Nat.zero_lt_one (Nat.le_max_right capacity 1)

def capacity (t : Trace α) : Nat := t.slots.size

def isWrapped (t : Trace α) : Bool := t.capacity < t.executed

def length (t : Trace α) : Nat := if t.isWrapped then t.capacity else t.executed

def isEmpty (t : Trace α) : Bool := t.executed == 0

def cursor (t : Trace α) : Nat := t.executed % t.slots.size

theorem cursor_lt (t : Trace α) : t.cursor < t.slots.size := Nat.mod_lt _ t.slots_pos

def record (t : Trace α) (v : Visit α) : Trace α where
  slots := t.slots.set t.cursor (some v) t.cursor_lt
  executed := t.executed + 1
  slots_pos := by simpa using t.slots_pos

def reset (t : Trace α) : Trace α where
  slots := Array.replicate t.slots.size none
  executed := 0
  slots_pos := by simpa using t.slots_pos

def slot? (t : Trace α) (row : Nat) : Option Nat :=
  if row < t.length then
    some (if t.isWrapped then (row + t.cursor) % t.capacity else row)
  else none

def visit? (t : Trace α) (row : Nat) : Option (Visit α) := do
  let slot ← t.slot? row
  let v ← t.slots[slot]?
  v

def address? (t : Trace α) (row : Nat) : Option UInt32 := (t.visit? row).map (·.address)

def block? (t : Trace α) (row : Nat) : Option α := (t.visit? row).map (·.block)

/-- The row of the visit with an index, if it is still there. Once the slots are used again, the
index after it has to be an index too. -/
def rowOf? (t : Trace α) (index : Nat) : Except Overflow (Option Nat) :=
  if t.isWrapped then
    if index + 1 < indexBound then
      if index < t.executed ∧ t.executed - (index + 1) < t.capacity then
        .ok (some (t.capacity - 1 - (t.executed - (index + 1))))
      else .ok none
    else .error .index
  else .ok (if index < t.executed then some index else none)

/-- The index of the visit in a row, whether or not the row is in use. -/
def indexOf (t : Trace α) (row : Nat) : Except Overflow Nat :=
  if t.isWrapped then
    let index := t.executed - t.capacity + row
    if index < indexBound then .ok index else .error .index
  else .ok row

def toList (t : Trace α) : List (Visit α) := (List.range t.length).filterMap t.visit?

@[simp] theorem capacity_new (capacity : Nat) : (new capacity : Trace α).capacity = max capacity 1 := by
  simp [new, Trace.capacity]

@[simp] theorem capacity_record (t : Trace α) (v : Visit α) : (t.record v).capacity = t.capacity := by
  simp [record, capacity]

@[simp] theorem capacity_reset (t : Trace α) : t.reset.capacity = t.capacity := by
  simp [reset, capacity]

@[simp] theorem executed_record (t : Trace α) (v : Visit α) : (t.record v).executed = t.executed + 1 :=
  rfl

@[simp] theorem executed_reset (t : Trace α) : t.reset.executed = 0 := rfl

theorem length_eq_min (t : Trace α) : t.length = min t.executed t.capacity := by
  simp only [length, isWrapped, decide_eq_true_eq]
  split <;> omega

end Trace

end Dynarec
