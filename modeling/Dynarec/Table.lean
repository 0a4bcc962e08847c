import Dynarec.Element

namespace Dynarec

class Key (κ : Type) where
  index : κ → Nat

instance : Key Element := ⟨Element.index⟩

structure Table (κ α : Type) where
  values : Array α
  deriving DecidableEq

namespace Table

variable {κ α : Type} [Key κ]

def ofFn (length : Nat) (f : Nat → α) : Table κ α := ⟨Array.ofFn fun i : Fin length => f i⟩

def replicate (length : Nat) (a : α) : Table κ α := ⟨Array.replicate length a⟩

def size (t : Table κ α) : Nat := t.values.size

def toList (t : Table κ α) : List α := t.values.toList

def get? (t : Table κ α) (k : κ) : Option α := t.values[Key.index k]?

def getD (t : Table κ α) (k : κ) (a : α) : α := t.values.getD (Key.index k) a

def set? (t : Table κ α) (k : κ) (a : α) : Option (Table κ α) :=
  if Key.index k < t.values.size then some ⟨t.values.setIfInBounds (Key.index k) a⟩ else none

/-- Changes nothing when `k` is past the end. -/
def set (t : Table κ α) (k : κ) (a : α) : Table κ α := ⟨t.values.setIfInBounds (Key.index k) a⟩

def modify (t : Table κ α) (k : κ) (f : α → α) : Table κ α := ⟨t.values.modify (Key.index k) f⟩

omit [Key κ] in
@[simp] theorem size_replicate (length : Nat) (a : α) : (replicate length a : Table κ α).size = length := by
  simp [size, replicate]

@[simp] theorem size_set (t : Table κ α) (k : κ) (a : α) : (t.set k a).size = t.size := by
  simp [size, set]

@[simp] theorem size_modify (t : Table κ α) (k : κ) (f : α → α) : (t.modify k f).size = t.size := by
  simp [size, modify]

theorem get?_set (t : Table κ α) (k k' : κ) (a : α) :
    (t.set k a).get? k' =
      if Key.index k = Key.index k' then (if Key.index k' < t.size then some a else none) else t.get? k' := by
  simp only [get?, set, size, Array.getElem?_setIfInBounds]
  by_cases h : Key.index k = Key.index k'
  · rw [if_pos h, if_pos h, h]; rfl
  · rw [if_neg h, if_neg h]

theorem get?_replicate (length : Nat) (a : α) (k : κ) :
    (replicate length a : Table κ α).get? k = if Key.index k < length then some a else none := by
  simp [get?, replicate, Array.getElem?_replicate]

theorem getD_eq (t : Table κ α) (k : κ) (a : α) : t.getD k a = (t.get? k).getD a := by
  simp [getD, get?, Array.getD_eq_getD_getElem?]

theorem getD_set (t : Table κ α) (k k' : κ) (a b : α) :
    (t.set k a).getD k' b =
      if Key.index k = Key.index k' ∧ Key.index k' < t.size then a else t.getD k' b := by
  rw [getD_eq, getD_eq, get?_set]
  by_cases hk : Key.index k = Key.index k'
  · by_cases hs : Key.index k' < t.size
    · simp [hk, hs]
    · have hnone : t.get? k' = none := Array.getElem?_eq_none (Nat.le_of_not_lt hs)
      simp [hk, hs, hnone]
  · simp [hk]

theorem getD_modify (t : Table κ α) (k k' : κ) (f : α → α) (b : α) :
    (t.modify k f).getD k' b =
      if Key.index k = Key.index k' ∧ Key.index k' < t.size then f (t.getD k' b) else t.getD k' b := by
  simp only [getD, modify, size, Array.getD_eq_getD_getElem?, Array.getElem?_modify]
  by_cases hk : Key.index k = Key.index k'
  · by_cases hs : Key.index k' < t.values.size
    · simp [hk, hs]
    · simp [hs]
  · simp [hk]

theorem getD_replicate (length : Nat) (a : α) (k : κ) : (replicate length a : Table κ α).getD k a = a := by
  rw [getD_eq, get?_replicate]
  split <;> rfl

theorem getD_ofFn (length : Nat) (f : Nat → α) (k : κ) (b : α) :
    (ofFn length f : Table κ α).getD k b = if Key.index k < length then f (Key.index k) else b := by
  simp only [getD, ofFn, Array.getD_eq_getD_getElem?, Array.getElem?_ofFn]
  split <;> rfl

end Table

end Dynarec
