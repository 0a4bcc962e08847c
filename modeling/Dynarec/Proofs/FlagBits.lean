import Dynarec.Fragment
import Mathlib.Algebra.BigOperators.Group.Finset.Basic
import Mathlib.Algebra.Group.Nat.Even
import Mathlib.Data.Nat.Bitwise

namespace Dynarec

def signed (x : UInt32) : Int := x.toInt32.toInt

def IsSigned (v : Int) : Prop := -2 ^ 31 ≤ v ∧ v < 2 ^ 31

instance (v : Int) : Decidable (IsSigned v) := inferInstanceAs (Decidable (_ ∧ _))

theorem not_isSigned (v : Int) : (decide (v ≥ 2 ^ 31) || decide (v < -2 ^ 31)) = !decide (IsSigned v) := by
  have hout : (2 ^ 31 ≤ v ∨ v < -2 ^ 31) ↔ ¬IsSigned v := by
    unfold IsSigned
    omega
  rw [← Bool.decide_or, ← decide_not]
  exact decide_eq_decide.mpr hout

namespace Fragment

variable (x y : UInt32)

theorem toNat_ofBool (b : Bool) : (ofBool b).toNat = b.toNat := by cases b <;> rfl

theorem shiftRight_and_one {k : UInt32} (hk : k.toNat < 32) : (x >>> k) &&& 1 = ofBool (x.toNat.testBit k.toNat) := by
  apply UInt32.toNat_inj.mp
  rw [UInt32.toNat_and, UInt32.toNat_shiftRight, Nat.mod_eq_of_lt hk, toNat_ofBool, Nat.toNat_testBit,
    Nat.shiftRight_eq_div_pow]
  exact Nat.and_one_is_mod _

theorem shiftRight_31 : x >>> 31 = ofBool (x.toNat.testBit 31) := by
  apply UInt32.toNat_inj.mp
  have hlt : x.toNat < 2 ^ 32 := x.toNat_lt
  rw [UInt32.toNat_shiftRight, toNat_ofBool, Nat.toNat_testBit, Nat.shiftRight_eq_div_pow]
  change x.toNat / 2 ^ 31 = x.toNat / 2 ^ 31 % 2
  omega

theorem testBit_31 : x.toNat.testBit 31 = x.toBitVec.msb := by
  rw [BitVec.msb_eq_getLsbD_last]
  rfl

theorem overflowAdd_eq :
    ((x ^^^ (x + y)) &&& (y ^^^ (x + y))) >>> 31 = ofBool (¬IsSigned (signed x + signed y)) := by
  have hoverflow : x.toBitVec.saddOverflow y.toBitVec = !decide (IsSigned (signed x + signed y)) := not_isSigned _
  rw [shiftRight_31, decide_not, ← hoverflow, BitVec.saddOverflow_eq, UInt32.toNat_and, UInt32.toNat_xor,
    UInt32.toNat_xor, Nat.testBit_and, Nat.testBit_xor, Nat.testBit_xor, testBit_31, testBit_31, testBit_31,
    UInt32.toBitVec_add]
  cases x.toBitVec.msb <;> cases y.toBitVec.msb <;> cases (x.toBitVec + y.toBitVec).msb <;> rfl

theorem overflowSub_eq :
    ((x ^^^ y) &&& (x ^^^ (x - y))) >>> 31 = ofBool (¬IsSigned (signed x - signed y)) := by
  have hoverflow : x.toBitVec.ssubOverflow y.toBitVec = !decide (IsSigned (signed x - signed y)) := not_isSigned _
  rw [shiftRight_31, decide_not, ← hoverflow, BitVec.ssubOverflow_eq, UInt32.toNat_and, UInt32.toNat_xor,
    UInt32.toNat_xor, Nat.testBit_and, Nat.testBit_xor, Nat.testBit_xor, testBit_31, testBit_31, testBit_31,
    UInt32.toBitVec_sub]
  cases x.toBitVec.msb <;> cases y.toBitVec.msb <;> cases (x.toBitVec - y.toBitVec).msb <;> rfl

/-- A bit of a sum differs from those of the operands where the bits below carry. -/
theorem testBit_add {k : Nat} (hk : k < 32) :
    (x ^^^ y ^^^ (x + y)).toNat.testBit k = decide (2 ^ k ≤ x.toNat % 2 ^ k + y.toNat % 2 ^ k) := by
  have hsum := BitVec.getLsbD_add hk x.toBitVec y.toBitVec
  rw [← UInt32.toBitVec_add] at hsum
  change (x + y).toNat.testBit k = (x.toNat.testBit k ^^ (y.toNat.testBit k ^^
    decide (2 ^ k ≤ x.toNat % 2 ^ k + y.toNat % 2 ^ k))) at hsum
  rw [UInt32.toNat_xor, UInt32.toNat_xor, Nat.testBit_xor, Nat.testBit_xor, hsum]
  cases x.toNat.testBit k <;> cases y.toNat.testBit k <;> simp

theorem auxiliaryAdd_eq : ((x ^^^ y ^^^ (x + y)) >>> 4) &&& 1 = ofBool (16 ≤ x.toNat % 16 + y.toNat % 16) := by
  rw [shiftRight_and_one _ (k := 4) (by decide)]
  exact congrArg ofBool (testBit_add x y (by decide))

/-- A difference borrows where adding it to the second operand carries. -/
theorem auxiliarySub_eq : ((x ^^^ y ^^^ (x - y)) >>> 4) &&& 1 = ofBool (x.toNat % 16 < y.toNat % 16) := by
  have hborrow := auxiliaryAdd_eq (x - y) y
  rw [UInt32.sub_add_cancel] at hborrow
  have hxor : x ^^^ y ^^^ (x - y) = x - y ^^^ y ^^^ x := by
    rw [UInt32.xor_assoc, UInt32.xor_comm x, UInt32.xor_comm y]
  rw [hxor, hborrow]
  congr 1
  rw [decide_eq_decide, UInt32.toNat_sub]
  have hx := x.toNat_lt
  have hy := y.toNat_lt
  omega

theorem carryAdd_eq : ofBool (x + y < x) = ofBool (2 ^ 32 ≤ x.toNat + y.toNat) := by
  congr 1
  rw [decide_eq_decide, UInt32.lt_iff_toNat_lt, UInt32.toNat_add]
  have hx := x.toNat_lt
  have hy := y.toNat_lt
  omega

theorem overflowInc_eq : ofBool (x + 1 == 0x80000000) = ofBool (x.toNat = 2 ^ 31 - 1) := by
  congr 1
  rw [beq_eq_decide, decide_eq_decide, ← UInt32.toNat_inj, UInt32.toNat_add]
  have hx := x.toNat_lt
  change (x.toNat + 1) % 2 ^ 32 = 2147483648 ↔ _
  omega

theorem auxiliaryInc_eq : ofBool ((x + 1) &&& 0xF == 0) = ofBool (x.toNat % 16 = 15) := by
  congr 1
  rw [beq_eq_decide, decide_eq_decide, ← UInt32.toNat_inj, UInt32.toNat_and, UInt32.toNat_add]
  have hx := x.toNat_lt
  have hmask (n : Nat) : n &&& 15 = n % 16 := Nat.and_two_pow_sub_one_eq_mod n 4
  change (x.toNat + 1) % 2 ^ 32 &&& 15 = 0 ↔ _
  rw [hmask]
  omega

theorem countP_testBit (n k : Nat) :
    (List.range k).countP (fun i => n.testBit i) = ∑ i ∈ Finset.range k, n / 2 ^ i % 2 := by
  induction k with
  | zero => rfl
  | succ k ih =>
      rw [List.range_succ, List.countP_append, ih, Finset.sum_range_succ, ← Nat.toNat_testBit, List.countP_singleton]
      cases n.testBit k <;> rfl

theorem evenParity_eq : evenParity x = decide (Even (∑ i ∈ Finset.range 8, x.toNat / 2 ^ i % 2)) := by
  rw [evenParity, countP_testBit, beq_eq_decide, decide_eq_decide, Nat.even_iff]

end Fragment

end Dynarec
