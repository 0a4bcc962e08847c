import Dynarec.Machine
import Mathlib.Data.Nat.Digits.Defs

namespace Dynarec

theorem Width.bytes_le_four (w : Width) : w.bytes ≤ 4 := by cases w <;> decide

namespace Memory

theorem toNat_toUInt32_or_shiftLeft (b : UInt8) {rest : UInt32} (h : rest.toNat < 2 ^ 24) :
    (b.toUInt32 ||| rest <<< 8).toNat = b.toNat + 256 * rest.toNat := by
  have hshift : rest.toNat * 2 ^ 8 < 2 ^ 32 := by omega
  have hor := Nat.two_pow_add_eq_or_of_lt (i := 8) b.toNat_lt rest.toNat
  rw [UInt32.toNat_or, UInt8.toNat_toUInt32, UInt32.toNat_shiftLeft]
  change b.toNat ||| (rest.toNat <<< 8) % 2 ^ 32 = _
  rw [Nat.shiftLeft_eq, Nat.mod_eq_of_lt hshift, Nat.or_comm, Nat.mul_comm, ← hor, Nat.add_comm]

theorem toNat_ofBytes {bytes : List UInt8} (h : bytes.length ≤ 4) :
    (ofBytes bytes).toNat = Nat.ofDigits 256 (bytes.map UInt8.toNat) ∧
      (ofBytes bytes).toNat < 256 ^ bytes.length := by
  induction bytes with
  | nil => decide
  | cons b bytes ih =>
      rw [List.length_cons] at h
      obtain ⟨hvalue, hlt⟩ := ih (by omega)
      have hshort : (ofBytes bytes).toNat < 2 ^ 24 := by
        refine hlt.trans_le ?_
        change 256 ^ bytes.length ≤ 256 ^ 3
        exact Nat.pow_le_pow_right (by decide) (by omega)
      have hb := b.toNat_lt
      rw [ofBytes, toNat_toUInt32_or_shiftLeft b hshort]
      constructor
      · rw [List.map_cons, Nat.ofDigits_cons, hvalue]
      · rw [List.length_cons, Nat.pow_succ]
        omega

theorem toNat_read (m : Memory) (a : Nat) (w : Width) :
    (m.read a w).toNat =
      Nat.ofDigits 256 ((List.range w.bytes).map fun i => (m.byte (a + i)).toNat) := by
  have hlen : ((List.range w.bytes).map fun i => m.byte (a + i)).length ≤ 4 := by
    simpa using w.bytes_le_four
  rw [read, (toNat_ofBytes hlen).1, List.map_map]
  rfl

theorem toNat_getD_toBytes (n : Nat) (value : UInt32) (i : Nat) (b : UInt8) :
    ((toBytes n value).getD i b).toNat =
      if i < n then value.toNat / 256 ^ i % 256 else b.toNat := by
  induction n generalizing value i with
  | zero => simp [toBytes]
  | succ n ih =>
      cases i with
      | zero => simp [toBytes]
      | succ i =>
          have hshift : (value >>> 8).toNat = value.toNat / 256 := by
            rw [UInt32.toNat_shiftRight]
            exact Nat.shiftRight_eq_div_pow _ 8
          rw [toBytes, List.getD_cons_succ, ih, hshift, Nat.div_div_eq_div_mul, ← Nat.pow_succ']
          simp

theorem byte_set (m : Memory) (a : Nat) (b : UInt8) (x : Nat) :
    byte ⟨m.bytes.setIfInBounds a b⟩ x = if a = x ∧ x < m.size then b else m.byte x := by
  simp only [byte, size, Array.getD_eq_getD_getElem?, Array.getElem?_setIfInBounds]
  split <;> split <;> simp_all

theorem byte_store (m : Memory) (a : Nat) (bytes : List UInt8) (x : Nat) :
    (m.store a bytes).byte x =
      if a ≤ x ∧ x < m.size then bytes.getD (x - a) (m.byte x) else m.byte x := by
  induction bytes generalizing m a with
  | nil => simp [store]
  | cons b bytes ih =>
      have hsize : size ⟨m.bytes.setIfInBounds a b⟩ = m.size := by simp [size]
      rw [store, ih, byte_set, hsize]
      -- A byte below the place, at it and above it.
      obtain hlt | rfl | hgt := Nat.lt_trichotomy x a
      · rw [if_neg (by omega), if_neg (by omega), if_neg (by omega)]
      · rw [if_neg (by omega), Nat.sub_self, List.getD_cons_zero]
        simp
      · have hsub : x - a = x - (a + 1) + 1 := by omega
        rw [if_neg (by omega : ¬(a = x ∧ x < m.size)), hsub, List.getD_cons_succ]
        simp only [Nat.succ_le_of_lt hgt, hgt.le]

/-- The byte at `x` once the low bytes of `value` stand from `a` on. -/
def byteWith (m : Memory) (a : Nat) (w : Width) (value : UInt32) (x : Nat) : Nat :=
  if a ≤ x ∧ x < a + w.bytes then value.toNat / 256 ^ (x - a) % 256 else (m.byte x).toNat

theorem toNat_byte_write {m : Memory} {a : Nat} {w : Width} (h : a + w.bytes ≤ m.size)
    (value : UInt32) (x : Nat) : ((m.write a w value).byte x).toNat = m.byteWith a w value x := by
  rw [write, byte_store, byteWith]
  by_cases hin : a ≤ x ∧ x < a + w.bytes
  · rw [if_pos hin, if_pos (by omega), toNat_getD_toBytes, if_pos (by omega)]
  · rw [if_neg hin]
    split
    · rw [toNat_getD_toBytes, if_neg (by omega)]
    · rfl

end Memory

namespace Machine

def linear (segment offset : UInt32) : Nat := (16 * segment.toNat + offset.toNat) % 2 ^ 32

theorem address_eq_linear (segment offset : UInt32) : address segment offset = linear segment offset := by
  have hshift : (segment <<< 4).toNat = segment.toNat * 16 % 2 ^ 32 := by
    rw [UInt32.toNat_shiftLeft]
    exact congrArg (· % 2 ^ 32) (Nat.shiftLeft_eq _ 4)
  rw [address, UInt32.toNat_add, hshift, linear, Nat.mod_add_mod, Nat.mul_comm]

theorem processor_readMemory (m : Machine) (segment offset : UInt32) (w : Width) :
    Processor.readMemory segment offset w m =
      (if linear segment offset + w.bytes ≤ m.memory.size then
        .ok (m.memory.read (linear segment offset) w) else .error (.generalProtection 0), m) := by
  simp [Processor.readMemory, readMemory, Memory.contains, address_eq_linear]

theorem processor_writeMemory (m : Machine) (segment offset : UInt32) (w : Width) (value : UInt32) :
    Processor.writeMemory segment offset w value m =
      if linear segment offset + w.bytes ≤ m.memory.size then
        (.ok (), { m with memory := m.memory.write (linear segment offset) w value })
      else (.error (.generalProtection 0), m) := by
  simp [Processor.writeMemory, writeMemory, Memory.contains, address_eq_linear]

theorem readMemory_eq_ok_iff {m : Machine} {segment offset : UInt32} {w : Width} {value : UInt32} :
    Processor.readMemory segment offset w m = (.ok value, m) ↔
      linear segment offset + w.bytes ≤ m.memory.size ∧
        value.toNat = Nat.ofDigits 256
          ((List.range w.bytes).map fun i => (m.memory.byte (linear segment offset + i)).toNat) := by
  rw [processor_readMemory, ← Memory.toNat_read, UInt32.toNat_inj]
  split <;> simp_all [eq_comm]

theorem reads_find_bytes_written (m : Machine) (segment offset : UInt32) (w : Width)
    (value : UInt32) :
    let fits := linear segment offset + w.bytes ≤ m.memory.size
    let written := Processor.writeMemory segment offset w value m
    ((∃ u, Processor.readMemory segment offset w m = (.ok u, m)) ↔ fits) ∧
      (written.1 = .ok () ↔ fits) ∧
      (∀ fault, written.1 = .error fault →
        Processor.readMemory segment offset w m = (.error fault, m) ∧ written.2 = m) ∧
      (written.1 = .ok () →
        written.2 = { m with memory := written.2.memory } ∧
        ∀ segment' offset' w' u,
          Processor.readMemory segment' offset' w' written.2 = (.ok u, written.2) ↔
            linear segment' offset' + w'.bytes ≤ m.memory.size ∧
              u.toNat = Nat.ofDigits 256 ((List.range w'.bytes).map fun i =>
                m.memory.byteWith (linear segment offset) w value (linear segment' offset' + i))) := by
  intro fits written
  have hread := processor_readMemory m segment offset w
  have hwrite : written = _ := processor_writeMemory m segment offset w value
  by_cases h : fits
  · rw [if_pos h] at hread hwrite
    rw [hread, hwrite]
    refine ⟨⟨fun _ => h, fun _ => ⟨_, rfl⟩⟩, ⟨fun _ => h, fun _ => rfl⟩, nofun, fun _ => ⟨rfl, ?_⟩⟩
    intro segment' offset' w' u
    rw [readMemory_eq_ok_iff]
    simp only [Memory.size_write, Memory.toNat_byte_write h]
  · rw [if_neg h] at hread hwrite
    rw [hread, hwrite]
    refine ⟨⟨nofun, fun hfits => absurd hfits h⟩, ⟨nofun, fun hfits => absurd hfits h⟩, ?_, nofun⟩
    rintro _ ⟨⟩
    exact ⟨rfl, rfl⟩

/-- The first segment loses its high bits and the second makes the sum wrap: the places are bytes 3 and 2. -/
theorem reads_across_written_bytes :
    let m : Machine := { initial with memory := ⟨#[1, 2, 3, 4, 5, 6, 7, 8]⟩ }
    let written := Processor.writeMemory 0x10000000 3 .four 0xAABBCCDD m
    written.1 = .ok () ∧
      Processor.readMemory 0xFFFFFFFF 18 .two written.2 = (.ok 0xDD03, written.2) := by
  intro m written
  have hok : written.1 = .ok () := by decide
  obtain ⟨-, -, -, hreads⟩ := reads_find_bytes_written m 0x10000000 3 .four 0xAABBCCDD
  exact ⟨hok, ((hreads hok).2 _ _ _ _).2 (by decide)⟩

end Machine

end Dynarec
