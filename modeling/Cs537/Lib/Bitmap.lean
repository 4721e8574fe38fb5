import Mathlib.Logic.Function.Basic
import Cs537.Lib.Bytes

/-!
# Bitmaps

A set of numbers kept in a memory, one bit each, the lowest bit of a byte first.
-/

namespace Cs537.Lib

/-- `1 << (i % 8)`. -/
def bitMask (i : Nat) : UInt8 := 1 <<< UInt8.ofNat (i % 8)

theorem bitMask_mod (i : Nat) : bitMask (i % 8) = bitMask i := by
  unfold bitMask
  rw [Nat.mod_mod]

theorem bitMask_ne_zero (i : Nat) : bitMask i ≠ 0 := by
  have h : ∀ k < 8, bitMask k ≠ 0 := by decide
  rw [← bitMask_mod]
  exact h _ (Nat.mod_lt _ (by decide))

theorem bitMask_and {i j : Nat} (hne : i % 8 ≠ j % 8) : bitMask i &&& bitMask j = 0 := by
  have h : ∀ k < 8, ∀ l < 8, k ≠ l → bitMask k &&& bitMask l = 0 := by decide
  rw [← bitMask_mod i, ← bitMask_mod j]
  exact h _ (Nat.mod_lt _ (by decide)) _ (Nat.mod_lt _ (by decide)) hne

theorem not_bitMask_and {i j : Nat} (hne : i % 8 ≠ j % 8) :
    ~~~ bitMask i &&& bitMask j = bitMask j := by
  have h : ∀ k < 8, ∀ l < 8, k ≠ l → ~~~ bitMask k &&& bitMask l = bitMask l := by decide
  rw [← bitMask_mod i, ← bitMask_mod j]
  exact h _ (Nat.mod_lt _ (by decide)) _ (Nat.mod_lt _ (by decide)) hne

theorem or_and_distrib (x y z : UInt8) : (x ||| y) &&& z = x &&& z ||| y &&& z :=
  UInt8.toBitVec_inj.1 BitVec.and_or_distrib_right

namespace Mem

variable {m m' : Mem} {i j : Nat}

/-- Is `i` in the set? -/
def bit (m : Mem) (i : Nat) : Bool := m (i / 8) &&& bitMask i != 0

def setBit (m : Mem) (i : Nat) : Mem := Function.update m (i / 8) (m (i / 8) ||| bitMask i)

def clearBit (m : Mem) (i : Nat) : Mem := Function.update m (i / 8) (m (i / 8) &&& ~~~ bitMask i)

theorem bit_congr (h : m (i / 8) = m' (i / 8)) : m.bit i = m'.bit i := by
  unfold bit
  rw [h]

theorem bit_setBit_self (m : Mem) (i : Nat) : (m.setBit i).bit i = true := by
  unfold bit setBit
  rw [Function.update_self, bne_iff_ne, or_and_distrib, UInt8.and_self]
  exact fun hzero => bitMask_ne_zero i (UInt8.or_eq_zero_iff.mp hzero).2

theorem bit_setBit_of_ne (m : Mem) (hne : j ≠ i) : (m.setBit i).bit j = m.bit j := by
  unfold bit setBit
  by_cases hbyte : j / 8 = i / 8
  · rw [hbyte, Function.update_self, or_and_distrib, bitMask_and (by omega),
      UInt8.or_zero]
  · rw [Function.update_of_ne hbyte]

theorem bit_clearBit_self (m : Mem) (i : Nat) : (m.clearBit i).bit i = false := by
  unfold bit clearBit
  rw [Function.update_self, UInt8.and_assoc, UInt8.not_and_self, UInt8.and_zero, bne_self_eq_false]

theorem bit_clearBit_of_ne (m : Mem) (hne : j ≠ i) : (m.clearBit i).bit j = m.bit j := by
  unfold bit clearBit
  by_cases hbyte : j / 8 = i / 8
  · rw [hbyte, Function.update_self, UInt8.and_assoc, not_bitMask_and (by omega)]
  · rw [Function.update_of_ne hbyte]

end Mem

end Cs537.Lib
