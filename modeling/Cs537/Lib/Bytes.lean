import Mathlib.Data.List.Basic
import Mathlib.Tactic.Ring
import Cs537.Lib.CString

/-!
# Byte memories

A memory is a function from addresses to bytes. `write` stores a run of bytes and `slice`
reads one back; fixed-width integers are stored little-endian. The lemmas say what a slice
of a written memory is: the old bytes where the two do not overlap, the written ones where
the slice lies inside.
-/

namespace Cs537.Lib

/-- The bytes of a memory, by address. -/
abbrev Mem := Nat → UInt8

namespace Mem

variable {m m' : Mem} {a o n k : Nat} {bs cs : Bytes}

/-- `memcpy(m + o, bs, |bs|)`. -/
def write (m : Mem) (o : Nat) (bs : Bytes) : Mem := fun a =>
  if a < o then m a else (bs[a - o]?).getD (m a)

/-- The `n` bytes from address `o` on. -/
def slice (m : Mem) (o n : Nat) : Bytes := (List.range n).map fun i => m (o + i)

@[simp] theorem length_slice (m : Mem) (o n : Nat) : (m.slice o n).length = n := by
  simp [slice]

theorem getElem?_slice (m : Mem) (o n i : Nat) :
    (m.slice o n)[i]? = if i < n then some (m (o + i)) else none := by
  unfold slice
  rw [List.getElem?_map]
  by_cases h : i < n
  · rw [if_pos h, List.getElem?_range h]
    rfl
  · rw [if_neg h, List.getElem?_eq_none (by simpa using h)]
    rfl

/-- Two memories that agree on a range have the same slice there. -/
theorem slice_congr (h : ∀ i < n, m (o + i) = m' (a + i)) : m.slice o n = m'.slice a n := by
  apply List.map_congr_left
  intro i hi
  exact h i (List.mem_range.mp hi)

theorem slice_add (m : Mem) (o n k : Nat) :
    m.slice o (n + k) = m.slice o n ++ m.slice (o + n) k := by
  unfold slice
  rw [List.range_add, List.map_append, List.map_map]
  congr 1
  apply List.map_congr_left
  intro i _
  simp only [Function.comp_apply, Nat.add_assoc]

/-- A part of a slice. -/
theorem slice_drop_take (m : Mem) (o : Nat) (h : a + k ≤ n) :
    ((m.slice o n).drop a).take k = m.slice (o + a) k := by
  apply List.ext_getElem?
  intro i
  rw [List.getElem?_take, List.getElem?_drop, getElem?_slice, getElem?_slice]
  by_cases hi : i < k
  · rw [if_pos hi, if_pos hi, if_pos (by omega), Nat.add_assoc]
  · rw [if_neg hi, if_neg hi]

theorem write_of_lt (h : a < o) : m.write o bs a = m a := if_pos h

theorem write_of_ge (h : o + bs.length ≤ a) : m.write o bs a = m a := by
  unfold write
  rw [if_neg (by omega), List.getElem?_eq_none (by omega)]
  rfl

/-- A byte outside the written range is as before. -/
theorem write_of_disjoint (h : a < o ∨ o + bs.length ≤ a) : m.write o bs a = m a := by
  rcases h with h | h
  · exact write_of_lt h
  · exact write_of_ge h

/-- A slice that does not overlap the written range is as before. -/
theorem slice_write_of_disjoint (h : a + n ≤ o ∨ o + bs.length ≤ a) :
    (m.write o bs).slice a n = m.slice a n := by
  apply slice_congr
  intro i hi
  apply write_of_disjoint
  omega

/-- A slice inside the written range holds the written bytes. -/
theorem slice_write_inside (h : a + n ≤ bs.length) :
    (m.write o bs).slice (o + a) n = (bs.drop a).take n := by
  apply List.ext_getElem?
  intro i
  rw [getElem?_slice, List.getElem?_take, List.getElem?_drop]
  by_cases hi : i < n
  · rw [if_pos hi, if_pos hi]
    unfold write
    rw [if_neg (by omega), show o + a + i - o = a + i by omega,
      List.getElem?_eq_getElem (by omega)]
    rfl
  · rw [if_neg hi, if_neg hi]

/-- Reading back what was written. -/
theorem slice_write_self (m : Mem) (o : Nat) (bs : Bytes) :
    (m.write o bs).slice o bs.length = bs := by
  have h : (m.write o bs).slice (o + 0) bs.length = (bs.drop 0).take bs.length :=
    slice_write_inside (by omega)
  simpa using h

/-- Writing two runs of bytes one behind the other. -/
theorem write_append (m : Mem) (o : Nat) (bs cs : Bytes) :
    m.write o (bs ++ cs) = (m.write o bs).write (o + bs.length) cs := by
  funext a
  unfold write
  by_cases h : a < o
  · rw [if_pos h, if_pos (by omega), if_pos h]
  · rw [if_neg h, if_neg h]
    by_cases h' : a < o + bs.length
    · rw [if_pos h', List.getElem?_append_left (by omega)]
    · rw [if_neg h', List.getElem?_append_right (by omega),
        List.getElem?_eq_none (l := bs) (by omega), Nat.sub_sub]
      rfl

end Mem

/-! ## Little-endian integers -/

/-- The `w` low bytes of `v`, lowest first. -/
def leBytes : Nat → Nat → Bytes
  | 0, _ => []
  | w + 1, v => UInt8.ofNat v :: leBytes w (v / 256)

/-- The number that bytes stand for, lowest first. -/
def leNat : Bytes → Nat
  | [] => 0
  | b :: bs => b.toNat + 256 * leNat bs

@[simp] theorem length_leBytes (w v : Nat) : (leBytes w v).length = w := by
  induction w generalizing v with
  | zero => rfl
  | succ w ih => simp [leBytes, ih]

theorem leNat_leBytes (w v : Nat) : leNat (leBytes w v) = v % 256 ^ w := by
  induction w generalizing v with
  | zero => simp [leBytes, leNat, Nat.mod_one]
  | succ w ih =>
    simp only [leBytes, leNat, ih]
    rw [pow_succ', Nat.mod_mul]
    simp

/-- The four bytes of an `unsigned int`. -/
def le32 (v : UInt32) : Bytes := leBytes 4 v.toNat

@[simp] theorem length_le32 (v : UInt32) : (le32 v).length = 4 := length_leBytes 4 _

/-- One word of an array of words. -/
theorem flatMap_le32_word {ws : List UInt32} {k : Nat} {v : UInt32} (h : ws[k]? = some v) :
    ((ws.flatMap le32).drop (4 * k)).take 4 = le32 v := by
  induction ws generalizing k with
  | nil => simp at h
  | cons x ws ih =>
    rw [List.flatMap_cons]
    cases k with
    | zero =>
      simp only [List.getElem?_cons_zero, Option.some.injEq] at h
      subst h
      rw [Nat.mul_zero, List.drop_zero, List.take_append_of_le_length (by simp),
        List.take_of_length_le (by simp)]
    | succ k =>
      rw [List.getElem?_cons_succ] at h
      rw [List.drop_append, List.drop_eq_nil_of_le (by simp), List.nil_append,
        length_le32, show 4 * (k + 1) - 4 = 4 * k by omega]
      exact ih h

/-- The `unsigned int` at address `o`. -/
def Mem.u32 (m : Mem) (o : Nat) : UInt32 := UInt32.ofNat (leNat (m.slice o 4))

theorem Mem.u32_congr {m m' : Mem} {o : Nat} (h : ∀ a, o ≤ a → a < o + 4 → m' a = m a) :
    m'.u32 o = m.u32 o := by
  unfold Mem.u32
  rw [Mem.slice_congr fun i hi => h (o + i) (by omega) (by omega)]

theorem ofNat_leNat_le32 (v : UInt32) : UInt32.ofNat (leNat (le32 v)) = v := by
  rw [le32, leNat_leBytes, Nat.mod_eq_of_lt]
  · exact UInt32.ofNat_toNat
  · exact v.toNat_lt

theorem Mem.u32_of_slice {m : Mem} {o : Nat} {v : UInt32} (h : m.slice o 4 = le32 v) :
    m.u32 o = v := by
  unfold Mem.u32
  rw [h, ofNat_leNat_le32]

/-- The two bytes of an `unsigned short`. -/
def le16 (v : UInt16) : Bytes := leBytes 2 v.toNat

@[simp] theorem length_le16 (v : UInt16) : (le16 v).length = 2 := length_leBytes 2 _

/-- The `unsigned short` at address `o`. -/
def Mem.u16 (m : Mem) (o : Nat) : UInt16 := UInt16.ofNat (leNat (m.slice o 2))

theorem Mem.u16_of_slice {m : Mem} {o : Nat} {v : UInt16} (h : m.slice o 2 = le16 v) :
    m.u16 o = v := by
  unfold Mem.u16
  rw [h, le16, leNat_leBytes, Nat.mod_eq_of_lt]
  · exact UInt16.ofNat_toNat
  · exact v.toNat_lt

end Cs537.Lib
