import Mathlib.Algebra.Order.Ring.Int
import Mathlib.Algebra.Order.Group.Unbundled.Int

/-!
# C integers

A value of type `int` is the integer it stands for, a value of type `unsigned int` too. An
operation computes the exact result and then cuts it down to 32 bits with `i32` or `u32`. A
comparison of mixed types converts both sides with `u32`.
-/

namespace Cs537.Lib

/-- The `int` with the low 32 bits of an integer. -/
def i32 (x : Int) : Int := (x + 2 ^ 31) % 2 ^ 32 - 2 ^ 31

/-- The `unsigned int` with the low 32 bits of an integer. -/
def u32 (x : Int) : Int := x % 2 ^ 32

/-- The `size_t` with the low 64 bits of an integer. -/
def u64 (x : Int) : Int := x % 2 ^ 64

theorem i32_mem (x : Int) : -2 ^ 31 ≤ i32 x ∧ i32 x < 2 ^ 31 := by
  unfold i32
  omega

theorem i32_of_mem {x : Int} (hlo : -2 ^ 31 ≤ x) (hhi : x < 2 ^ 31) : i32 x = x := by
  unfold i32
  omega

theorem u32_of_mem {x : Int} (hlo : 0 ≤ x) (hhi : x < 2 ^ 32) : u32 x = x := by
  unfold u32
  omega

theorem u64_of_mem {x : Int} (hlo : 0 ≤ x) (hhi : x < 2 ^ 64) : u64 x = x := by
  unfold u64
  omega

@[simp] theorem u32_i32 (x : Int) : u32 (i32 x) = u32 x := by
  unfold u32 i32
  omega

/-- The next multiple of the positive number `k`. -/
def alignUp (k x : Int) : Int := (x + k - 1) / k * k

section AlignUp

variable {k : Int} (hk : 0 < k) (x : Int)
include hk

theorem le_alignUp : x ≤ alignUp k x := by
  have h := Int.lt_ediv_add_one_mul_self (x + k - 1) hk
  unfold alignUp
  rw [Int.add_mul, Int.one_mul] at h
  omega

theorem alignUp_lt : alignUp k x < x + k := by
  have h := Int.ediv_mul_le (x + k - 1) (Int.ne_of_gt hk)
  unfold alignUp
  omega

omit hk in
theorem dvd_alignUp : k ∣ alignUp k x := Dvd.intro_left _ rfl

/-- The next multiple is the least one. -/
theorem alignUp_le {y : Int} (hy : k ∣ y) (hxy : x ≤ y) : alignUp k x ≤ y := by
  obtain ⟨c, rfl⟩ := hy
  have h := alignUp_lt hk x
  obtain ⟨d, hd⟩ := dvd_alignUp (k := k) x
  rw [hd] at h ⊢
  have hlt : k * d < k * (c + 1) := by
    rw [Int.mul_add, Int.mul_one]
    omega
  have := Int.lt_of_mul_lt_mul_left hlt (Int.le_of_lt hk)
  exact Int.mul_le_mul_of_nonneg_left (by omega) (Int.le_of_lt hk)

theorem alignUp_of_dvd (h : k ∣ x) : alignUp k x = x :=
  Int.le_antisymm (alignUp_le hk x h (Int.le_refl x)) (le_alignUp hk x)

end AlignUp

end Cs537.Lib
