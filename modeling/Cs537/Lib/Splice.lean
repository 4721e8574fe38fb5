import Mathlib.Data.List.Basic

/-!
# Overwriting part of a list

`splice` writes a list over another one from some place on, and beyond its end if it is longer. Two
writes one behind the other are one write.
-/

namespace Cs537.Lib

variable {α : Type*} {data : List α} {off : Nat}

/-- The list `data` with `bs` written over it from `off` on. -/
def splice (data : List α) (off : Nat) (bs : List α) : List α :=
  data.take off ++ bs ++ data.drop (off + bs.length)

@[simp] theorem splice_nil (data : List α) (off : Nat) : splice data off [] = data := by
  simp [splice]

theorem length_splice (a : List α) (h : off ≤ data.length) :
    (splice data off a).length = max data.length (off + a.length) := by
  simp only [splice, List.length_append, List.length_take, List.length_drop]
  omega

theorem splice_splice (a b : List α) (h : off ≤ data.length) :
    splice (splice data off a) (off + a.length) b = splice data off (a ++ b) := by
  have htake : (splice data off a).take (off + a.length) = data.take off ++ a := by
    have hlength : (data.take off ++ a).length = off + a.length := by
      rw [List.length_append, List.length_take]
      omega
    rw [splice, ← hlength, List.take_left]
  have hdrop : (splice data off a).drop (off + a.length + b.length) =
      data.drop (off + (a ++ b).length) := by
    have hlength : (data.take off ++ a).length = off + a.length := by
      rw [List.length_append, List.length_take]
      omega
    rw [splice, ← hlength, ← List.drop_drop, List.drop_left, List.drop_drop, hlength,
      List.length_append]
    congr 1
    omega
  rw [splice, htake, hdrop, splice, List.append_assoc (data.take off) a b]

/-- What is written is there. -/
theorem getElem?_splice {a : List α} {k : Nat} (h : off ≤ data.length) (hk : k < a.length) :
    (splice data off a)[off + k]? = a[k]? := by
  have hlength : (data.take off).length = off := by
    rw [List.length_take]
    omega
  rw [splice, List.append_assoc, List.getElem?_append_right (by omega), hlength,
    Nat.add_sub_cancel_left, List.getElem?_append_left hk]

/-- What is around it stays. -/
theorem getElem?_splice_outside {a : List α} {j : Nat} (h : off ≤ data.length)
    (hj : j < off ∨ off + a.length ≤ j) : (splice data off a)[j]? = data[j]? := by
  have hlength : (data.take off ++ a).length = off + a.length := by
    rw [List.length_append, List.length_take]
    omega
  unfold splice
  rcases hj with hlt | hge
  · rw [List.append_assoc, List.getElem?_append_left (by rw [List.length_take]; omega),
      List.getElem?_take_of_lt hlt]
  · rw [List.getElem?_append_right (by omega), hlength, List.getElem?_drop,
      show off + a.length + (j - (off + a.length)) = j by omega]

end Cs537.Lib
