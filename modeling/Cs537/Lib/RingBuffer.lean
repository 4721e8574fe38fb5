import Mathlib.Logic.Function.Basic
import Mathlib.Data.Nat.ModEq

/-!
# Ring buffers with running counters

A queue in an array of `cap` cells. Two counters run on for ever modulo `m`, a multiple of `cap`:
how many elements have been taken out, and how many put in. Their residues modulo `cap` are the
places where it happens. `Holds` says which queue that is; nothing is assumed about the other cells.
-/

namespace Cs537.Lib

variable {α : Type*} {cap m : Nat} {data : Nat → α} {r w : Nat} {l : List α}

/-- The cells from counter `r` on hold the queue `l`, and `w` is the counter behind it. -/
structure Holds (cap m : Nat) (data : Nat → α) (r w : Nat) (l : List α) : Prop where
  reads : r < m
  writes : w = (r + l.length) % m
  length_le : l.length ≤ cap
  cells : ∀ i (hi : i < l.length), data ((r + i) % m % cap) = l[i]

namespace Holds

theorem empty (hr : r < m) : Holds cap m data r r [] where
  reads := hr
  writes := (Nat.mod_eq_of_lt hr).symm
  length_le := Nat.zero_le _
  cells := fun i hi => absurd hi (Nat.not_lt_zero i)

/-- The counters tell an empty queue. -/
theorem eq_nil_iff (h : Holds cap m data r w l) (hcap : cap < m) : r = w ↔ l = [] := by
  have hlength := h.length_le
  have hreads := h.reads
  have hwrites := h.writes
  constructor
  · intro hrw
    by_contra hl
    have hpos := List.length_pos_iff.mpr hl
    rw [← hrw] at hwrites
    rcases Nat.lt_or_ge (r + l.length) m with hlt | hge
    · rw [Nat.mod_eq_of_lt hlt] at hwrites
      omega
    · rw [Nat.mod_eq_sub_mod hge, Nat.mod_eq_of_lt (by omega)] at hwrites
      omega
  · rintro rfl
    rw [hwrites, List.length_nil, Nat.add_zero, Nat.mod_eq_of_lt hreads]

/-- The counters tell a full queue. -/
theorem length_eq_iff (h : Holds cap m data r w l) (hcap : cap < m) :
    w = (r + cap) % m ↔ l.length = cap := by
  have hlength := h.length_le
  have hreads := h.reads
  have hwrites := h.writes
  constructor
  · intro hrw
    rw [hwrites] at hrw
    rcases Nat.lt_or_ge (r + l.length) m with hlt | hge
    · rw [Nat.mod_eq_of_lt hlt] at hrw
      rcases Nat.lt_or_ge (r + cap) m with hlt' | hge'
      · rw [Nat.mod_eq_of_lt hlt'] at hrw
        omega
      · rw [Nat.mod_eq_sub_mod hge', Nat.mod_eq_of_lt (by omega)] at hrw
        omega
    · rw [Nat.mod_eq_sub_mod hge, Nat.mod_eq_of_lt (by omega), Nat.mod_eq_sub_mod (by omega),
        Nat.mod_eq_of_lt (by omega)] at hrw
      omega
  · intro hl
    rw [hwrites, hl]

/-- Two places of a queue that is not longer than the array are different cells. -/
theorem index_ne (hdvd : cap ∣ m) {i j : Nat} (hij : i < j) (hj : j < i + cap) :
    (r + i) % m % cap ≠ (r + j) % m % cap := by
  rw [Nat.mod_mod_of_dvd _ hdvd, Nat.mod_mod_of_dvd _ hdvd]
  intro heq
  have hmod : r + i ≡ r + j [MOD cap] := heq
  have hdiff := (Nat.modEq_iff_dvd' (by omega)).mp hmod
  rw [Nat.add_sub_add_left] at hdiff
  have hle := Nat.le_of_dvd (by omega) hdiff
  omega

/-- Putting an element in. -/
theorem put (h : Holds cap m data r w l) (hdvd : cap ∣ m) (hroom : l.length < cap) (x : α) :
    Holds cap m (Function.update data (w % cap) x) r ((w + 1) % m) (l ++ [x]) where
  reads := h.reads
  writes := by
    rw [h.writes, Nat.mod_add_mod, List.length_append, List.length_singleton, Nat.add_assoc]
  length_le := by
    rw [List.length_append, List.length_singleton]
    exact hroom
  cells := by
    intro i hi
    rw [List.length_append, List.length_singleton] at hi
    by_cases hlast : i = l.length
    · subst hlast
      rw [← h.writes, Function.update_self, List.getElem_append_right (le_refl _)]
      simp
    · have hi' : i < l.length := by omega
      have hne := index_ne (r := r) hdvd hi' (by omega)
      rw [← h.writes] at hne
      rw [Function.update_of_ne hne, h.cells i hi', List.getElem_append_left hi']

/-- Taking the first element out. -/
theorem take {x : α} (h : Holds cap m data r w (x :: l)) :
    data (r % cap) = x ∧ Holds cap m data ((r + 1) % m) w l := by
  have hm : 0 < m := Nat.lt_of_le_of_lt (Nat.zero_le _) h.reads
  refine ⟨?_, Nat.mod_lt _ hm, ?_, ?_, ?_⟩
  · have hfirst := h.cells 0 (Nat.succ_pos _)
    rwa [Nat.add_zero, Nat.mod_eq_of_lt h.reads] at hfirst
  · rw [h.writes, Nat.mod_add_mod, List.length_cons, Nat.add_assoc, Nat.add_comm 1]
  · have hlength := h.length_le
    rw [List.length_cons] at hlength
    omega
  · intro i hi
    have hcell := h.cells (i + 1) (Nat.succ_lt_succ hi)
    rw [Nat.mod_add_mod, show r + 1 + i = r + (i + 1) by omega, hcell]
    rfl

end Holds

end Cs537.Lib
