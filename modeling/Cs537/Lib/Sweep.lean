import Mathlib.Data.List.Nodup

/-!
# Sweeps round a table

A cursor goes round a table of `n` slots, from the last one back to the first. On the way from slot
`start` to slot `target` it comes to no slot twice, and in fewer than `n` steps it is there.
-/

namespace Cs537.Lib

variable {n start cursor target x y looks : Nat} {slots : List Nat}

/-- How far slot `x` is from slot `start`, round the table. -/
def ahead (n start x : Nat) : Nat := if start ≤ x then x - start else x + n - start

theorem ahead_of_le (h : start ≤ x) : ahead n start x = x - start := if_pos h

theorem ahead_of_lt (h : x < start) : ahead n start x = x + n - start :=
  if_neg (Nat.not_le_of_lt h)

theorem ahead_lt (hstart : start ≤ n) (hx : x < n) : ahead n start x < n := by
  rcases Nat.lt_or_ge x start with h | h
  · rw [ahead_of_lt h]
    omega
  · rw [ahead_of_le h]
    omega

theorem ahead_inj (hstart : start ≤ n) (hx : x < n) (hy : y < n)
    (h : ahead n start x = ahead n start y) : x = y := by
  rcases Nat.lt_or_ge x start with hxs | hxs
  · rw [ahead_of_lt hxs] at h
    rcases Nat.lt_or_ge y start with hys | hys
    · rw [ahead_of_lt hys] at h
      omega
    · rw [ahead_of_le hys] at h
      omega
  · rw [ahead_of_le hxs] at h
    rcases Nat.lt_or_ge y start with hys | hys
    · rw [ahead_of_lt hys] at h
      omega
    · rw [ahead_of_le hys] at h
      omega

/-- From `start` to `cursor` the cursor has not passed `target`. It has made `looks` steps and
stopped at `slots` on the way. -/
structure Sweep (n start target cursor looks : Nat) (slots : List Nat) : Prop where
  looks_eq : looks = ahead n start cursor
  before : ahead n start cursor ≤ ahead n start target
  behind : ∀ x ∈ slots, ahead n start x < ahead n start cursor
  nodup : slots.Nodup

namespace Sweep

theorem here (n start target : Nat) : Sweep n start target start 0 [] := by
  have hzero : ahead n start start = 0 := by
    rw [ahead_of_le (Nat.le_refl start), Nat.sub_self]
  exact ⟨hzero.symm, by rw [hzero]; exact Nat.zero_le _, nofun, List.nodup_nil⟩

/-- One slot further is one step more. -/
theorem ahead_succ (h : Sweep n start target cursor looks slots) (hstart : start ≤ n)
    (hcursor : cursor < n) (htarget : target < n) (hne : cursor ≠ target) :
    ahead n start (cursor + 1) = ahead n start cursor + 1 := by
  have hlt : ahead n start cursor < ahead n start target :=
    Nat.lt_of_le_of_ne h.before fun heq => hne (ahead_inj hstart hcursor htarget heq)
  have hmax := ahead_lt hstart htarget
  rcases Nat.lt_or_ge cursor start with hcs | hcs
  · rw [ahead_of_lt hcs] at hlt ⊢
    -- to come round to `start` again the cursor has to pass the target
    rw [ahead_of_lt (by omega)]
    omega
  · rw [ahead_of_le hcs, ahead_of_le (by omega)]
    omega

theorem pass (h : Sweep n start target cursor looks slots) (hstart : start ≤ n)
    (hcursor : cursor < n) (htarget : target < n) (hne : cursor ≠ target) :
    Sweep n start target (cursor + 1) (looks + 1) slots := by
  have hsucc := h.ahead_succ hstart hcursor htarget hne
  have hlt : ahead n start cursor < ahead n start target :=
    Nat.lt_of_le_of_ne h.before fun heq => hne (ahead_inj hstart hcursor htarget heq)
  refine ⟨by rw [hsucc, h.looks_eq], by rw [hsucc]; exact hlt, fun x hx => ?_, h.nodup⟩
  rw [hsucc]
  exact Nat.lt_succ_of_lt (h.behind x hx)

theorem stop (h : Sweep n start target cursor looks slots) (hstart : start ≤ n)
    (hcursor : cursor < n) (htarget : target < n) (hne : cursor ≠ target) :
    Sweep n start target (cursor + 1) (looks + 1) (slots ++ [cursor]) := by
  have hpass := h.pass hstart hcursor htarget hne
  refine ⟨hpass.looks_eq, hpass.before, fun x hx => ?_, ?_⟩
  · rcases List.mem_append.mp hx with hx | hx
    · exact hpass.behind x hx
    · rw [List.mem_singleton.mp hx, h.ahead_succ hstart hcursor htarget hne]
      exact Nat.lt_succ_self _
  · refine List.Nodup.append h.nodup (List.nodup_singleton _) fun x hx hlast => ?_
    rw [List.mem_singleton.mp hlast] at hx
    exact Nat.lt_irrefl _ (h.behind _ hx)

/-- From the end of the table to its beginning. -/
theorem wrap (h : Sweep n start target n looks slots) (hstart : start ≤ n) (htarget : target < n) :
    Sweep n start target 0 looks slots := by
  have hbefore := h.before
  have hsame : ahead n start 0 = ahead n start n := by
    rcases Nat.eq_zero_or_pos start with hzero | hpos
    · rw [hzero, ahead_of_le (Nat.zero_le _), ahead_of_le (Nat.zero_le _)] at hbefore
      omega
    · rw [ahead_of_lt hpos, ahead_of_le hstart, Nat.zero_add]
  refine ⟨?_, ?_, ?_, h.nodup⟩
  · rw [hsame]
    exact h.looks_eq
  · rw [hsame]
    exact hbefore
  · rw [hsame]
    exact h.behind

theorem looks_lt (h : Sweep n start target cursor looks slots) (hstart : start ≤ n)
    (htarget : target < n) : looks < n := by
  rw [h.looks_eq]
  exact Nat.lt_of_le_of_lt h.before (ahead_lt hstart htarget)

end Sweep

end Cs537.Lib
