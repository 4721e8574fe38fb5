import Cs537.P5.Vma
import Mathlib.Data.Int.ConditionallyCompleteOrder
import Mathlib.Order.ConditionallyCompleteLattice.Basic

/-!
# Ranges of pages in the table

Of an entry only its address and its length matter for where it lies. `SpansOk f n` says that
the first `n` of the slots `f` hold ranges of whole pages in the user part above `MMAPBASE`, one
after the other, and that the slots behind them hold such ranges too or nothing that could be
taken for one. These are the changes that keep it: a range is inserted, a slot behind the live
ones is taken over, a range is removed, shortened from the front, or made longer.
-/

namespace Cs537.P5

open Cs537.Lib

/-- Where an entry lies. -/
structure Span where
  addr : Int
  len : Int
  deriving DecidableEq, Repr

namespace Span

/-- The end of the range, rounded up to a page. -/
def roundEnd (s : Span) : Int := alignUp pgsize (s.addr + s.len)

/-- A range of pages that a mapping may have. -/
structure Placed (s : Span) : Prop where
  aligned : pgsize ∣ s.addr
  len_pos : 0 < s.len
  base_le : mmapBase ≤ s.addr
  end_le : s.roundEnd ≤ kernBase

/-- What a slot without a mapping holds: zeros, or fields of another process. -/
structure Spare (s : Span) : Prop where
  addr_nonneg : 0 ≤ s.addr
  addr_lt : s.addr < mmapBase
  len_le : s.len ≤ 0

theorem pgsize_pos : 0 < pgsize := by decide

theorem le_roundEnd (s : Span) : s.addr + s.len ≤ s.roundEnd := le_alignUp pgsize_pos _

variable {s : Span}

theorem Placed.addr_lt (h : s.Placed) : s.addr < s.roundEnd := by
  have := s.le_roundEnd
  have := h.len_pos
  omega

theorem Placed.addr_lt_kernBase (h : s.Placed) : s.addr < kernBase := by
  have := h.addr_lt
  have := h.end_le
  omega

/-- A range that ends before another one begins ends there rounded up, too. -/
theorem roundEnd_le {a : Int} (ha : pgsize ∣ a) (h : s.addr + s.len ≤ a) : s.roundEnd ≤ a :=
  alignUp_le pgsize_pos _ ha h

/-- Taking whole pages away from the front. -/
theorem Placed.shorten (h : s.Placed) {u : Int} (hu : pgsize ∣ u) (h0 : 0 ≤ u) (hlt : u < s.len) :
    (Span.mk (s.addr + u) (s.len - u)).Placed ∧
      (Span.mk (s.addr + u) (s.len - u)).roundEnd = s.roundEnd := by
  have hend : (Span.mk (s.addr + u) (s.len - u)).roundEnd = s.roundEnd := by
    unfold roundEnd
    congr 1
    show s.addr + u + (s.len - u) = s.addr + s.len
    omega
  have hbase := h.base_le
  have hle := h.end_le
  refine ⟨⟨Int.dvd_add h.aligned hu, ?_, ?_, ?_⟩, hend⟩
  · show 0 < s.len - u
    omega
  · show mmapBase ≤ s.addr + u
    omega
  · rw [hend]
    exact hle

end Span

/-- The slots `f` of a table with `n` live entries. -/
structure SpansOk (f : Int → Span) (n : Int) : Prop where
  nonneg : 0 ≤ n
  le : n ≤ 32
  slot : ∀ i, 0 ≤ i → i ≤ 32 → (f i).Spare ∨ (f i).Placed
  live : ∀ i, 0 ≤ i → i < n → (f i).Placed
  sorted : Separated Span.addr Span.roundEnd f n

namespace SpansOk

variable {f g : Int → Span} {n k : Int} {x : Span}

theorem addr_le_roundEnd (h : SpansOk f n) : ∀ i, 0 ≤ i → i < n → (f i).addr ≤ (f i).roundEnd :=
  fun i h0 hi => Int.le_of_lt (h.live i h0 hi).addr_lt

/-- A range is inserted at index `k`. -/
theorem insert (h : SpansOk f n) (hroom : n < 32) (h0 : 0 ≤ k) (hk : k ≤ n) (hx : x.Placed)
    (hbelow : 0 < k → (f (k - 1)).roundEnd ≤ x.addr) (habove : k < n → x.roundEnd ≤ (f k).addr)
    (hin : ∀ j, j ≤ n → g j = insertAt f k x j) (hout : ∀ j, n < j → g j = f j) :
    SpansOk g (n + 1) := by
  have hnonneg := h.nonneg
  refine ⟨by omega, by omega, ?_, ?_, ?_⟩
  · intro i h1 h2
    by_cases hi : i ≤ n
    · rw [hin i hi]
      unfold insertAt
      by_cases hik : i < k
      · rw [if_pos hik]
        exact h.slot i h1 h2
      · rw [if_neg hik]
        by_cases hik' : i = k
        · rw [if_pos hik']
          exact .inr hx
        · rw [if_neg hik']
          exact h.slot (i - 1) (by omega) (by omega)
    · rw [hout i (by omega)]
      exact h.slot i h1 h2
  · intro i h1 h2
    rw [hin i (by omega)]
    unfold insertAt
    by_cases hik : i < k
    · rw [if_pos hik]
      exact h.live i h1 (by omega)
    · rw [if_neg hik]
      by_cases hik' : i = k
      · rw [if_pos hik']
        exact hx
      · rw [if_neg hik']
        exact h.live (i - 1) (by omega) (by omega)
  · have hsep := h.sorted.insertAt h.addr_le_roundEnd hbelow habove h0 hk
    exact hsep.congr fun i _ hi => hin i (by omega)

/-- The slot behind the live ones is taken over, and another range put into the next slot. -/
theorem absorb (h : SpansOk f n) (hroom : n < 32) (hnext : (f n).Placed)
    (hbelow : 0 < n → (f (n - 1)).roundEnd ≤ (f n).addr) (hx : x.Placed) :
    SpansOk (Function.update f (n + 1) x) (n + 1) := by
  have hnonneg := h.nonneg
  have hold {i : Int} (hi : i < n + 1) : Function.update f (n + 1) x i = f i :=
    Function.update_of_ne (by omega) _ _
  refine ⟨by omega, by omega, ?_, ?_, ?_⟩
  · intro i h1 h2
    by_cases hi : i = n + 1
    · rw [hi, Function.update_self]
      exact .inr hx
    · rw [Function.update_of_ne hi]
      exact h.slot i h1 h2
  · intro i h1 h2
    rw [hold h2]
    by_cases hi : i = n
    · rw [hi]
      exact hnext
    · exact h.live i h1 (by omega)
  · intro i j h1 hij hj
    rw [hold (by omega), hold hj]
    by_cases hjn : j = n
    · subst hjn
      by_cases hi : i = j - 1
      · rw [hi]
        exact hbelow (by omega)
      · exact ((h.sorted i (j - 1) h1 (by omega) (by omega)).trans
          (h.addr_le_roundEnd (j - 1) (by omega) (by omega))).trans (hbelow (by omega))
    · exact h.sorted i j h1 hij (by omega)

/-- The entry at index `k` is cleared, and the slots behind it move down up to slot `m`. -/
theorem remove {m : Int} (h : SpansOk f n) (hn : 0 < n) (h0 : 0 ≤ k) (hkm : k ≤ m) (hm : m ≤ 32)
    (hstop : m < 32 → (f (m + 1)).addr = 0)
    (hx : x.Spare) (hg : ∀ j, g j = if k ≤ j ∧ j < m then f (j + 1) else if j = k then x else f j) :
    SpansOk g (n - 1) := by
  have hle := h.le
  -- the live entries behind `k` are in use, so all of them move
  have hmoved : k < n → n - 1 ≤ m := by
    intro hkn
    by_contra hlt
    have hlive := h.live (m + 1) (by omega) (by omega)
    have haddr := hstop (by omega)
    have hbase := hlive.base_le
    rw [haddr] at hbase
    exact absurd hbase (by decide)
  have hfront : ∀ j, 0 ≤ j → j < n - 1 → g j = removeAt f k j := by
    intro j _ hj
    rw [hg]
    unfold removeAt
    by_cases hjk : j < k
    · rw [if_neg (by omega), if_neg (by omega), if_pos hjk]
    · rw [if_pos (by have := hmoved (by omega); omega), if_neg hjk]
  refine ⟨by omega, by omega, ?_, ?_, ?_⟩
  · intro i h1 h2
    rw [hg]
    by_cases hi : k ≤ i ∧ i < m
    · rw [if_pos hi]
      exact h.slot (i + 1) (by omega) (by omega)
    · rw [if_neg hi]
      by_cases hik : i = k
      · rw [if_pos hik]
        exact .inl hx
      · rw [if_neg hik]
        exact h.slot i h1 h2
  · intro i h1 h2
    rw [hfront i h1 h2]
    unfold removeAt
    by_cases hik : i < k
    · rw [if_pos hik]
      exact h.live i h1 (by omega)
    · rw [if_neg hik]
      exact h.live (i + 1) (by omega) (by omega)
  · exact h.sorted.removeAt.congr hfront

/-- An entry is replaced by one that lies between its neighbours. -/
theorem replace (h : SpansOk f n) (hx : x.Placed)
    (hbelow : ∀ i, 0 ≤ i → i < k → k < n → (f i).roundEnd ≤ x.addr)
    (habove : ∀ j, 0 ≤ k → k < j → j < n → x.roundEnd ≤ (f j).addr) :
    SpansOk (Function.update f k x) n := by
  refine ⟨h.nonneg, h.le, ?_, ?_, h.sorted.update hbelow habove⟩
  · intro i h1 h2
    by_cases hi : i = k
    · rw [hi, Function.update_self]
      exact .inr hx
    · rw [Function.update_of_ne hi]
      exact h.slot i h1 h2
  · intro i h1 h2
    by_cases hi : i = k
    · rw [hi, Function.update_self]
      exact hx
    · rw [Function.update_of_ne hi]
      exact h.live i h1 h2

/-- An entry is shortened from the front by whole pages. -/
theorem shorten (h : SpansOk f n) (hk : (f k).Placed) {u : Int} (hu : pgsize ∣ u) (h0 : 0 ≤ u)
    (hlt : u < (f k).len) :
    SpansOk (Function.update f k ⟨(f k).addr + u, (f k).len - u⟩) n := by
  obtain ⟨hplaced, hend⟩ := hk.shorten hu h0 hlt
  apply h.replace hplaced
  · intro i h1 hik hkn
    have := h.sorted i k h1 hik hkn
    show (f i).roundEnd ≤ (f k).addr + u
    omega
  · intro j h1 hkj hjn
    rw [hend]
    exact h.sorted k j h1 hkj hjn

/-- Entry 0 gets a further page. -/
theorem grow (h : SpansOk f n) (hn : 0 < n)
    (hroom : (f 0).roundEnd + pgsize ≤ if n = 1 then kernBase else (f 1).addr) :
    SpansOk (Function.update f 0 ⟨(f 0).addr, (f 0).len + pgsize⟩) n := by
  have hlive := h.live 0 (by omega) hn
  have hend : (Span.mk (f 0).addr ((f 0).len + pgsize)).roundEnd = (f 0).roundEnd + pgsize := by
    simp only [Span.roundEnd, alignUp, pgsize]
    omega
  have hbound : (f 0).roundEnd + pgsize ≤ kernBase := by
    by_cases hone : n = 1
    · rwa [if_pos hone] at hroom
    · rw [if_neg hone] at hroom
      have := (h.live 1 (by omega) (by omega)).addr_lt_kernBase
      omega
  have hplaced : (Span.mk (f 0).addr ((f 0).len + pgsize)).Placed := by
    refine ⟨hlive.aligned, ?_, hlive.base_le, by rwa [hend]⟩
    have := hlive.len_pos
    have := Span.pgsize_pos
    show 0 < (f 0).len + pgsize
    omega
  apply h.replace hplaced
  · intro i h1 h2
    omega
  · intro j _ h1 hjn
    rw [hend]
    rw [if_neg (by omega)] at hroom
    by_cases hj : j = 1
    · rw [hj]
      exact hroom
    · have hone := h.live 1 (by omega) (by omega)
      have := h.sorted 1 j (by omega) (by omega) hjn
      have := hone.addr_lt
      omega

end SpansOk

end Cs537.P5
