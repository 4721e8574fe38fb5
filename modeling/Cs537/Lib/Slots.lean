import Mathlib.Data.List.Perm.Basic
import Mathlib.Logic.Function.Basic
import Mathlib.Order.Basic
import Mathlib.Tactic.SplitIfs

/-!
# Arrays of slots

An array is a function from indices, so that an index may be out of bounds. Two loops move a
block of slots by one place, from the back to make room or from the front to close a gap, and
a third one searches.
`Separated` says that the intervals in the first slots come one after the other; it is kept
when one is inserted into a gap, taken out, or made smaller. `entries` lists the first slots.
-/

namespace Cs537.Lib

variable {α β : Type*}

/-! ## Moving slots -/

/-- Copies the slots below `j` up by one, `n` of them, from the back. -/
def shiftUp (copy : α → α → α) (f : Int → α) : Nat → Int → Int → α
  | 0, _ => f
  | n + 1, j => shiftUp copy (Function.update f j (copy (f j) (f (j - 1)))) n (j - 1)

theorem shiftUp_apply (copy : α → α → α) (f : Int → α) (n : Nat) (j i : Int) :
    shiftUp copy f n j i = if j - n < i ∧ i ≤ j then copy (f i) (f (i - 1)) else f i := by
  induction n generalizing f j with
  | zero =>
    rw [if_neg (by omega)]
    rfl
  | succ n ih =>
    rw [shiftUp, ih]
    by_cases hij : i = j
    · subst hij
      rw [if_neg (by omega), Function.update_self, if_pos (by omega)]
    · rw [Function.update_of_ne hij]
      by_cases hin : j - 1 - n < i ∧ i ≤ j - 1
      · rw [if_pos hin, if_pos (by omega), Function.update_of_ne (by omega)]
      · rw [if_neg hin, if_neg (by omega)]

/-- The slots behind `i + 1` up to `n` hold what stood one place before. -/
def movedUp (f : Int → α) (i n : Int) : Int → α := fun j =>
  if i + 1 < j ∧ j ≤ n then f (j - 1) else f j

/-- Moving slots up leaves the first `n` as they were if and only if those that move are alike. -/
theorem movedUp_eq_iff {f : Int → α} {i n : Int} (hi : -1 ≤ i) :
    (∀ j, 0 ≤ j → j < n → movedUp f i n j = f j) ↔
      ∀ j, i + 1 < j → j < n → f j = f (i + 1) := by
  constructor
  · intro hsame j hij
    obtain ⟨m, rfl⟩ : ∃ m : Nat, j = i + 1 + 1 + m := ⟨(j - (i + 1 + 1)).toNat, by omega⟩
    induction m with
    | zero =>
      intro hj
      have := hsame _ (by omega) hj
      rw [movedUp, if_pos (by omega)] at this
      rw [← this]
      congr 1
      omega
    | succ m ih =>
      intro hj
      have := hsame _ (by omega) hj
      rw [movedUp, if_pos (by omega)] at this
      rw [← this, ← ih (by omega) (by omega)]
      congr 1
      omega
  · intro halike j _ hj
    unfold movedUp
    by_cases hin : i + 1 < j ∧ j ≤ n
    · rw [if_pos hin, halike j hin.1 hj]
      by_cases hfirst : j - 1 = i + 1
      · rw [hfirst]
      · exact halike (j - 1) (by omega) (by omega)
    · rw [if_neg hin]

/-- The second of two moves does not undo the first. -/
theorem movedUp_movedUp_eq_iff {f : Int → α} {i k n : Int} (hi : -1 ≤ i) (hk : -1 ≤ k) :
    (∀ j, 0 ≤ j → j < n → movedUp (movedUp f i n) k n j = f j) ↔
      (∀ j, 0 ≤ j → j < n → movedUp f i n j = f j) ∧
        ∀ j, 0 ≤ j → j < n → movedUp (movedUp f i n) k n j = movedUp f i n j := by
  constructor
  · intro hsame
    have halike : ∀ m : Nat, ∀ j, j = min i k + 1 + m → j < n → f j = f (min i k + 1) := by
      intro m
      induction m using Nat.strongRecOn with
      | ind m ih =>
        intro j hj hn
        by_cases hm : m = 0
        · rw [hj, hm]
          congr 1
          omega
        · have := hsame j (by omega) hn
          unfold movedUp at this
          split at this
          · split at this
            · exact this.symm.trans (ih (m - 2) (by omega) (j - 1 - 1) (by omega) (by omega))
            · exact this.symm.trans (ih (m - 1) (by omega) (j - 1) (by omega) (by omega))
          · split at this
            · exact this.symm.trans (ih (m - 1) (by omega) (j - 1) (by omega) (by omega))
            · omega
    have hfirst : ∀ j, 0 ≤ j → j < n → movedUp f i n j = f j := by
      rw [movedUp_eq_iff hi]
      intro j hij hn
      rw [halike (j - (min i k + 1)).toNat j (by omega) hn,
        halike (i + 1 - (min i k + 1)).toNat (i + 1) (by omega) (by omega)]
    exact ⟨hfirst, fun j h0 hj => (hsame j h0 hj).trans (hfirst j h0 hj).symm⟩
  · rintro ⟨hfirst, hsecond⟩ j h0 hj
    rw [hsecond j h0 hj, hfirst j h0 hj]

/-- Copies the slots above `i` down by one, from the front, while the next one is in use, at
most `n` of them. -/
def shiftDown (copy : α → α → α) (used : α → Bool) (f : Int → α) : Nat → Int → Int → α
  | 0, _ => f
  | n + 1, i =>
    if used (f (i + 1)) then
      shiftDown copy used (Function.update f i (copy (f i) (f (i + 1)))) n (i + 1)
    else f

/-- The slots from `i` up to the one before the first unused slot `m + 1` are filled from the
next one. -/
theorem shiftDown_spec (copy : α → α → α) (used : α → Bool) (f : Int → α) (n : Nat) (i : Int) :
    ∃ m, i ≤ m ∧ m ≤ i + n ∧ (∀ j, i < j → j ≤ m → used (f j) = true) ∧
      (m < i + n → used (f (m + 1)) = false) ∧
      ∀ j, shiftDown copy used f n i j =
        if i ≤ j ∧ j < m then copy (f j) (f (j + 1)) else f j := by
  induction n generalizing f i with
  | zero =>
    refine ⟨i, Int.le_refl i, by omega, fun j h1 h2 => by omega, fun h => by omega, ?_⟩
    intro j
    rw [if_neg (by omega)]
    rfl
  | succ n ih =>
    by_cases hused : used (f (i + 1)) = true
    · obtain ⟨m, hle, hmax, hin, hstop, hf⟩ :=
        ih (Function.update f i (copy (f i) (f (i + 1)))) (i + 1)
      refine ⟨m, by omega, by omega, ?_, ?_, ?_⟩
      · intro j h1 h2
        by_cases hj : j = i + 1
        · rw [hj]
          exact hused
        · have := hin j (by omega) h2
          rwa [Function.update_of_ne (by omega)] at this
      · intro hlt
        have := hstop (by omega)
        rwa [Function.update_of_ne (by omega)] at this
      · intro j
        rw [shiftDown, if_pos hused, hf]
        by_cases hj : j = i
        · subst hj
          rw [if_neg (by omega), Function.update_self, if_pos (by omega)]
        · rw [Function.update_of_ne hj]
          by_cases hjm : i + 1 ≤ j ∧ j < m
          · rw [if_pos hjm, if_pos (by omega), Function.update_of_ne (by omega)]
          · rw [if_neg hjm, if_neg (by omega)]
    · refine ⟨i, Int.le_refl i, by omega, fun j h1 h2 => by omega, ?_, ?_⟩
      · intro _
        simpa using hused
      · intro j
        rw [shiftDown, if_neg hused, if_neg (by omega)]

/-- Moving slots down keeps a relation between two arrays, except for the last slot, which may
take what lies behind. -/
theorem shiftDown_rel {copy : α → α → α} {used : α → Bool} {R : α → α → Prop}
    (hcopy : ∀ a a' b b', R b b' → R (copy a b) (copy a' b'))
    (hused : ∀ a a', R a a' → used a = used a') {f g : Int → α} {k n i : Int} (hi : k ≤ i)
    (h : ∀ j, k ≤ j → j < n → R (f j) (g j)) (count : Nat) {j : Int} (hk : k ≤ j)
    (hj : j < n - 1) : R (shiftDown copy used f count i j) (shiftDown copy used g count i j) := by
  obtain ⟨m, hle, hmax, hin, hstop, hf⟩ := shiftDown_spec copy used f count i
  obtain ⟨m', hle', hmax', hin', hstop', hg⟩ := shiftDown_spec copy used g count i
  -- both stop at the same slot, unless it is one of the last
  have hsame : i ≤ j ∧ j < m ↔ i ≤ j ∧ j < m' := by
    rcases Int.lt_trichotomy m m' with hlt | heq | hgt
    · by_cases hend : m + 1 < n
      · have hunused := hstop (by omega)
        rw [hused _ _ (h (m + 1) (by omega) hend), hin' (m + 1) (by omega) (by omega)] at hunused
        cases hunused
      · omega
    · omega
    · by_cases hend : m' + 1 < n
      · have hunused := hstop' (by omega)
        rw [← hused _ _ (h (m' + 1) (by omega) hend), hin (m' + 1) (by omega) (by omega)] at hunused
        cases hunused
      · omega
  rw [hf, hg]
  by_cases hmoved : i ≤ j ∧ j < m
  · rw [if_pos hmoved, if_pos (hsame.mp hmoved)]
    exact hcopy _ _ _ _ (h (j + 1) (by omega) (by omega))
  · rw [if_neg hmoved, if_neg (fun hm => hmoved (hsame.mpr hm))]
    exact h j hk (by omega)

/-! ## Searching -/

/-- The first index from `i` on that has a property, `n` of them tried. -/
def findFrom (p : Int → Bool) : Nat → Int → Option Int
  | 0, _ => none
  | n + 1, i => if p i then some i else findFrom p n (i + 1)

theorem findFrom_eq_some {p : Int → Bool} {n : Nat} {i j : Int} (h : findFrom p n i = some j) :
    i ≤ j ∧ j < i + n ∧ p j = true ∧ ∀ l, i ≤ l → l < j → p l = false := by
  induction n generalizing i with
  | zero => cases h
  | succ n ih =>
    rw [findFrom] at h
    by_cases hp : p i = true
    · rw [if_pos hp, Option.some.injEq] at h
      subst h
      exact ⟨Int.le_refl i, by omega, hp, fun l h1 h2 => by omega⟩
    · rw [if_neg hp] at h
      obtain ⟨h1, h2, h3, h4⟩ := ih h
      refine ⟨by omega, by omega, h3, ?_⟩
      intro l hl1 hl2
      by_cases hl : l = i
      · rw [hl]
        simpa using hp
      · exact h4 l (by omega) hl2

theorem findFrom_eq_none {p : Int → Bool} {n : Nat} {i : Int} (h : findFrom p n i = none) :
    ∀ l, i ≤ l → l < i + n → p l = false := by
  induction n generalizing i with
  | zero =>
    intro l h1 h2
    omega
  | succ n ih =>
    rw [findFrom] at h
    by_cases hp : p i = true
    · rw [if_pos hp] at h
      cases h
    · rw [if_neg hp] at h
      intro l hl1 hl2
      by_cases hl : l = i
      · rw [hl]
        simpa using hp
      · exact ih h l (by omega) (by omega)

/-- The search looks at the indices in its range only. -/
theorem findFrom_congr_range {p q : Int → Bool} {n : Nat} {i : Int}
    (hpq : ∀ l, i ≤ l → l < i + n → q l = p l) : findFrom q n i = findFrom p n i := by
  induction n generalizing i with
  | zero => rfl
  | succ n ih =>
    rw [findFrom, findFrom, hpq i (Int.le_refl i) (by omega),
      ih fun l h1 h2 => hpq l (by omega) (by omega)]

/-- The search looks at no index behind the one it finds. -/
theorem findFrom_congr {p q : Int → Bool} {n : Nat} {i j : Int} (h : findFrom p n i = some j)
    (hpq : ∀ l, i ≤ l → l ≤ j → q l = p l) : findFrom q n i = some j := by
  induction n generalizing i with
  | zero => cases h
  | succ n ih =>
    obtain ⟨hle, -⟩ := findFrom_eq_some h
    rw [findFrom] at h ⊢
    rw [hpq i (Int.le_refl i) hle]
    by_cases hp : p i = true
    · rw [if_pos hp] at h ⊢
      exact h
    · rw [if_neg hp] at h ⊢
      exact ih h fun l h1 h2 => hpq l (by omega) h2

/-! ## Intervals one after the other -/

section Separated

variable [Preorder β] {lo hi : α → β} {f g : Int → α} {n k : Int} {x : α}

/-- The intervals in the slots from 0 up to `n` do not overlap and are in order. -/
def Separated (lo hi : α → β) (f : Int → α) (n : Int) : Prop :=
  ∀ i j, 0 ≤ i → i < j → j < n → hi (f i) ≤ lo (f j)

/-- The array with `x` inserted at index `k`. -/
def insertAt (f : Int → α) (k : Int) (x : α) : Int → α := fun j =>
  if j < k then f j else if j = k then x else f (j - 1)

/-- The array with index `k` taken out. -/
def removeAt (f : Int → α) (k : Int) : Int → α := fun j => if j < k then f j else f (j + 1)

theorem Separated.congr (h : Separated lo hi f n) (hfg : ∀ i, 0 ≤ i → i < n → g i = f i) :
    Separated lo hi g n := by
  intro i j h0 hij hjn
  rw [hfg i h0 (by omega), hfg j (by omega) hjn]
  exact h i j h0 hij hjn

/-- An interval may be inserted between its neighbours. -/
theorem Separated.insertAt (h : Separated lo hi f n) (hproper : ∀ i, 0 ≤ i → i < n →
    lo (f i) ≤ hi (f i)) (hbelow : 0 < k → hi (f (k - 1)) ≤ lo x)
    (habove : k < n → hi x ≤ lo (f k)) (h0k : 0 ≤ k) (hk : k ≤ n) :
    Separated lo hi (insertAt f k x) (n + 1) := by
  have hbelow' : ∀ i, 0 ≤ i → i < k → hi (f i) ≤ lo x := by
    intro i h0 hik
    by_cases hi' : i = k - 1
    · rw [hi']
      exact hbelow (by omega)
    · exact ((h i (k - 1) h0 (by omega) (by omega)).trans
        (hproper (k - 1) (by omega) (by omega))).trans (hbelow (by omega))
  have habove' : ∀ j, k ≤ j → j < n → hi x ≤ lo (f j) := by
    intro j hkj hjn
    by_cases hj : j = k
    · rw [hj]
      exact habove (by omega)
    · exact ((habove (by omega)).trans (hproper k h0k (by omega))).trans
        (h k j h0k (by omega) hjn)
  intro i j h0 hij hjn
  unfold Lib.insertAt
  by_cases hik : i < k
  · rw [if_pos hik]
    by_cases hjk : j < k
    · rw [if_pos hjk]
      exact h i j h0 hij (by omega)
    · rw [if_neg hjk]
      by_cases hjk' : j = k
      · rw [if_pos hjk']
        exact hbelow' i h0 hik
      · rw [if_neg hjk']
        exact h i (j - 1) h0 (by omega) (by omega)
  · rw [if_neg hik, if_neg (by omega : ¬ j < k), if_neg (by omega : ¬ j = k)]
    by_cases hik' : i = k
    · rw [if_pos hik']
      exact habove' (j - 1) (by omega) (by omega)
    · rw [if_neg hik']
      exact h (i - 1) (j - 1) (by omega) (by omega) (by omega)

theorem Separated.removeAt (h : Separated lo hi f n) : Separated lo hi (removeAt f k) (n - 1) := by
  intro i j h0 hij hjn
  unfold Lib.removeAt
  by_cases hik : i < k
  · rw [if_pos hik]
    by_cases hjk : j < k
    · rw [if_pos hjk]
      exact h i j h0 hij (by omega)
    · rw [if_neg hjk]
      exact h i (j + 1) h0 (by omega) (by omega)
  · rw [if_neg hik, if_neg (by omega)]
    exact h (i + 1) (j + 1) (by omega) (by omega) (by omega)

/-- One interval may be replaced by another between its neighbours. -/
theorem Separated.update (h : Separated lo hi f n)
    (hbelow : ∀ i, 0 ≤ i → i < k → k < n → hi (f i) ≤ lo x)
    (habove : ∀ j, 0 ≤ k → k < j → j < n → hi x ≤ lo (f j)) :
    Separated lo hi (Function.update f k x) n := by
  intro i j h0 hij hjn
  by_cases hik : i = k
  · subst hik
    rw [Function.update_self, Function.update_of_ne (by omega)]
    exact habove j h0 hij hjn
  · rw [Function.update_of_ne hik]
    by_cases hjk : j = k
    · subst hjk
      rw [Function.update_self]
      exact hbelow i h0 hij hjn
    · rw [Function.update_of_ne hjk]
      exact h i j h0 hij hjn

end Separated

/-! ## The entries as a list -/

section Entries

variable {f g : Int → α} {n k : Int}

/-- The slots from 0 up to `n`, in order. -/
def entries (f : Int → α) (n : Int) : List α := (List.range n.toNat).map fun (i : Nat) => f i

theorem entries_congr (h : ∀ i, 0 ≤ i → i < n → f i = g i) : entries f n = entries g n := by
  refine List.map_congr_left ?_
  intro i hi
  have := List.mem_range.mp hi
  exact h i (by omega) (by omega)

@[simp] theorem length_entries : (entries f n).length = n.toNat := by
  simp only [entries, List.length_map, List.length_range]

theorem getElem_entries {i : Nat} (hi : i < (entries f n).length) : (entries f n)[i] = f i := by
  simp only [entries, List.getElem_map, List.getElem_range]

/-- Writing one slot. -/
theorem entries_update (x : α) (h0 : 0 ≤ k) :
    entries (Function.update f k x) n = (entries f n).set k.toNat x := by
  refine List.ext_getElem ?_ ?_
  · rw [List.length_set, length_entries, length_entries]
  · intro i _ _
    rw [getElem_entries, List.getElem_set, getElem_entries]
    by_cases hik : k.toNat = i
    · rw [if_pos hik, show (i : Int) = k by omega, Function.update_self]
    · rw [if_neg hik, Function.update_of_ne (by omega)]

/-- Leaving out the last entry. -/
theorem entries_eraseIdx_last (hn : 0 < n) :
    (entries f n).eraseIdx (n - 1).toNat = entries f (n - 1) := by
  refine List.ext_getElem ?_ ?_
  · rw [List.length_eraseIdx, length_entries, length_entries, if_pos (by omega)]
    omega
  · intro i hi hi'
    rw [length_entries] at hi'
    rw [List.getElem_eraseIdx_of_lt hi hi', getElem_entries, getElem_entries]

/-- Inserting a slot adds an entry. -/
theorem entries_insertAt_perm (x : α) (h0 : 0 ≤ k) (hk : k ≤ n) :
    (entries (insertAt f k x) (n + 1)).Perm (x :: entries f n) := by
  obtain ⟨k, rfl⟩ := Int.eq_ofNat_of_zero_le h0
  have hlength : k ≤ (entries f n).length := by
    simp only [entries, List.length_map, List.length_range]
    omega
  have heq : entries (insertAt f k x) (n + 1) = (entries f n).insertIdx k x := by
    refine List.ext_getElem ?_ ?_
    · rw [List.length_insertIdx_of_le_length hlength]
      simp only [entries, List.length_map, List.length_range]
      omega
    · intro i hi hi'
      rw [List.getElem_insertIdx]
      simp only [entries, insertAt, List.getElem_map, List.getElem_range]
      rcases Nat.lt_trichotomy i k with hlt | rfl | hgt
      · rw [if_pos (by omega), dif_pos hlt]
      · rw [if_neg (by omega), if_pos rfl, dif_neg (by omega), dif_pos rfl]
      · rw [if_neg (by omega), if_neg (by omega), dif_neg (by omega), dif_neg (by omega)]
        congr 1
        omega
  rw [heq]
  exact List.perm_insertIdx x _ hlength

/-- Taking a slot out removes its entry. -/
theorem entries_removeAt_perm (h0 : 0 ≤ k) (hk : k < n) :
    (entries f n).Perm (f k :: entries (removeAt f k) (n - 1)) := by
  have hinsert : entries f n = entries (insertAt (removeAt f k) k (f k)) (n - 1 + 1) := by
    rw [show n - 1 + 1 = n by omega]
    refine entries_congr ?_
    intro i _ _
    unfold insertAt removeAt
    rcases Int.lt_trichotomy i k with hlt | rfl | hgt
    · rw [if_pos hlt, if_pos hlt]
    · rw [if_neg (by omega), if_pos rfl]
    · rw [if_neg (by omega), if_neg (by omega), if_neg (by omega)]
      congr 1
      omega
  rw [hinsert]
  exact entries_insertAt_perm (f k) h0 (by omega)

end Entries

/-! ## Slots that may be empty -/

/-- Filling an empty slot adds its content. -/
theorem filterMap_update_perm {ι β : Type*} [DecidableEq ι] {g : ι → Option β} {l : List ι} {a : ι}
    (x : β) (hnodup : l.Nodup) (ha : a ∈ l) (hempty : g a = none) :
    (l.filterMap (Function.update g a (some x))).Perm (x :: l.filterMap g) := by
  induction l with
  | nil => cases ha
  | cons b l ih =>
    rw [List.nodup_cons] at hnodup
    by_cases hb : b = a
    · have hrest : l.filterMap (Function.update g a (some x)) = l.filterMap g := by
        refine List.filterMap_congr ?_
        intro c hc
        refine Function.update_of_ne ?_ _ _
        rintro rfl
        exact hnodup.1 (hb ▸ hc)
      rw [hb, List.filterMap_cons_some (Function.update_self _ _ _), hrest,
        List.filterMap_cons_none hempty]
    · have hin : a ∈ l := (List.mem_cons.mp ha).resolve_left fun h => hb h.symm
      have hsame : Function.update g a (some x) b = g b := Function.update_of_ne hb _ _
      cases hg : g b with
      | none =>
        rw [List.filterMap_cons_none (hsame.trans hg), List.filterMap_cons_none hg]
        exact ih hnodup.2 hin
      | some y =>
        rw [List.filterMap_cons_some (hsame.trans hg), List.filterMap_cons_some hg]
        exact ((ih hnodup.2 hin).cons y).trans (.swap x y _)

/-- Two arrays that differ in a slot which is empty in one of them. -/
theorem filterMap_perm_cons {ι β : Type*} [DecidableEq ι] {g g' : ι → Option β} {l : List ι} {a : ι}
    {x : β} (hnodup : l.Nodup) (ha : a ∈ l) (hx : g a = some x) (hempty : g' a = none)
    (hothers : ∀ b, b ≠ a → g b = g' b) : (l.filterMap g).Perm (x :: l.filterMap g') := by
  have hupdate : g = Function.update g' a (some x) := by
    funext b
    rw [Function.update_apply]
    by_cases hb : b = a
    · rw [if_pos hb, hb, hx]
    · rw [if_neg hb, hothers b hb]
  rw [hupdate]
  exact filterMap_update_perm x hnodup ha hempty

end Cs537.Lib
