import Mathlib.Data.List.Basic
import Mathlib.Data.List.Forall2

/-!
# Logs of versions

A log holds versions of records, each with a key. The last version of a key is the one that
counts; the earlier ones are kept but marked as dead. `LiveIffLast` says that the marks agree
with the positions. It is kept when a version is superseded, that is marked as dead with a
new version of the same key put at the end, and when a version of a new key is appended.
-/

namespace Cs537.Lib

variable {α κ : Type*} {key : α → κ} {Live : α → Prop} {l pre post : List α} {a b c : α} {k : κ}

/-- `a` is the last version of key `k`, with `pre` before and `post` behind it. -/
structure IsLast (key : α → κ) (l : List α) (k : κ) (pre : List α) (a : α) (post : List α) :
    Prop where
  split : l = pre ++ a :: post
  key_eq : key a = k
  after : ∀ x ∈ post, key x ≠ k

/-- Either a key does not occur, or it has a last version. -/
theorem isLast_or_notMem (key : α → κ) (l : List α) (k : κ) :
    (∀ x ∈ l, key x ≠ k) ∨ ∃ pre a post, IsLast key l k pre a post := by
  induction l with
  | nil => exact .inl (by simp)
  | cons x l ih =>
    rcases ih with hnone | ⟨pre, a, post, h⟩
    · by_cases hx : key x = k
      · exact .inr ⟨[], x, l, rfl, hx, hnone⟩
      · exact .inl (List.forall_mem_cons.mpr ⟨hx, hnone⟩)
    · exact .inr ⟨x :: pre, a, post, by rw [h.split]; rfl, h.key_eq, h.after⟩

theorem IsLast.mem (h : IsLast key l k pre a post) : a ∈ l := by
  rw [h.split]
  simp

/-- The last version of a key is unique. -/
theorem IsLast.unique {pre' post' : List α} {a' : α} (h : IsLast key l k pre a post)
    (h' : IsLast key l k pre' a' post') : pre = pre' ∧ a = a' ∧ post = post' := by
  have hsplit := h.split.symm.trans h'.split
  rcases List.append_eq_append_iff.mp hsplit with ⟨mid, hpre, htail⟩ | ⟨mid, hpre, htail⟩
  · cases mid with
    | nil =>
      simp only [List.nil_append, List.cons.injEq] at htail
      exact ⟨by simpa using hpre.symm, htail.1, htail.2⟩
    | cons x mid =>
      simp only [List.cons_append, List.cons.injEq] at htail
      have hmem : a' ∈ post := by
        rw [htail.2]
        simp
      exact absurd h'.key_eq (h.after a' hmem)
  · cases mid with
    | nil =>
      simp only [List.nil_append, List.cons.injEq] at htail
      exact ⟨by simpa using hpre, htail.1.symm, htail.2.symm⟩
    | cons x mid =>
      simp only [List.cons_append, List.cons.injEq] at htail
      have hmem : a ∈ post' := by
        rw [htail.2]
        simp
      exact absurd h.key_eq (h'.after a hmem)

section LastOf

variable [DecidableEq κ]

/-- The last version of a key. -/
def lastOf (key : α → κ) (l : List α) (k : κ) : Option α :=
  (l.filter fun x => key x = k).getLast?

theorem IsLast.lastOf_eq (h : IsLast key l k pre a post) : lastOf key l k = some a := by
  have hpost : (post.filter fun x => key x = k) = [] := by
    rw [List.filter_eq_nil_iff]
    intro x hx
    simpa using h.after x hx
  unfold lastOf
  rw [h.split, List.filter_append, List.filter_cons_of_pos (by simpa using h.key_eq), hpost,
    List.getLast?_concat]

theorem lastOf_eq_none (h : ∀ x ∈ l, key x ≠ k) : lastOf key l k = none := by
  have hnil : (l.filter fun x => key x = k) = [] := by
    rw [List.filter_eq_nil_iff]
    intro x hx
    simpa using h x hx
  unfold lastOf
  rw [hnil, List.getLast?_nil]

theorem lastOf_append (key : α → κ) (l l' : List α) (k : κ) :
    lastOf key (l ++ l') k = (lastOf key l' k).or (lastOf key l k) := by
  unfold lastOf
  rw [List.filter_append, List.getLast?_append]

theorem lastOf_singleton (key : α → κ) (a : α) (k : κ) :
    lastOf key [a] k = if key a = k then some a else none := by
  unfold lastOf
  by_cases h : key a = k
  · rw [if_pos h, List.filter_cons_of_pos (by simpa using h)]
    rfl
  · rw [if_neg h, List.filter_cons_of_neg (by simpa using h)]
    rfl

/-- Logs whose versions are related one by one, with the same keys, have related last versions. -/
theorem lastOf_rel {R : α → α → Prop} (hkey : ∀ x y, R x y → key y = key x) {l l' : List α}
    (h : List.Forall₂ R l l') (k : κ) : Option.Rel R (lastOf key l k) (lastOf key l' k) := by
  have hcons (x : α) (l : List α) :
      lastOf key (x :: l) k = (lastOf key l k).or (if key x = k then some x else none) := by
    rw [← lastOf_singleton]
    exact lastOf_append key [x] l k
  induction h with
  | nil => exact .none
  | @cons x y xs ys hxy _ ih =>
    rw [hcons x xs, hcons y ys, hkey x y hxy]
    revert ih
    generalize lastOf key xs k = last, lastOf key ys k = last'
    intro ih
    cases ih with
    | some hrel => exact .some hrel
    | none =>
      rw [Option.none_or, Option.none_or]
      split
      · exact .some hxy
      · exact .none

/-- Superseding a version changes the last version of its key only. -/
theorem lastOf_supersede (hb : key b = key a) (hc : key c = key a) :
    lastOf key (pre ++ b :: post ++ [c]) k =
      if key c = k then some c else lastOf key (pre ++ a :: post) k := by
  rw [lastOf_append, lastOf_singleton]
  by_cases h : key c = k
  · rw [if_pos h, if_pos h, Option.some_or]
  · rw [if_neg h, Option.none_or, if_neg h]
    unfold lastOf
    rw [List.filter_append, List.filter_append,
      List.filter_cons_of_neg (by simpa [hb, ← hc] using h),
      List.filter_cons_of_neg (by simpa [← hc] using h)]

end LastOf

/-- A version is live exactly when no later one has its key. -/
def LiveIffLast (key : α → κ) (Live : α → Prop) : List α → Prop
  | [] => True
  | a :: l => (Live a ↔ ∀ x ∈ l, key x ≠ key a) ∧ LiveIffLast key Live l

namespace LiveIffLast

theorem live_iff (h : LiveIffLast key Live (pre ++ a :: post)) :
    Live a ↔ ∀ x ∈ post, key x ≠ key a := by
  induction pre with
  | nil => exact h.1
  | cons x pre ih => exact ih h.2

theorem live (h : LiveIffLast key Live l) (hlast : IsLast key l k pre a post) : Live a := by
  rw [hlast.split] at h
  apply h.live_iff.mpr
  rw [hlast.key_eq]
  exact hlast.after

/-- Every other version of the key is dead. -/
theorem dead (h : LiveIffLast key Live l) (hlast : IsLast key l k pre a post) {x : α}
    (hx : x ∈ pre ++ post) (hkey : key x = k) : ¬ Live x := by
  intro hlive
  rcases List.mem_append.mp hx with hpre | hpost
  · obtain ⟨s, t, rfl⟩ := List.append_of_mem hpre
    rw [hlast.split, List.append_assoc, List.cons_append] at h
    have hmem : a ∈ t ++ a :: post := by simp
    apply h.live_iff.mp hlive a hmem
    rw [hlast.key_eq, hkey]
  · exact hlast.after x hpost hkey

/-- Appending a version of a new key. -/
theorem snoc (h : LiveIffLast key Live l) (ha : Live a) (hnew : ∀ x ∈ l, key x ≠ key a) :
    LiveIffLast key Live (l ++ [a]) := by
  induction l with
  | nil => exact ⟨by simp [ha], trivial⟩
  | cons x l ih =>
    rw [List.forall_mem_cons] at hnew
    constructor
    · show Live x ↔ ∀ y ∈ l ++ [a], key y ≠ key x
      rw [h.1]
      simp only [List.mem_append, List.mem_singleton]
      constructor
      · rintro hx y (hy | rfl)
        · exact hx y hy
        · exact fun heq => hnew.1 heq.symm
      · exact fun hx y hy => hx y (.inl hy)
    · exact ih h.2 hnew.2

/-- Superseding the live version of a key. -/
theorem supersede (h : LiveIffLast key Live (pre ++ a :: post)) (ha : Live a)
    (hb : key b = key a) (hdead : ¬ Live b) (hc : key c = key a) (hlive : Live c) :
    LiveIffLast key Live (pre ++ b :: post ++ [c]) := by
  induction pre with
  | nil =>
    refine ⟨iff_of_false hdead ?_, ?_⟩
    · intro hall
      exact hall c (by simp) (hc.trans hb.symm)
    · apply h.2.snoc hlive
      rw [hc]
      exact h.1.mp ha
  | cons x pre ih =>
    refine ⟨?_, ih h.2⟩
    show Live x ↔ ∀ y ∈ pre ++ b :: post ++ [c], key y ≠ key x
    have hhead : Live x ↔ ∀ y ∈ pre ++ a :: post, key y ≠ key x := h.1
    rw [hhead]
    simp only [List.mem_append, List.mem_cons, List.not_mem_nil, or_false]
    constructor
    · rintro hx y ((hy | rfl | hy) | rfl)
      · exact hx y (.inl hy)
      · rw [hb]
        exact hx a (.inr (.inl rfl))
      · exact hx y (.inr (.inr hy))
      · rw [hc]
        exact hx a (.inr (.inl rfl))
    · rintro hx y (hy | rfl | hy)
      · exact hx y (.inl (.inl hy))
      · rw [← hc]
        exact hx c (.inr rfl)
      · exact hx y (.inl (.inr (.inr hy)))

end LiveIffLast

end Cs537.Lib
