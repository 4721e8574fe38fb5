import Mathlib.Algebra.GroupWithZero.Nat
import Mathlib.Algebra.Order.BigOperators.Group.List
import Mathlib.Algebra.Order.Group.Nat

/-!
# Caches with reference counts

A cache has a fixed number of places, each with the key of what it holds and a count of the
references to it; a place whose count is zero is free. Looking a key up takes a reference, in a free
place if the key has none. Taking and dropping references is tracked by what the references to each
key add up to (`Gains`), and a walk that takes the next reference before it drops the last one by
`OneMore`.
-/

namespace Cs537.Lib

/-- A place of a cache. -/
structure Slot (κ : Type*) where
  key : κ
  ref : Nat
  deriving DecidableEq

/-- The places in their order. -/
abbrev RefCache (κ : Type*) := List (Slot κ)

namespace RefCache

variable {κ : Type*} [DecidableEq κ] {t t' t'' : RefCache κ} {a b : κ} {k : Nat}

/-! ## Operations -/

/-- One more reference to what is in a place. -/
def dup (t : RefCache κ) (k : Nat) : Option (RefCache κ) :=
  t[k]?.map fun s => t.set k { s with ref := s.ref + 1 }

/-- A reference is dropped. -/
def put (t : RefCache κ) (k : Nat) : Option (RefCache κ) :=
  t[k]?.map fun s => t.set k { s with ref := s.ref - 1 }

/-- The place of a key with one more reference to it; undefined if there is no free place. -/
def get (t : RefCache κ) (a : κ) : Option (Nat × RefCache κ) :=
  match t.findIdx? fun s => 0 < s.ref && s.key = a with
  | some k => (t.dup k).map fun t => (k, t)
  | none => (t.findIdx? fun s => s.ref = 0).map fun k => (k, t.set k ⟨a, 1⟩)

/-- The references to a key, over all places. -/
def refOf (t : RefCache κ) (a : κ) : Nat := (t.map fun s => if s.key = a then s.ref else 0).sum

/-- The number of free places. -/
def free (t : RefCache κ) : Nat := t.countP fun s => s.ref = 0

/-- The references to a key after a place was overwritten. -/
theorem refOf_set {s : Slot κ} (h : t[k]? = some s) (s' : Slot κ) (a : κ) :
    refOf (t.set k s') a + (if s.key = a then s.ref else 0) =
      refOf t a + if s'.key = a then s'.ref else 0 := by
  induction t generalizing k with
  | nil => simp at h
  | cons x t ih =>
    cases k with
    | zero =>
      obtain rfl : x = s := by simpa using h
      simp only [refOf, List.set_cons_zero, List.map_cons, List.sum_cons]
      omega
    | succ k =>
      have := ih (by simpa using h)
      simp only [refOf, List.set_cons_succ, List.map_cons, List.sum_cons] at this ⊢
      omega

/-! ## What stays -/

/-- A place holds a key, and there is a reference to it. -/
def Held (t : RefCache κ) (k : Nat) (a : κ) : Prop := ∃ n, t[k]? = some ⟨a, n + 1⟩

/-- Every place in use still holds what it held, and place `k` has one more reference. -/
structure OneMore (t t' : RefCache κ) (k : Nat) (a : κ) : Prop where
  length : t'.length = t.length
  count : ∀ b, refOf t' b = refOf t b + if a = b then 1 else 0
  held : Held t' k a
  stays : ∀ (j : Nat) (b : κ) (n : Nat), t[j]? = some ⟨b, n + 1⟩ →
    ∃ m, t'[j]? = some ⟨b, m + 1⟩ ∧ n + (if j = k then 1 else 0) ≤ m

/-- References to these keys have been taken, and no place in use has been given up. -/
structure Gains (t t' : RefCache κ) (keys : List κ) : Prop where
  length : t'.length = t.length
  count : ∀ b, refOf t' b = refOf t b + keys.count b
  stays : ∀ (j : Nat) (b : κ) (n : Nat), t[j]? = some ⟨b, n + 1⟩ →
    ∃ m, t'[j]? = some ⟨b, m + 1⟩ ∧ n ≤ m

theorem gains_refl (t : RefCache κ) : Gains t t [] :=
  ⟨rfl, fun _ => rfl, fun _ _ n h => ⟨n, h, Nat.le_refl n⟩⟩

theorem Gains.trans {keys keys' : List κ} (h : Gains t t' keys) (h' : Gains t' t'' keys') :
    Gains t t'' (keys ++ keys') := by
  refine ⟨h'.length.trans h.length, ?_, ?_⟩
  · intro b
    rw [h'.count, h.count, List.count_append, Nat.add_assoc]
  · intro j b n hj
    obtain ⟨m, hm, hle⟩ := h.stays j b n hj
    obtain ⟨m', hm', hle'⟩ := h'.stays j b m hm
    exact ⟨m', hm', Nat.le_trans hle hle'⟩

theorem Gains.held {keys : List κ} (h : Gains t t' keys) (hheld : Held t k a) : Held t' k a := by
  obtain ⟨n, hn⟩ := hheld
  obtain ⟨m, hm, -⟩ := h.stays k a n hn
  exact ⟨m, hm⟩

theorem OneMore.gains (h : OneMore t t' k a) : Gains t t' [a] := by
  refine ⟨h.length, ?_, ?_⟩
  · intro b
    rw [h.count, List.count_singleton]
    simp only [beq_iff_eq]
  · intro j b n hj
    obtain ⟨m, hm, hle⟩ := h.stays j b n hj
    exact ⟨m, hm, by omega⟩

/-! ## What the operations do -/

/-- A place that held the key, or was free, holds it with a count that is one higher. -/
theorem oneMore_of_set {s : Slot κ} (h : t[k]? = some s) (hkey : s.ref = 0 ∨ s.key = a) :
    OneMore t (t.set k ⟨a, s.ref + 1⟩) k a := by
  obtain ⟨hlt, -⟩ := List.getElem?_eq_some_iff.mp h
  refine ⟨List.length_set, ?_, ⟨s.ref, List.getElem?_set_self hlt⟩, ?_⟩
  · intro b
    have hset := refOf_set h ⟨a, s.ref + 1⟩ b
    simp only at hset
    rcases hkey with hzero | rfl
    · simp only [hzero, ite_self, Nat.zero_add, Nat.add_zero] at hset ⊢
      exact hset
    · by_cases hb : s.key = b
      · simp only [hb, if_true] at hset ⊢
        omega
      · simpa only [hb, if_false, Nat.add_zero] using hset
  · intro j b n hj
    by_cases hjk : j = k
    · subst hjk
      obtain rfl : s = ⟨b, n + 1⟩ := Option.some.inj (h.symm.trans hj)
      obtain rfl : b = a := hkey.resolve_left (Nat.succ_ne_zero n)
      exact ⟨n + 1, List.getElem?_set_self hlt, by simp⟩
    · exact ⟨n, by rw [List.getElem?_set_ne (Ne.symm hjk), hj], by simp [hjk]⟩

theorem oneMore_of_dup (hheld : Held t k a) (h : t.dup k = some t') : OneMore t t' k a := by
  obtain ⟨n, hn⟩ := hheld
  rw [dup, hn, Option.map_some, Option.some.injEq] at h
  rw [← h]
  exact oneMore_of_set hn (.inr rfl)

theorem oneMore_of_get (h : t.get a = some (k, t')) : OneMore t t' k a := by
  unfold get at h
  cases hfind : t.findIdx? fun s => 0 < s.ref && s.key = a with
  | some i =>
    rw [hfind] at h
    obtain ⟨hlt, hfound, -⟩ := List.findIdx?_eq_some_iff_getElem.mp hfind
    simp only [Bool.and_eq_true, decide_eq_true_eq] at hfound
    obtain ⟨d, hdup, heq⟩ := Option.map_eq_some_iff.mp h
    obtain ⟨rfl, rfl⟩ := Prod.mk.inj heq
    refine oneMore_of_dup ⟨t[i].ref - 1, ?_⟩ hdup
    rw [List.getElem?_eq_getElem hlt, Nat.sub_add_cancel hfound.1, ← hfound.2]
  | none =>
    rw [hfind] at h
    obtain ⟨i, hfree, heq⟩ := Option.map_eq_some_iff.mp h
    obtain ⟨rfl, rfl⟩ := Prod.mk.inj heq
    obtain ⟨hlt, hzero, -⟩ := List.findIdx?_eq_some_iff_getElem.mp hfree
    rw [decide_eq_true_eq] at hzero
    have hset := oneMore_of_set (a := a) (List.getElem?_eq_getElem hlt) (.inl hzero)
    rwa [hzero] at hset

/-- What `put` does to the place and to the counts. -/
theorem put_of_held (hheld : Held t k a) : ∃ n t', t[k]? = some ⟨a, n + 1⟩ ∧ t.put k = some t' ∧
    t'.length = t.length ∧ t'[k]? = some ⟨a, n⟩ ∧ (∀ j, j ≠ k → t'[j]? = t[j]?) ∧
    ∀ b, refOf t' b + (if a = b then 1 else 0) = refOf t b := by
  obtain ⟨n, hn⟩ := hheld
  obtain ⟨hlt, -⟩ := List.getElem?_eq_some_iff.mp hn
  refine ⟨n, t.set k ⟨a, n⟩, hn, by simp [put, hn], List.length_set,
    List.getElem?_set_self hlt, ?_, ?_⟩
  · intro j hj
    exact List.getElem?_set_ne (Ne.symm hj)
  · intro b
    have hset := refOf_set hn ⟨a, n⟩ b
    simp only at hset
    by_cases hb : a = b
    · simp only [hb, if_true] at hset ⊢
      omega
    · simp only [hb, if_false, Nat.add_zero] at hset ⊢
      exact hset

/-- The reference that was taken is dropped again. -/
theorem OneMore.put (h : OneMore t t' k a) (hput : t'.put k = some t'') : Gains t t'' [] := by
  obtain ⟨n, d, hk, hd, hlen, hdk, hother, hcount⟩ := put_of_held h.held
  obtain rfl := Option.some.inj (hd.symm.trans hput)
  refine ⟨hlen.trans h.length, ?_, ?_⟩
  · intro b
    have hc := h.count b
    have hp := hcount b
    rw [List.count_nil]
    omega
  · intro j b m hj
    obtain ⟨m', hm', hle⟩ := h.stays j b m hj
    by_cases hjk : j = k
    · subst hjk
      rw [if_pos rfl] at hle
      obtain ⟨rfl, rfl⟩ : a = b ∧ n = m' := by simpa using hk.symm.trans hm'
      exact ⟨n - 1, by rw [hdk, Nat.sub_add_cancel (by omega)], by omega⟩
    · exact ⟨m', (hother j hjk).trans hm', by omega⟩

/-- The next reference is taken, and the last one is dropped. -/
theorem OneMore.next {t₁ t₂ : RefCache κ} {k' : Nat} (h : OneMore t t₁ k a)
    (h' : OneMore t₁ t₂ k' b) (hput : t₂.put k = some t'') : OneMore t t'' k' b := by
  obtain ⟨n, hn⟩ := h.held
  obtain ⟨m, hm, hnm⟩ := h'.stays k a n hn
  obtain ⟨m', d, hk, hd, hlen, hdk, hother, hcount⟩ := put_of_held ⟨m, hm⟩
  obtain rfl := Option.some.inj (hd.symm.trans hput)
  obtain rfl : m = m' := by simpa using hm.symm.trans hk
  refine ⟨hlen.trans (h'.length.trans h.length), ?_, ?_, ?_⟩
  · intro x
    have h₁ := h.count x
    have h₂ := h'.count x
    have h₃ := hcount x
    omega
  · obtain ⟨p, hp⟩ := h'.held
    by_cases hkk : k' = k
    · subst hkk
      rw [if_pos rfl] at hnm
      obtain ⟨rfl, rfl⟩ : a = b ∧ m = p := by simpa using hm.symm.trans hp
      exact ⟨m - 1, by rw [hdk, Nat.sub_add_cancel (by omega)]⟩
    · exact ⟨p, (hother k' hkk).trans hp⟩
  · intro j x q hj
    obtain ⟨q₁, hq₁, hle₁⟩ := h.stays j x q hj
    obtain ⟨q₂, hq₂, hle₂⟩ := h'.stays j x q₁ hq₁
    by_cases hjk : j = k
    · subst hjk
      rw [if_pos rfl] at hle₁
      obtain ⟨rfl, rfl⟩ : a = x ∧ m = q₂ := by simpa using hm.symm.trans hq₂
      exact ⟨m - 1, by rw [hdk, Nat.sub_add_cancel (by omega)], by omega⟩
    · rw [if_neg hjk] at hle₁
      exact ⟨q₂, (hother j hjk).trans hq₂, by omega⟩

/-! ## Balance -/

/-- The references to every key are what they were only if none has been taken. -/
theorem Gains.refOf_eq_iff {keys : List κ} (h : Gains t t' keys) :
    (∀ b, refOf t' b = refOf t b) ↔ keys = [] := by
  constructor
  · intro hsame
    apply List.eq_nil_iff_forall_not_mem.mpr
    intro b hb
    have hpos := List.count_pos_iff.mpr hb
    have hcount := h.count b
    rw [hsame b] at hcount
    omega
  · rintro rfl b
    exact h.count b

/-- Each place counts at least as much as before for a key. -/
theorem Gains.weight_le {keys : List κ} (h : Gains t t' keys) (b : κ) :
    List.Forall₂ (· ≤ ·) (t.map fun s => if s.key = b then s.ref else 0)
      (t'.map fun s => if s.key = b then s.ref else 0) := by
  rw [List.forall₂_map_left_iff, List.forall₂_map_right_iff, List.forall₂_iff_get]
  refine ⟨h.length.symm, ?_⟩
  intro j hj hj'
  simp only [List.get_eq_getElem]
  by_cases hkey : t[j].key = b ∧ 0 < t[j].ref
  · obtain ⟨m, hm, hle⟩ := h.stays j b (t[j].ref - 1) (by
      rw [List.getElem?_eq_getElem hj, Nat.sub_add_cancel hkey.2, ← hkey.1])
    rw [List.getElem?_eq_getElem hj', Option.some.injEq] at hm
    rw [hm, if_pos hkey.1, if_pos rfl]
    exact Nat.le_add_of_sub_le hle
  · have hzero : (if t[j].key = b then t[j].ref else 0) = 0 := by
      by_cases hb : t[j].key = b
      · rw [if_pos hb]
        exact Nat.eq_zero_of_not_pos fun hpos => hkey ⟨hb, hpos⟩
      · exact if_neg hb
    rw [hzero]
    exact Nat.zero_le _

/-- Equal sums of summands that have only grown: they are the same. -/
theorem eq_of_forall₂_le {xs ys : List Nat} (h : List.Forall₂ (· ≤ ·) xs ys)
    (hsum : xs.sum = ys.sum) : xs = ys := by
  induction h with
  | nil => rfl
  | @cons x y xs ys hxy htail ih =>
    have hle : xs.sum ≤ ys.sum := List.Forall₂.sum_le_sum htail
    rw [List.sum_cons, List.sum_cons] at hsum
    obtain rfl : x = y := by omega
    rw [ih (by omega)]

/-- Without a reference taken, as many places are free as before. -/
theorem Gains.free_eq (h : Gains t t' []) : t'.free = t.free := by
  have hzero : t.map (fun s => decide (s.ref = 0)) = t'.map fun s => decide (s.ref = 0) := by
    apply List.ext_getElem (by simp [h.length])
    intro j hj hj'
    rw [List.length_map] at hj hj'
    rw [List.getElem_map, List.getElem_map, decide_eq_decide]
    constructor
    · intro hfree
      by_contra hused
      -- what is in the place now was there before, by the weights of its key
      have hweights := eq_of_forall₂_le (h.weight_le t'[j].key) (by
        have := h.count t'[j].key
        simpa [refOf] using this.symm)
      have hat := congrArg (·[j]?) hweights
      simp only [List.getElem?_map, List.getElem?_eq_getElem hj, List.getElem?_eq_getElem hj',
        Option.map_some, if_true, hfree, ite_self, Option.some.injEq] at hat
      exact hused hat.symm
    · intro hfree
      by_contra hused
      obtain ⟨m, hm, -⟩ := h.stays j t[j].key (t[j].ref - 1) (by
        rw [List.getElem?_eq_getElem hj, Nat.sub_add_cancel (Nat.pos_of_ne_zero hused)])
      rw [List.getElem?_eq_getElem hj', Option.some.injEq] at hm
      rw [hm] at hfree
      exact absurd hfree (Nat.succ_ne_zero m)
  have hcount := congrArg (List.count true) hzero
  rw [List.count_eq_countP, List.count_eq_countP, List.countP_map, List.countP_map] at hcount
  simpa [free, Function.comp_def] using hcount.symm

end RefCache

end Cs537.Lib
