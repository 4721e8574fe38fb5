import Cs537.Lib.CString

/-!
# Searching and replacing

`firstAt` is the place of the first occurrence of a word, as `strstr` returns it. A loop that
replaces the first occurrence of a word until there is none is described by what no replacement
changes (`Computes`). `onePass` replaces several words in one pass from left to right.
-/

namespace Cs537.Lib

/-! ## The first occurrence -/

/-- A word without `c` begins in front of a `c` only if it ends there too. -/
theorem prefix_append_cons_iff {α : Type*} {w l s : List α} {c : α} (hc : c ∉ w) :
    w <+: l ++ c :: s ↔ w <+: l := by
  induction l generalizing w with
  | nil =>
    cases w with
    | nil => simp
    | cons d w =>
      have hd : d ≠ c := fun h => hc (h ▸ List.mem_cons_self)
      simp [List.cons_prefix_cons, hd]
  | cons x l ih =>
    cases w with
    | nil => simp
    | cons d w =>
      rw [List.cons_append, List.cons_prefix_cons, List.cons_prefix_cons,
        ih fun h => hc (List.mem_cons_of_mem d h)]

variable {α : Type*} [DecidableEq α]

/-- The place of the first occurrence of the word `w`. -/
def firstAt (w : List α) : List α → Option Nat
  | [] => if w = [] then some 0 else none
  | c :: s => if w <+: c :: s then some 0 else (firstAt w s).map (· + 1)

theorem firstAt_eq_none_iff {w s : List α} : firstAt w s = none ↔ ¬ w <:+: s := by
  induction s with
  | nil => by_cases hw : w = [] <;> simp [firstAt, hw]
  | cons c s ih =>
    rw [firstAt, List.infix_cons_iff]
    by_cases hw : w <+: c :: s
    · simp [hw]
    · simp [hw, ih]

/-- The text around the first occurrence; the word does not occur before that place. -/
theorem firstAt_eq_some {w s : List α} {k : Nat} (h : firstAt w s = some k) :
    (∃ a b, s = a ++ (w ++ b) ∧ a.length = k) ∧ ∀ j < k, ¬ w <+: s.drop j := by
  induction s generalizing k with
  | nil =>
    simp only [firstAt, Option.ite_none_right_eq_some, Option.some.injEq] at h
    obtain ⟨rfl, rfl⟩ := h
    exact ⟨⟨[], [], rfl, rfl⟩, fun j hj => absurd hj (Nat.not_lt_zero j)⟩
  | cons c s ih =>
    rw [firstAt] at h
    by_cases hw : w <+: c :: s
    · rw [if_pos hw, Option.some.injEq] at h
      subst h
      obtain ⟨b, hb⟩ := hw
      exact ⟨⟨[], b, hb.symm, rfl⟩, fun j hj => absurd hj (Nat.not_lt_zero j)⟩
    · rw [if_neg hw] at h
      obtain ⟨i, hi, rfl⟩ := Option.map_eq_some_iff.mp h
      obtain ⟨⟨a, b, rfl, rfl⟩, hbefore⟩ := ih hi
      refine ⟨⟨c :: a, b, rfl, rfl⟩, ?_⟩
      intro j hj
      cases j with
      | zero => exact hw
      | succ j => exact hbefore j (Nat.lt_of_succ_lt_succ hj)

/-- The first occurrence of a word without `c` is in front of a `c`, or else behind it. -/
theorem firstAt_append_cons {w l s : List α} {c : α} (hne : w ≠ []) (hc : c ∉ w) :
    firstAt w (l ++ c :: s) = (firstAt w l).or ((firstAt w s).map (· + (l.length + 1))) := by
  induction l with
  | nil =>
    have hfront : ¬ w <+: c :: s := by
      have := prefix_append_cons_iff (l := []) (s := s) hc
      simpa [hne] using this
    simp [firstAt, hne, hfront]
  | cons x l ih =>
    have hsame : w <+: x :: (l ++ c :: s) ↔ w <+: x :: l :=
      prefix_append_cons_iff (l := x :: l) hc
    rw [List.cons_append, firstAt, firstAt, ih]
    by_cases hfront : w <+: x :: l
    · simp [hsame, hfront]
    · rw [if_neg hfront, if_neg (mt hsame.mp hfront)]
      cases firstAt w l with
      | some k => simp
      | none => cases firstAt w s <;> simp [Nat.add_assoc]

theorem firstAt_eq_zero {w s : List α} (h : w <+: s) : firstAt w s = some 0 := by
  cases s with
  | nil => rw [List.prefix_nil.mp h, firstAt, if_pos rfl]
  | cons c s => rw [firstAt, if_pos h]

/-- A word is found where its first character is. -/
theorem firstAt_append_of_notMem {l w : List α} {c : α} (h : c ∉ l) (rest : List α) :
    firstAt (c :: w) (l ++ (c :: w ++ rest)) = some l.length := by
  induction l with
  | nil => simp [firstAt]
  | cons x l ih =>
    have hx : c ≠ x := fun heq => h (heq ▸ List.mem_cons_self)
    have hfront : ¬ c :: w <+: x :: (l ++ (c :: w ++ rest)) := by
      rw [List.cons_prefix_cons]
      exact fun hbegins => hx hbegins.1
    rw [List.cons_append, firstAt, if_neg hfront, ih fun hmem => h (List.mem_cons_of_mem x hmem)]
    rfl

/-- `strstr(haystack, needle) - haystack`, if the needle occurs. -/
def strstr (haystack needle : Bytes) : Option Nat := firstAt (cstr needle) (cstr haystack)

/-! ## Replacing the first occurrence -/

/-- The word `ori` is to be replaced by `sub`. -/
structure Replacement (α : Type*) where
  ori : List α
  sub : List α
  deriving DecidableEq

namespace Replacement

/-- The text after the first occurrence was replaced. -/
def first (r : Replacement α) (s : List α) : Option (List α) :=
  (firstAt r.ori s).map fun k => s.take k ++ (r.sub ++ s.drop (k + r.ori.length))

/-- What a loop that replaces the first occurrence until there is none computes: no replacement
changes the value, and a text without an occurrence is its own value. -/
structure Computes (r : Replacement α) (f : List α → List α) : Prop where
  replace : ∀ a b, f (a ++ (r.sub ++ b)) = f (a ++ (r.ori ++ b))
  stop : ∀ s, ¬ r.ori <:+: s → f s = s

theorem first_eq_some {r : Replacement α} {s t : List α} (h : r.first s = some t) :
    ∃ a b, s = a ++ (r.ori ++ b) ∧ t = a ++ (r.sub ++ b) ∧ firstAt r.ori s = some a.length := by
  obtain ⟨k, hk, rfl⟩ := Option.map_eq_some_iff.mp h
  obtain ⟨⟨a, b, rfl, rfl⟩, -⟩ := firstAt_eq_some hk
  refine ⟨a, b, rfl, ?_, hk⟩
  rw [List.take_left, ← List.drop_drop, List.drop_left, List.drop_left]

end Replacement

/-! ## One pass -/

/-- One pass over a text that replaces each word found at the current place and copies everything
else; `k` characters of the last word found are still to be skipped. -/
def scan (rs : List (Replacement α)) : Nat → List α → List α
  | _, [] => []
  | k + 1, _ :: s => scan rs k s
  | 0, c :: s =>
    match rs.find? (·.ori <+: c :: s) with
    | some r => r.sub ++ scan rs (r.ori.length - 1) s
    | none => c :: scan rs 0 s

/-- All words of a text replaced in one pass. -/
def onePass (rs : List (Replacement α)) (s : List α) : List α := scan rs 0 s

variable {rs : List (Replacement α)}

@[simp] theorem onePass_nil (rs : List (Replacement α)) : onePass rs [] = [] := rfl

theorem scan_eq_onePass (rs : List (Replacement α)) (k : Nat) (s : List α) :
    scan rs k s = onePass rs (s.drop k) := by
  induction s generalizing k with
  | nil => cases k <;> rfl
  | cons c s ih =>
    cases k with
    | zero => rfl
    | succ k => exact ih k

/-- No word begins here. -/
theorem onePass_cons {c : α} {s : List α} (h : ∀ r ∈ rs, ¬ r.ori <+: c :: s) :
    onePass rs (c :: s) = c :: onePass rs s := by
  have hnone : rs.find? (·.ori <+: c :: s) = none := by
    rw [List.find?_eq_none]
    intro r hr
    simpa using h r hr
  rw [onePass, scan, hnone, onePass]

/-- A word begins here. -/
theorem onePass_append {r : Replacement α} {s : List α}
    (h : rs.find? (·.ori <+: r.ori ++ s) = some r) (hne : r.ori ≠ []) :
    onePass rs (r.ori ++ s) = r.sub ++ onePass rs s := by
  obtain ⟨c, w, hori⟩ := List.exists_cons_of_ne_nil hne
  rw [hori, List.cons_append] at h ⊢
  rw [onePass, scan, h]
  simp only [hori, scan_eq_onePass, List.length_cons, Nat.add_sub_cancel, List.drop_left]

/-- Induction along a pass: over a word that is replaced, or over a character that is copied. -/
@[elab_as_elim]
theorem onePassInduction (rs : List (Replacement α)) {P : List α → Prop} (hne : ∀ r ∈ rs, r.ori ≠ []) (nil : P [])
    (word : ∀ r s, rs.find? (·.ori <+: r.ori ++ s) = some r → P s → P (r.ori ++ s))
    (copy : ∀ c s, (∀ r ∈ rs, ¬ r.ori <+: c :: s) → P s → P (c :: s)) (s : List α) : P s := by
  induction hn : s.length using Nat.strong_induction_on generalizing s with
  | _ n ih =>
    cases s with
    | nil => exact nil
    | cons c s =>
      cases hfind : rs.find? (·.ori <+: c :: s) with
      | none =>
        refine copy c s ?_ (ih s.length (by simp [← hn]) s rfl)
        intro r hr
        simpa using List.find?_eq_none.mp hfind r hr
      | some r =>
        have hbegins : r.ori <+: c :: s := by simpa using List.find?_some hfind
        obtain ⟨rest, hrest⟩ := hbegins
        have hpos := List.length_pos_of_ne_nil (hne r (List.mem_of_find?_eq_some hfind))
        rw [← hrest] at hfind hn ⊢
        rw [List.length_append] at hn
        exact word r rest hfind (ih rest.length (by omega) rest rfl)

/-- Nothing is to be replaced. -/
theorem onePass_of_absent {s : List α} (h : ∀ r ∈ rs, ¬ r.ori <:+: s) : onePass rs s = s := by
  induction s with
  | nil => rfl
  | cons c s ih =>
    rw [onePass_cons fun r hr hbegins => h r hr hbegins.isInfix,
      ih fun r hr hwithin => h r hr (List.infix_cons hwithin)]

/-- A word that does not occur. -/
theorem onePass_cons_of_absent {r : Replacement α} (hne : ∀ r ∈ rs, r.ori ≠ []) {s : List α}
    (h : ¬ r.ori <:+: s) : onePass (r :: rs) s = onePass rs s := by
  induction s using onePassInduction rs hne with
  | nil => rfl
  | word r' s hfind ih =>
    have hr' := hne r' (List.mem_of_find?_eq_some hfind)
    have hfind' : (r :: rs).find? (·.ori <+: r'.ori ++ s) = some r' := by
      rw [List.find?_cons_of_neg, hfind]
      simpa using fun hbegins : r.ori <+: r'.ori ++ s => h hbegins.isInfix
    rw [onePass_append hfind hr', onePass_append hfind' hr',
      ih fun hwithin => h (hwithin.trans (List.suffix_append _ _).isInfix)]
  | copy c s hnone ih =>
    rw [onePass_cons hnone, onePass_cons, ih fun hwithin => h (List.infix_cons hwithin)]
    intro r' hr'
    rcases List.mem_cons.mp hr' with rfl | hr'
    · exact fun hbegins => h hbegins.isInfix
    · exact hnone r' hr'

/-- The number of places at which a word begins. -/
def occurrences (rs : List (Replacement α)) (s : List α) : Nat :=
  s.tails.countP fun t => rs.any (·.ori <+: t)

theorem occurrences_cons (rs : List (Replacement α)) (c : α) (s : List α) :
    occurrences rs (c :: s) =
      occurrences rs s + if rs.any (·.ori <+: c :: s) then 1 else 0 := by
  rw [occurrences, List.tails, List.countP_cons, occurrences]

end Cs537.Lib
