import Mathlib.Data.List.Infix
import Mathlib.Data.List.TakeWhile

/-!
# C strings

A `char *` is the list of the bytes behind it. The string it holds ends before the first
NUL byte; the library functions below look at that string only.
-/

namespace Cs537.Lib

/-- The bytes behind a `char *`. -/
abbrev Bytes := List UInt8

/-- The string a buffer holds: its bytes before the first NUL. -/
def cstr (buf : Bytes) : Bytes := buf.takeWhile (· ≠ 0)

/-- `strstr(haystack, needle) != NULL`: the needle occurs in the haystack. -/
def strstrFinds (haystack needle : Bytes) : Bool :=
  decide (cstr needle <:+: cstr haystack)

/-- A `char` of x86 as an `int`. -/
def charInt (b : UInt8) : Int := b.toInt8.toInt

theorem zero_notMem_cstr (buf : Bytes) : (0 : UInt8) ∉ cstr buf := by
  intro h
  have := List.mem_takeWhile_imp h
  simp at this

theorem cstr_of_zero_notMem {s : Bytes} (h : (0 : UInt8) ∉ s) : cstr s = s := by
  apply List.takeWhile_eq_self_iff.mpr
  intro b hb
  rw [decide_eq_true_eq]
  rintro rfl
  exact h hb

/-- A string in front of other bytes. -/
theorem cstr_append_of_zero_notMem {s : Bytes} (h : (0 : UInt8) ∉ s) (rest : Bytes) :
    cstr (s ++ rest) = s ++ cstr rest := by
  unfold cstr
  apply List.takeWhile_append_of_pos
  intro b hb
  rw [decide_eq_true_eq]
  rintro rfl
  exact h hb

/-- A string followed by its terminator and anything else. -/
theorem cstr_append_zero {s : Bytes} (h : (0 : UInt8) ∉ s) (rest : Bytes) :
    cstr (s ++ 0 :: rest) = s := by
  rw [cstr_append_of_zero_notMem h]
  simp [cstr]

/-- A buffer with a NUL byte holds a string, its terminator and the rest. -/
theorem exists_eq_cstr_append {buf : Bytes} (h : (0 : UInt8) ∈ buf) :
    ∃ rest, buf = cstr buf ++ 0 :: rest := by
  induction buf with
  | nil => simp at h
  | cons b buf ih =>
    by_cases hb : b = 0
    · subst hb
      exact ⟨buf, by simp [cstr]⟩
    · have hmem : (0 : UInt8) ∈ buf := by
        rcases List.mem_cons.mp h with heq | hmem
        · exact absurd heq.symm hb
        · exact hmem
      obtain ⟨rest, hrest⟩ := ih hmem
      refine ⟨rest, ?_⟩
      have hcons : cstr (b :: buf) = b :: cstr buf := by
        unfold cstr
        rw [List.takeWhile_cons_of_pos (by simpa using hb)]
      rw [hcons, List.cons_append, ← hrest]

/-- Bytes behind the terminator do not matter. -/
theorem cstr_append_of_mem {buf : Bytes} (h : (0 : UInt8) ∈ buf) (rest : Bytes) :
    cstr (buf ++ rest) = cstr buf := by
  obtain ⟨tail, htail⟩ := exists_eq_cstr_append h
  have happ : buf ++ rest = cstr buf ++ 0 :: (tail ++ rest) := by
    rw [← List.cons_append, ← List.append_assoc, ← htail]
  rw [happ]
  exact cstr_append_zero (zero_notMem_cstr buf) _

theorem cstr_append_terminator (s : Bytes) : cstr (s ++ [0]) = cstr s := by
  by_cases hzero : (0 : UInt8) ∈ s
  · exact cstr_append_of_mem hzero [0]
  · rw [cstr_append_zero hzero, cstr_of_zero_notMem hzero]

/-- A needle without the byte `c` does not reach over it. -/
theorem infix_append_cons_iff {needle a b : Bytes} {c : UInt8} (hc : c ∉ needle) :
    needle <:+: a ++ c :: b ↔ needle <:+: a ∨ needle <:+: b := by
  constructor
  · intro h
    rcases List.infix_append_iff.mp h with ha | hb | ⟨l, k, rfl, hl, hk⟩
    · exact .inl ha
    · rcases List.infix_cons_iff.mp hb with hfront | hb
      · cases needle with
        | nil => exact .inl List.nil_infix
        | cons d needle =>
          rw [List.cons_prefix_cons] at hfront
          exact absurd (hfront.1 ▸ List.mem_cons_self) hc
      · exact .inr hb
    · cases k with
      | nil =>
        rw [List.append_nil]
        exact .inl hl.isInfix
      | cons d k =>
        rw [List.cons_prefix_cons] at hk
        exact absurd (hk.1 ▸ List.mem_append_right l List.mem_cons_self) hc
  · rintro (h | h)
    · exact List.infix_append_of_infix_left h
    · exact List.infix_append_of_infix_right (List.infix_cons h)

/-- A string constant. -/
def ascii (s : String) : Bytes := s.toList.map fun c => UInt8.ofNat c.toNat

/-- `strncmp`: the difference of the first bytes that differ, or of the bytes where both strings
end, among the first `n`. -/
def strncmp : Bytes → Bytes → Nat → Int
  | _, _, 0 => 0
  | p, q, n + 1 =>
    if p.headD 0 ≠ 0 ∧ p.headD 0 = q.headD 0 then strncmp p.tail q.tail n
    else (p.headD 0).toNat - (q.headD 0).toNat

/-- The string at a pointer, byte by byte. -/
theorem cstr_eq (p : Bytes) :
    cstr p = if p.headD 0 = 0 then [] else p.headD 0 :: cstr p.tail := by
  cases p with
  | nil => rfl
  | cons b p =>
    unfold cstr
    rw [List.takeWhile_cons, List.headD_cons]
    by_cases hb : b = 0 <;> simp [hb]

/-- `strncmp` compares the first `n` bytes of two strings. -/
theorem strncmp_eq_zero_iff (p q : Bytes) (n : Nat) :
    strncmp p q n = 0 ↔ (cstr p).take n = (cstr q).take n := by
  induction n generalizing p q with
  | zero => simp [strncmp]
  | succ n ih =>
    rw [strncmp, cstr_eq p, cstr_eq q]
    generalize p.headD 0 = b
    generalize q.headD 0 = c
    have hdiff : (b.toNat : Int) - c.toNat = 0 ↔ b = c := by
      rw [← UInt8.toNat_inj]
      omega
    by_cases hb : b = 0
    · subst hb
      rw [if_neg (by simp), hdiff]
      by_cases hc : c = 0
      · simp [hc]
      · simp [hc, Ne.symm hc]
    · by_cases hbc : b = c
      · subst hbc
        rw [if_pos ⟨hb, rfl⟩, ih]
        simp [hb]
      · rw [if_neg (fun h => hbc h.2), hdiff]
        by_cases hc : c = 0
        · simp [hb, hc]
        · simp [hbc, hb, hc]

/-- The buffer of `n` bytes that `strncpy(s, t, n)` fills. -/
def strncpy (t : Bytes) (n : Nat) : Bytes :=
  (cstr t).take n ++ List.replicate (n - (cstr t).length) 0

/-- As many bytes as the string has in front of `rest`. -/
theorem strncpy_append {s : Bytes} (h : (0 : UInt8) ∉ s) (rest : Bytes) :
    strncpy (s ++ rest) s.length = s := by
  have hpad : s.length - (s ++ cstr rest).length = 0 := by
    rw [List.length_append]
    omega
  rw [strncpy, cstr_append_of_zero_notMem h, List.take_left, hpad, List.replicate_zero,
    List.append_nil]

/-- The string that `safestrcpy(s, t, n)` leaves in `s`, for a positive `n`. -/
def safestrcpy (t : Bytes) (n : Nat) : Bytes := (cstr t).take (n - 1)

/-- `fgets(s, n, file)`: the bytes stored in front of a NUL, the line with its end or as much of it
as fits, and the rest of the file; undefined where nothing is left. -/
def fgets (n : Nat) (file : Bytes) : Option (Bytes × Bytes) :=
  if file = [] then none
  else
    let line := file.takeWhile (· ≠ 10) ++ (file.dropWhile (· ≠ 10)).take 1
    some (line.take (n - 1), file.drop (line.take (n - 1)).length)

/-- What the calls of `fgets` store until the file has been read; `fuel` many calls at most. -/
def fgetsFrom (n : Nat) : Nat → Bytes → List Bytes
  | 0, _ => []
  | fuel + 1, file =>
    match fgets n file with
    | none => []
    | some (line, rest) => line :: fgetsFrom n fuel rest

/-- What the calls of `fgets` store until the file has been read. Every one of them takes a byte if
`n` is at least 2. -/
def fgetsAll (n : Nat) (file : Bytes) : List Bytes := fgetsFrom n file.length file

/-- A line that fits is read as a whole. -/
theorem fgets_line {n : Nat} {line : Bytes} (hline : (10 : UInt8) ∉ line)
    (hn : line.length + 1 < n) (rest : Bytes) :
    fgets n (line ++ 10 :: rest) = some (line ++ [10], rest) := by
  have hfree : ∀ b ∈ line, decide (b ≠ 10) = true := by
    intro b hb
    rw [decide_eq_true_eq]
    rintro rfl
    exact hline hb
  have hlength : (line ++ [10]).length ≤ n - 1 := by
    rw [List.length_append, List.length_singleton]
    omega
  have hfile : line ++ 10 :: rest = line ++ [10] ++ rest := by simp
  rw [fgets, if_neg (by simp), List.takeWhile_append_of_pos hfree, List.dropWhile_append_of_pos hfree,
    List.takeWhile_cons_of_neg (by simp), List.dropWhile_cons_of_neg (by simp), List.append_nil,
    List.take_succ_cons, List.take_zero]
  simp only
  rw [List.take_of_length_le hlength, hfile, List.drop_left]

/-- A file of lines that fit is read line by line. -/
theorem fgetsAll_lines {n : Nat} {lines : List Bytes} (hline : ∀ line ∈ lines, (10 : UInt8) ∉ line)
    (hn : ∀ line ∈ lines, line.length + 1 < n) :
    fgetsAll n (lines.flatMap (· ++ [10])) = lines.map (· ++ [10]) := by
  have hfuel : ∀ fuel, lines.length ≤ fuel →
      fgetsFrom n fuel (lines.flatMap (· ++ [10])) = lines.map (· ++ [10]) := by
    induction lines with
    | nil =>
      intro fuel _
      cases fuel <;> rfl
    | cons line lines ih =>
      intro fuel hlength
      obtain ⟨fuel, rfl⟩ : ∃ k, fuel = k + 1 := ⟨fuel - 1, by simp at hlength; omega⟩
      have hread := fgets_line (hline line List.mem_cons_self) (hn line List.mem_cons_self)
        (lines.flatMap (· ++ [10]))
      rw [List.flatMap_cons, List.append_assoc, List.singleton_append, fgetsFrom, hread, List.map_cons]
      simp only
      rw [ih (fun l hl => hline l (List.mem_cons_of_mem line hl))
        (fun l hl => hn l (List.mem_cons_of_mem line hl)) fuel (by simpa using hlength)]
  refine hfuel _ ?_
  clear hfuel hline hn
  induction lines with
  | nil => exact Nat.le_refl 0
  | cons line lines ih =>
    rw [List.flatMap_cons, List.length_append, List.length_cons, List.length_append]
    simp only [List.length_cons, List.length_nil]
    omega

theorem cstr_strncpy (t : Bytes) (n : Nat) : cstr (strncpy t n) = (cstr t).take n := by
  have hfree : (0 : UInt8) ∉ (cstr t).take n := fun h =>
    zero_notMem_cstr t (List.mem_of_mem_take h)
  unfold strncpy
  cases hpad : n - (cstr t).length with
  | zero => rw [List.replicate_zero, List.append_nil, cstr_of_zero_notMem hfree]
  | succ k => exact cstr_append_zero hfree _

end Cs537.Lib
