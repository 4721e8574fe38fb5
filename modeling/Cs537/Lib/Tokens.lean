import Mathlib.Data.List.Induction
import Cs537.Lib.CString

/-!
# Tokens

`strsep` cuts a text at each delimiter and returns empty tokens too; the tokens that are not empty
are the maximal runs of other characters (`Runs`), and `words` lists them. `strtokNext` is one call
of `strtok`, with the text that is left for the next one.
-/

namespace Cs537.Lib

variable {α : Type*} {delim : α → Bool}

/-! ## `strsep` -/

/-- `strsep`: the token, and the text behind the delimiter that ends it, if there is one. -/
def strsep (delim : α → Bool) (s : List α) : List α × Option (List α) :=
  (s.takeWhile fun c => !delim c, (s.dropWhile fun c => !delim c).tail?)

/-- The tokens that `strsep` returns until nothing is left. -/
def strsepAll (delim : α → Bool) (s : List α) : List (List α) := s.splitOnP delim

/-- What repeated calls return: a token, and the tokens of the rest. -/
theorem strsepAll_eq (s : List α) : strsepAll delim s =
    (strsep delim s).1 :: ((strsep delim s).2.map (strsepAll delim)).getD [] := by
  have hfree : ∀ c ∈ s.takeWhile fun c => !delim c, delim c = false := by
    intro c hc
    simpa using List.mem_takeWhile_imp hc
  have hsplit := List.takeWhile_append_dropWhile (p := fun c => !delim c) (l := s)
  cases hrest : s.dropWhile fun c => !delim c with
  | nil =>
    rw [hrest, List.append_nil] at hsplit
    simp only [strsepAll, strsep, hrest, List.tail?_nil, Option.map_none, Option.getD_none]
    rw [← List.splitOnP_eq_singleton hfree, hsplit]
  | cons d rest =>
    have hd : delim d = true := by
      have := List.head?_dropWhile_not (fun c => !delim c) s
      simpa [hrest] using this
    rw [hrest] at hsplit
    simp only [strsepAll, strsep, hrest, List.tail?_cons, Option.map_some, Option.getD_some]
    rw [← List.splitOnP_append_cons_of_forall_mem hfree d hd, hsplit]

/-- The tokens that are not empty. -/
def words (delim : α → Bool) (s : List α) : List (List α) :=
  (strsepAll delim s).filter fun w => !w.isEmpty

/-- A delimiter separates the words before it from those behind it. -/
theorem words_append_cons (s : List α) {d : α} (hd : delim d = true) (t : List α) :
    words delim (s ++ d :: t) = words delim s ++ words delim t := by
  rw [words, strsepAll, List.splitOnP_append_cons _ _ hd, List.filter_append]
  rfl

theorem words_of_free {w : List α} (hne : w ≠ []) (hfree : ∀ c ∈ w, delim c = false) :
    words delim w = [w] := by
  simp [words, strsepAll, List.splitOnP_eq_singleton hfree, hne]

theorem words_append_of_delim {gap : List α} (h : ∀ c ∈ gap, delim c = true) (s : List α) :
    words delim (gap ++ s) = words delim s := by
  induction gap with
  | nil => rfl
  | cons c gap ih =>
    have hc := words_append_cons [] (h c List.mem_cons_self) (gap ++ s)
    rw [List.cons_append, ← ih fun x hx => h x (List.mem_cons_of_mem c hx)]
    exact hc

theorem words_append_of_free {w s : List α} (hne : w ≠ []) (hfree : ∀ c ∈ w, delim c = false)
    (hs : ∀ c ∈ s.head?, delim c = true) : words delim (w ++ s) = w :: words delim s := by
  cases s with
  | nil =>
    rw [List.append_nil, words_of_free hne hfree]
    rfl
  | cons d s =>
    have hd : delim d = true := hs d rfl
    have hbehind := words_append_cons [] hd s
    rw [words_append_cons w hd, words_of_free hne hfree]
    rw [List.nil_append] at hbehind
    rw [hbehind]
    rfl

/-- A text has no word, or it begins with a gap and a word that ends there. -/
theorem blank_or_word (delim : α → Bool) (s : List α) : (∀ c ∈ s, delim c = true) ∨
    ∃ gap w rest, s = gap ++ (w ++ rest) ∧ (∀ c ∈ gap, delim c = true) ∧ w ≠ [] ∧
      (∀ c ∈ w, delim c = false) ∧ ∀ c ∈ rest.head?, delim c = true := by
  have hgap : ∀ c ∈ s.takeWhile delim, delim c = true := fun c hc => List.mem_takeWhile_imp hc
  have hsplit := List.takeWhile_append_dropWhile (p := delim) (l := s)
  cases hrest : s.dropWhile delim with
  | nil =>
    rw [hrest, List.append_nil] at hsplit
    rw [hsplit] at hgap
    exact .inl hgap
  | cons c rest =>
    have hc : delim c = false := by
      have := List.head?_dropWhile_not delim s
      simpa [hrest] using this
    refine .inr ⟨s.takeWhile delim, (c :: rest).takeWhile fun x => !delim x,
      (c :: rest).dropWhile fun x => !delim x, ?_, hgap, by simp [hc], ?_, ?_⟩
    · rw [List.takeWhile_append_dropWhile, ← hrest, hsplit]
    · intro x hx
      simpa using List.mem_takeWhile_imp hx
    · intro x hx
      have := List.head?_dropWhile_not (fun x => !delim x) (c :: rest)
      rw [Option.mem_def.mp hx] at this
      simpa using this

/-- A call of `strtok`: the token, and the text that is left for the next call. -/
def strtokNext (delim : α → Bool) (s : List α) : Option (List α) × List α :=
  match s.dropWhile delim with
  | [] => (none, [])
  | c :: s => (some ((c :: s).takeWhile fun c => !delim c),
      ((c :: s).dropWhile fun c => !delim c).tail)

/-- What is left of the string that a first call of `strtok` has been given: the call writes a NUL
over the delimiter behind the token. -/
def strtokLeft (delim : α → Bool) (s : List α) : List α :=
  s.takeWhile delim ++ (s.dropWhile delim).takeWhile fun c => !delim c

theorem strtokNext_of_blank {s : List α} (h : ∀ c ∈ s, delim c = true) :
    strtokNext delim s = (none, []) := by
  rw [strtokNext, List.dropWhile_eq_nil_iff.mpr h]

/-- A word ends at the first delimiter. -/
theorem span_word {w behind : List α} (hfree : ∀ c ∈ w, delim c = false)
    (hbehind : ∀ c ∈ behind.head?, delim c = true) :
    (w ++ behind).takeWhile (fun c => !delim c) = w ∧
      (w ++ behind).dropWhile (fun c => !delim c) = behind := by
  have hword : ∀ x ∈ w, (!delim x) = true := by
    intro x hx
    simp [hfree x hx]
  rw [List.takeWhile_append_of_pos hword, List.dropWhile_append_of_pos hword]
  cases behind with
  | nil => simp
  | cons d behind =>
    have hd : delim d = true := hbehind d rfl
    simp [hd]

/-- The token is the first word, and the delimiter behind it is gone. -/
theorem strtokNext_append {gap w behind : List α} (hgap : ∀ c ∈ gap, delim c = true)
    (hne : w ≠ []) (hfree : ∀ c ∈ w, delim c = false)
    (hbehind : ∀ c ∈ behind.head?, delim c = true) :
    strtokNext delim (gap ++ (w ++ behind)) = (some w, behind.tail) := by
  obtain ⟨htoken, hrest⟩ := span_word hfree hbehind
  obtain ⟨c, w', rfl⟩ := List.exists_cons_of_ne_nil hne
  have hc : delim c = false := hfree c List.mem_cons_self
  have hskip : (gap ++ (c :: w' ++ behind)).dropWhile delim = c :: (w' ++ behind) := by
    rw [List.dropWhile_append_of_pos hgap, List.cons_append,
      List.dropWhile_cons_of_neg (by simp [hc])]
  rw [strtokNext, hskip]
  simp only [← List.cons_append, htoken, hrest]

/-- What a call of `strtok` finds. -/
theorem strtokNext_cases (delim : α → Bool) (s : List α) :
    ((∀ c ∈ s, delim c = true) ∧ strtokNext delim s = (none, [])) ∨
    ∃ gap w behind, s = gap ++ (w ++ behind) ∧ (∀ c ∈ gap, delim c = true) ∧ w ≠ [] ∧
      (∀ c ∈ w, delim c = false) ∧ (∀ c ∈ behind.head?, delim c = true) ∧
      strtokNext delim s = (some w, behind.tail) := by
  rcases blank_or_word delim s with h | ⟨gap, w, behind, rfl, hgap, hne, hfree, hbehind⟩
  · exact .inl ⟨h, strtokNext_of_blank h⟩
  · exact .inr ⟨gap, w, behind, rfl, hgap, hne, hfree, hbehind,
      strtokNext_append hgap hne hfree hbehind⟩

end Cs537.Lib
