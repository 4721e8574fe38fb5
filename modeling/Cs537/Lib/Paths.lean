import Mathlib.Data.List.DropRight
import Mathlib.Data.List.Induction
import Cs537.Lib.CString

/-!
# Path names

`strtok`, `dirname` and `basename` on path names. On a canonical path, a slash before each
component and nothing else, `strtok` gives back the components and the other two split at
the last slash.
-/

namespace Cs537.Lib

/-- The character `/`. -/
def slash : UInt8 := 47

/-- The tokens that repeated calls of `strtok(s, "/")` return: the maximal runs of other
characters. -/
def strtok (s : Bytes) : List Bytes := (s.splitOn slash).filter (· ≠ [])

/-- A slash separates the tokens before it from those behind it. -/
theorem strtok_append_slash (s t : Bytes) : strtok (s ++ slash :: t) = strtok s ++ strtok t := by
  unfold strtok
  rw [List.splitOn_append_cons_self, List.filter_append]

theorem strtok_of_slash_notMem {s : Bytes} (h : slash ∉ s) :
    strtok s = if s = [] then [] else [s] := by
  have hsplit : s.splitOn slash = [s] := by
    apply List.splitOn_eq_singleton
    simpa using h
  unfold strtok
  rw [hsplit]
  by_cases hs : s = []
  · simp [hs]
  · simp [hs]

/-- Induction over the slashes of a string, from the last one on. -/
@[elab_as_elim]
theorem slashInduction {P : Bytes → Prop} (free : ∀ s, slash ∉ s → P s)
    (cut : ∀ t u, slash ∉ u → P t → P (t ++ slash :: u)) (s : Bytes) : P s := by
  induction hn : s.length using Nat.strong_induction_on generalizing s with
  | _ n ih =>
    by_cases hs : slash ∈ s
    · obtain ⟨u, t, hrev, hu⟩ := List.eq_append_cons_of_mem (List.mem_reverse.mpr hs)
      have hsplit : s = t.reverse ++ slash :: u.reverse := by
        rw [← List.reverse_reverse s, hrev]
        simp
      rw [hsplit]
      apply cut _ _ (by simpa using hu)
      apply ih t.reverse.length _ _ rfl
      rw [← hn, hsplit]
      simp
    · exact free s hs

/-- Behind the last slash there is at most one token. -/
theorem length_strtok_le {s : Bytes} (h : slash ∉ s) : (strtok s).length ≤ 1 := by
  rw [strtok_of_slash_notMem h]
  split <;> simp

/-- The first tokens of a string are the tokens of a first part of it. -/
theorem exists_strtok_take (s : Bytes) (l : Nat) :
    ∃ j, strtok (s.take j) = (strtok s).take l := by
  induction s using slashInduction with
  | free s hs =>
    have hone := length_strtok_le hs
    cases l with
    | zero => exact ⟨0, rfl⟩
    | succ l =>
      refine ⟨s.length, ?_⟩
      rw [List.take_length, List.take_of_length_le (by omega)]
  | cut t u hu ih =>
    by_cases hl : l ≤ (strtok t).length
    · obtain ⟨j, hj⟩ := ih
      refine ⟨min j t.length, ?_⟩
      rw [List.take_append_of_le_length (Nat.min_le_right _ _), strtok_append_slash,
        List.take_append_of_le_length hl, ← hj, ← List.take_take, List.take_length]
    · have hone := length_strtok_le hu
      refine ⟨(t ++ slash :: u).length, ?_⟩
      rw [List.take_length, strtok_append_slash, List.take_of_length_le]
      rw [List.length_append]
      omega

/-- The tokens are made of characters of the string. -/
theorem mem_of_mem_strtok {s tok : Bytes} {x : UInt8} (htok : tok ∈ strtok s) (hx : x ∈ tok) :
    x ∈ s := by
  induction s using slashInduction with
  | free s hs =>
    rw [strtok_of_slash_notMem hs] at htok
    by_cases hnil : s = []
    · simp [hnil] at htok
    · rw [if_neg hnil, List.mem_singleton] at htok
      rwa [← htok]
  | cut t u hu ih =>
    rw [strtok_append_slash, List.mem_append] at htok
    rcases htok with htok | htok
    · exact List.mem_append_left _ (ih htok)
    · rw [strtok_of_slash_notMem hu] at htok
      by_cases hnil : u = []
      · simp [hnil] at htok
      · rw [if_neg hnil, List.mem_singleton] at htok
        rw [htok] at hx
        simp [hx]

/-- The part of a path behind its last slash. -/
def afterSlash (s : Bytes) : Bytes := s.rtakeWhile (· ≠ slash)

/-- The part of a path up to its last slash, trailing slashes removed. -/
def beforeSlash (s : Bytes) : Bytes := (s.rdropWhile (· ≠ slash)).rdropWhile (· = slash)

/-- `dirname(path)` of POSIX. -/
def dirname (path : Bytes) : Bytes :=
  let s := path.rdropWhile (· = slash)
  if path = [] then [46]
  else if s = [] then [slash]
  else if slash ∉ s then [46]
  else if beforeSlash s = [] then [slash]
  else beforeSlash s

/-- `basename(path)` of POSIX. -/
def basename (path : Bytes) : Bytes :=
  let s := path.rdropWhile (· = slash)
  if path = [] then [46]
  else if s = [] then [slash]
  else afterSlash s

/-- The base name of a string is a string. -/
theorem zero_notMem_basename {path : Bytes} (h : (0 : UInt8) ∉ path) :
    (0 : UInt8) ∉ basename path := by
  unfold basename
  simp only
  split
  · decide
  · split
    · decide
    · intro hzero
      apply h
      exact (List.rdropWhile_prefix _ path).subset ((List.rtakeWhile_suffix _ _).subset hzero)

/-! ## Canonical paths -/

/-- A path component: not empty, without slash and NUL. -/
structure IsComponent (c : Bytes) : Prop where
  ne_nil : c ≠ []
  slash_notMem : slash ∉ c
  zero_notMem : (0 : UInt8) ∉ c

/-- The absolute path with the given components. -/
def pathString (cs : List Bytes) : Bytes :=
  if cs = [] then [slash] else cs.flatMap fun c => slash :: c

theorem pathString_snoc (cs : List Bytes) (c : Bytes) :
    pathString (cs ++ [c]) = (cs.flatMap fun c => slash :: c) ++ slash :: c := by
  unfold pathString
  rw [if_neg (by simp), List.flatMap_append]
  simp

theorem strtok_flatMap {cs : List Bytes} (h : ∀ c ∈ cs, IsComponent c) :
    strtok (cs.flatMap fun c => slash :: c) = cs := by
  induction cs using List.reverseRecOn with
  | nil => rfl
  | append_singleton cs c ih =>
    have hc : IsComponent c := h c (by simp)
    rw [List.flatMap_append, List.flatMap_singleton, strtok_append_slash,
      ih fun x hx => h x (by simp [hx]), strtok_of_slash_notMem hc.slash_notMem,
      if_neg hc.ne_nil]

theorem strtok_pathString {cs : List Bytes} (h : ∀ c ∈ cs, IsComponent c) :
    strtok (pathString cs) = cs := by
  unfold pathString
  by_cases hcs : cs = []
  · rw [if_pos hcs, hcs]
    decide
  · rw [if_neg hcs, strtok_flatMap h]

theorem zero_notMem_pathString {cs : List Bytes} (h : ∀ c ∈ cs, IsComponent c) :
    (0 : UInt8) ∉ pathString cs := by
  unfold pathString
  by_cases hcs : cs = []
  · rw [if_pos hcs]
    decide
  · rw [if_neg hcs, List.mem_flatMap]
    rintro ⟨c, hc, hzero⟩
    rcases List.mem_cons.mp hzero with heq | hmem
    · exact absurd heq (by decide)
    · exact (h c hc).zero_notMem hmem

/-- Trailing characters that are dropped. -/
theorem rdropWhile_append_of_pos {p : UInt8 → Bool} {s t : Bytes} (h : ∀ x ∈ t, p x = true) :
    (s ++ t).rdropWhile p = s.rdropWhile p := by
  unfold List.rdropWhile
  rw [List.reverse_append, List.dropWhile_append_of_pos]
  intro x hx
  exact h x (List.mem_reverse.mp hx)

/-- A string that ends in a component has no trailing slash. -/
theorem rdropWhile_slash_append {s c : Bytes} (hc : IsComponent c) :
    (s ++ c).rdropWhile (fun x => x = slash) = s ++ c := by
  obtain ⟨init, x, rfl⟩ := (List.eq_nil_or_concat' c).resolve_left hc.ne_nil
  rw [← List.append_assoc]
  apply List.rdropWhile_concat_neg
  rw [decide_eq_true_eq]
  rintro rfl
  exact hc.slash_notMem (by simp)

theorem rdropWhile_slash_flatMap {cs : List Bytes} (h : ∀ c ∈ cs, IsComponent c) :
    (cs.flatMap fun c => slash :: c).rdropWhile (fun x => x = slash) =
      cs.flatMap fun c => slash :: c := by
  induction cs using List.reverseRecOn with
  | nil => rfl
  | append_singleton cs c _ =>
    rw [List.flatMap_append, List.flatMap_singleton, List.append_cons]
    exact rdropWhile_slash_append (h c (by simp))

/-- `dirname` splits a canonical path at its last slash. -/
theorem dirname_pathString {cs : List Bytes} {c : Bytes} (hcs : ∀ x ∈ cs, IsComponent x)
    (hc : IsComponent c) : dirname (pathString (cs ++ [c])) = pathString cs := by
  have hstrip : ((cs.flatMap fun c => slash :: c) ++ slash :: c).rdropWhile
      (fun x => x = slash) = (cs.flatMap fun c => slash :: c) ++ slash :: c := by
    rw [List.append_cons]
    exact rdropWhile_slash_append hc
  have hbefore : beforeSlash ((cs.flatMap fun c => slash :: c) ++ slash :: c) =
      cs.flatMap fun c => slash :: c := by
    unfold beforeSlash
    rw [List.append_cons, rdropWhile_append_of_pos, List.rdropWhile_concat_neg,
      rdropWhile_append_of_pos, rdropWhile_slash_flatMap hcs]
    · intro x hx
      simpa using hx
    · simp
    · intro x hx
      rw [decide_eq_true_eq]
      rintro rfl
      exact hc.slash_notMem hx
  unfold dirname
  simp only
  rw [pathString_snoc, hstrip, hbefore]
  simp only [List.append_eq_nil_iff, reduceCtorEq, and_false, if_false, List.mem_append,
    List.mem_cons, true_or, or_true, not_true_eq_false]
  unfold pathString
  cases cs with
  | nil => rfl
  | cons x cs => simp

/-- `basename` of a canonical path is its last component. -/
theorem basename_pathString {cs : List Bytes} {c : Bytes} (hc : IsComponent c) :
    basename (pathString (cs ++ [c])) = c := by
  have hstrip : ((cs.flatMap fun c => slash :: c) ++ slash :: c).rdropWhile
      (fun x => x = slash) = (cs.flatMap fun c => slash :: c) ++ slash :: c := by
    rw [List.append_cons]
    exact rdropWhile_slash_append hc
  unfold basename
  simp only
  rw [pathString_snoc, hstrip]
  simp only [List.append_eq_nil_iff, reduceCtorEq, and_false, if_false]
  unfold afterSlash List.rtakeWhile
  rw [List.reverse_append, List.reverse_cons, List.append_assoc, List.takeWhile_append_of_pos]
  · simp
  · intro x hx
    rw [decide_eq_true_eq]
    rintro rfl
    exact hc.slash_notMem (List.mem_reverse.mp hx)

end Cs537.Lib
