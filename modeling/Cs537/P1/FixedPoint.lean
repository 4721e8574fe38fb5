import Cs537.P1.Converting

/-!
# `convert_line` leaves nothing to convert

Every loop of `convert_line` ends, since a round takes a slash away. What a round writes has no byte
in common with a font mark, and the last loop leaves the byte behind a run of slashes what it was,
so no loop makes a mark that an earlier one has removed. The line that is left is a fixed point.
-/

namespace Cs537.P1

open Cs537.Lib

namespace Converting

/-! ## The loops end -/

theorem zero_mem_of_next {s t : Converting} (hzero : (0 : UInt8) ∈ s.line) (h : s.next = some t) :
    (0 : UInt8) ∈ t.line := by
  obtain ⟨m, left, -, ⟨-, rfl⟩ | ⟨pos, hpos, rfl⟩⟩ := next_cases h
  · exact hzero
  · exact (m.round_spec hzero hpos).2.1

/-- A round takes a slash away, and the last test of a loop's condition leaves a loop less. -/
theorem stepsLeft_lt {s t : Converting} (hzero : (0 : UInt8) ∈ s.line) (h : s.next = some t) :
    t.stepsLeft < s.stepsLeft := by
  obtain ⟨m, left, hleft, ⟨-, rfl⟩ | ⟨pos, hpos, rfl⟩⟩ := next_cases h
  · simp only [stepsLeft, hleft, List.length_cons]
    omega
  · obtain ⟨a, b, hbefore, hafter, -⟩ :=
      Replacement.first_eq_some (m.round_spec hzero hpos).1
    have hfewer := m.fewer
    simp only [stepsLeft, hleft, hbefore, hafter, List.count_append]
    omega

theorem isSome_next {s : Converting} {m : Mark} {left : List Mark} (h : s.left = m :: left) :
    ∃ t, s.next = some t := by
  unfold next
  rw [h]
  cases hpos : strstr s.line m.ori with
  | none =>
    simp only [hpos]
    exact ⟨_, rfl⟩
  | some pos =>
    simp only [hpos]
    exact ⟨_, rfl⟩

/-- The first loop that is left ends. -/
theorem loop_ends {m : Mark} {left : List Mark} {line : Bytes} (hzero : (0 : UInt8) ∈ line) :
    ∃ line', Reaches ⟨m :: left, line⟩ ⟨left, line'⟩ ∧ (0 : UInt8) ∈ line' := by
  induction hn : stepsLeft ⟨m :: left, line⟩ using Nat.strong_induction_on generalizing line with
  | _ n ih =>
    obtain ⟨t, hnext⟩ := isSome_next (s := ⟨m :: left, line⟩) rfl
    have hzero' := zero_mem_of_next hzero hnext
    have hfewer := stepsLeft_lt hzero hnext
    obtain ⟨m', left', hleft, hcase⟩ := next_cases hnext
    obtain ⟨rfl, rfl⟩ := List.cons.inj hleft
    rcases hcase with ⟨-, rfl⟩ | ⟨pos, -, rfl⟩
    · exact ⟨line, .single hnext, hzero⟩
    · obtain ⟨line', hreach, hzero''⟩ := ih _ (hn ▸ hfewer) hzero' rfl
      exact ⟨line', .head hnext hreach, hzero''⟩

/-- So do all loops in front of others. -/
theorem loops_end (front left : List Mark) {line : Bytes} (hzero : (0 : UInt8) ∈ line) :
    ∃ line', Reaches ⟨front ++ left, line⟩ ⟨left, line'⟩ ∧ (0 : UInt8) ∈ line' := by
  induction front generalizing line with
  | nil => exact ⟨line, .refl, hzero⟩
  | cons m front ih =>
    obtain ⟨l₁, hreach₁, hzero₁⟩ : ∃ line', Reaches ⟨m :: (front ++ left), line⟩
        ⟨front ++ left, line'⟩ ∧ (0 : UInt8) ∈ line' := loop_ends hzero
    obtain ⟨l₂, hreach₂, hzero₂⟩ := ih hzero₁
    exact ⟨l₂, hreach₁.trans hreach₂, hzero₂⟩

theorem reaches_run (n : Nat) (s : Converting) : Reaches s (s.run n) := by
  induction n generalizing s with
  | zero => exact .refl
  | succ n ih =>
    rw [run]
    cases hnext : s.next with
    | none => exact .refl
    | some t => exact .head hnext (ih t)

/-- There are no more steps than that. -/
theorem left_run {n : Nat} {s : Converting} (hzero : (0 : UInt8) ∈ s.line) (hn : s.stepsLeft ≤ n) :
    (s.run n).left = [] := by
  induction n generalizing s with
  | zero =>
    have hlength : s.left.length ≤ s.stepsLeft := Nat.le_add_right _ _
    exact List.eq_nil_of_length_eq_zero (by rw [run]; omega)
  | succ n ih =>
    rw [run]
    cases hnext : s.next with
    | none =>
      by_contra hne
      obtain ⟨m, left, hleft⟩ := List.exists_cons_of_ne_nil hne
      obtain ⟨t, ht⟩ := isSome_next hleft
      rw [ht] at hnext
      cases hnext
    | some t =>
      have := stepsLeft_lt hzero hnext
      exact ih (zero_mem_of_next hzero hnext) (by omega)

/-- Where no mark occurs, the loops end at once. -/
theorem reaches_of_absent {left : List Mark} {line : Bytes}
    (h : ∀ m ∈ left, ¬ m.ori <:+: cstr line) : Reaches ⟨left, line⟩ ⟨[], line⟩ := by
  induction left with
  | nil => exact .refl
  | cons m left ih =>
    have hnone : strstr line m.ori = none := by
      rw [strstr, cstr_of_zero_notMem m.zero_notMem_ori, firstAt_eq_none_iff]
      exact h m List.mem_cons_self
    refine .head ?_ (ih fun m' hm' => h m' (List.mem_cons_of_mem m hm'))
    simp only [next, hnone]

end Converting

/-- What `convert_line` leaves in the line is what the loops come to. -/
theorem converts_convertLine {line : Bytes} (hzero : (0 : UInt8) ∈ line) :
    Converts line (convertLine line) := by
  let start : Converting := ⟨marks, line⟩
  have hreach := Converting.reaches_run start.stepsLeft start
  have hleft := Converting.left_run (s := start) hzero (Nat.le_refl _)
  refine ⟨(start.run start.stepsLeft).line, ?_, rfl⟩
  rw [← hleft]
  exact hreach

/-! ## No mark is left -/

/-- A word that has no letter of another one lies in front of it or behind it. -/
theorem infix_append_of_disjoint {w u a b : Bytes} (hne : u ≠ []) (h : ∀ c ∈ u, c ∉ w) :
    w <:+: a ++ (u ++ b) ↔ w <:+: a ∨ w <:+: b := by
  induction u generalizing a with
  | nil => exact absurd rfl hne
  | cons c u ih =>
    rw [List.cons_append, infix_append_cons_iff (h c List.mem_cons_self)]
    cases u with
    | nil => rfl
    | cons d u =>
      have hrest := ih (a := []) (List.cons_ne_nil d u) fun x hx => h x (List.mem_cons_of_mem c hx)
      rw [List.nil_append] at hrest
      rw [hrest]
      constructor
      · rintro (ha | hnil | hb)
        · exact .inl ha
        · exact .inl (hnil.trans List.nil_infix)
        · exact .inr hb
      · rintro (ha | hb)
        · exact .inl ha
        · exact .inr (.inr hb)

/-- A pass leaves none of its marks. -/
theorem Fonts.absent {rs : List (Replacement UInt8)} (h : Fonts rs) {r : Replacement UInt8}
    (hr : r ∈ rs) (hfree : ∀ r' ∈ rs, ∀ c ∈ r'.sub, c ∉ r.ori) (s : Bytes) :
    ¬ r.ori <:+: onePass rs s := by
  induction s using onePassInduction rs (fun r hr => (h.font r hr).ne_nil) with
  | nil => simpa using (h.font r hr).ne_nil
  | word r' s hfind ih =>
    have hr' := List.mem_of_find?_eq_some hfind
    obtain ⟨x, d, -, hsub, -⟩ := h.font r' hr'
    have hne : r'.sub ≠ [] := by simp [hsub]
    have hword := infix_append_of_disjoint (a := []) (b := onePass rs s) hne (hfree r' hr')
    rw [List.nil_append] at hword
    rw [h.onePass_mark hr', hword, not_or]
    exact ⟨by simpa using (h.font r hr).ne_nil, ih⟩
  | copy c s hnone ih =>
    rw [onePass_cons hnone, List.infix_cons_iff, not_or]
    refine ⟨fun hbegins => hnone r hr ?_, ih⟩
    obtain ⟨x, d, hori, -, hx, hx', -⟩ := h.font r hr
    rw [hori, List.cons_prefix_cons] at hbegins ⊢
    refine ⟨hbegins.1, h.prefix_of_prefix_onePass ?_ ?_ hbegins.2⟩
    · simp [Ne.symm hx]
    · simp [Ne.symm hx']

/-- Text without slashes that begins the squeezed text begins the text. -/
theorem prefix_of_prefix_squeeze {w s : Bytes} (hw : (47 : UInt8) ∉ w) (h : w <+: squeeze s) :
    w <+: s := by
  induction w generalizing s with
  | nil => exact List.nil_prefix
  | cons c w ih =>
    simp only [List.mem_cons, not_or] at hw
    cases s with
    | nil => simp [squeeze] at h
    | cons d s =>
      have hd : d = c := by
        obtain ⟨rest, hrest⟩ := h
        have hhead := head?_squeeze (d :: s)
        rw [← hrest] at hhead
        exact (Option.some.inj hhead).symm
      rw [squeeze_cons (.inl (hd ▸ Ne.symm hw.1)), List.cons_prefix_cons] at h
      rw [List.cons_prefix_cons]
      exact ⟨h.1, ih hw.2 h.2⟩

/-- Squeezing the slashes makes no mark. -/
theorem infix_of_infix_squeeze {w s : Bytes} (hw : (47 : UInt8) ∉ w)
    (h : 47 :: w <:+: squeeze s) : 47 :: w <:+: s := by
  induction s with
  | nil => exact h
  | cons c s ih =>
    rw [squeeze] at h
    split at h
    · exact List.infix_cons (ih h)
    · rcases List.infix_cons_iff.mp h with hbegins | hwithin
      · rw [List.cons_prefix_cons] at hbegins
        refine List.IsPrefix.isInfix ?_
        rw [List.cons_prefix_cons]
        exact ⟨hbegins.1, prefix_of_prefix_squeeze hw hbegins.2⟩
      · exact List.infix_cons (ih hwithin)

/-- No two slashes are left next to each other. -/
theorem not_slashes_infix_squeeze (s : Bytes) : ¬ [47, 47] <:+: squeeze s := by
  induction s with
  | nil => simp [squeeze]
  | cons c s ih =>
    rw [squeeze]
    split
    · exact ih
    · rename_i hsingle
      rw [List.infix_cons_iff, not_or]
      refine ⟨fun hbegins => hsingle ?_, ih⟩
      rw [List.cons_prefix_cons] at hbegins
      obtain ⟨hc, rest, hrest⟩ := hbegins
      refine ⟨hc.symm, ?_⟩
      rw [← head?_squeeze, ← hrest]
      rfl

/-- What the loops for the font marks write has no letter of such a mark. -/
theorem sub_disjoint_ori : ∀ r ∈ fonts, ∀ r' ∈ fonts, ∀ c ∈ r'.sub, c ∉ r.ori := by
  have hall : (fonts.all fun r => fonts.all fun r' => r'.sub.all fun c => !r.ori.contains c) =
      true := by decide
  simpa [List.all_eq_true] using hall

/-- No mark is left in the result of the five loops. -/
theorem absent_squeeze_onePass (s : Bytes) :
    ∀ m ∈ marks, ¬ m.ori <:+: squeeze (onePass fonts s) := by
  have hfont : ∀ r ∈ fonts, ¬ r.ori <:+: squeeze (onePass fonts s) := by
    intro r hr hwithin
    have habsent := fonts_fonts.absent hr (sub_disjoint_ori r hr) s
    obtain ⟨x, d, hori, -, hx, -⟩ := isFont_of_mem_fonts r hr
    rw [hori] at hwithin habsent
    exact habsent (infix_of_infix_squeeze (by simp [Ne.symm hx]) hwithin)
  intro m hm
  have hcases : m.toReplacement ∈ fonts ∨ m = slashes := by
    simp only [marks, List.mem_cons, List.not_mem_nil, or_false] at hm
    rcases hm with rfl | rfl | rfl | rfl | rfl
    · exact .inl (by decide)
    · exact .inl (by decide)
    · exact .inl (by decide)
    · exact .inl (by decide)
    · exact .inr rfl
  rcases hcases with hmem | rfl
  · exact hfont _ hmem
  · exact not_slashes_infix_squeeze _

/-! ## The fixed point -/

/-- Each of the loops is reached and ends. -/
def LoopsEnd (line : Bytes) : Prop :=
  ∀ front m left, marks = front ++ m :: left →
    ∃ before after, Converting.Reaches ⟨marks, line⟩ ⟨m :: left, before⟩ ∧
      Converting.Reaches ⟨m :: left, before⟩ ⟨left, after⟩

theorem loopsEnd {line : Bytes} (hzero : (0 : UInt8) ∈ line) : LoopsEnd line := by
  intro front m left hsplit
  obtain ⟨before, hbefore, hzero'⟩ := Converting.loops_end front (m :: left) hzero
  obtain ⟨after, hafter, -⟩ : ∃ after, Converting.Reaches ⟨m :: left, before⟩ ⟨left, after⟩ ∧
      (0 : UInt8) ∈ after := Converting.loop_ends hzero'
  exact ⟨before, after, hsplit ▸ hbefore, hafter⟩

/-- All loops end, they leave no mark in the line, and to convert it again changes nothing. -/
theorem convertLine_fixedPoint {line : Bytes} (hzero : (0 : UInt8) ∈ line) :
    LoopsEnd line ∧ ∃ line', Converting.Reaches ⟨marks, line⟩ ⟨[], line'⟩ ∧
      (∀ m ∈ marks, ¬ m.ori <:+: cstr line') ∧
      ∀ again, Converting.Reaches ⟨marks, line'⟩ ⟨[], again⟩ ↔ again = line' := by
  refine ⟨loopsEnd hzero, ?_⟩
  obtain ⟨line', hreach, hvalue⟩ := (converts_iff hzero _).mpr rfl
  have habsent : ∀ m ∈ marks, ¬ m.ori <:+: cstr line' := by
    rw [hvalue]
    exact absent_squeeze_onePass _
  have hstays := Converting.reaches_of_absent habsent
  refine ⟨line', hreach, habsent, fun again => ⟨fun h => h.unique hstays, ?_⟩⟩
  rintro rfl
  exact hstays

/-- The theorem at a line with a mark between the letters of another one. -/
theorem convertLine_fixedPoint_slashes :
    LoopsEnd (ascii "///f/fBB" ++ [0]) ∧ ∃ line',
      Converting.Reaches ⟨marks, ascii "///f/fBB" ++ [0]⟩ ⟨[], line'⟩ ∧
        (∀ m ∈ marks, ¬ m.ori <:+: cstr line') ∧
        ∀ again, Converting.Reaches ⟨marks, line'⟩ ⟨[], again⟩ ↔ again = line' :=
  convertLine_fixedPoint (by decide)

example : convertLine (ascii "///f/fBB" ++ [0]) = ascii "/f" ++ 27 :: ascii "[1mB" := by decide

end Cs537.P1
