import Cs537.P1.Wgroff

/-!
# What `convert_line` computes

The first four loops together replace all font marks in one pass, since what they write has no
slash. The last loop squeezes every run of slashes to one. A single pass over the line that replaces
the five marks where it finds them gives another result as soon as a run of slashes is long enough,
or a font mark has a slash in front of it.
-/

namespace Cs537.P1

open Cs537.Lib

/-! ## Rounds -/

theorem length_cstr_append_zero_le (s rest : Bytes) :
    (cstr (s ++ 0 :: rest)).length ≤ s.length := by
  by_cases hzero : (0 : UInt8) ∈ s
  · rw [cstr_append_of_mem hzero]
    exact (List.takeWhile_prefix _).length_le
  · rw [cstr_append_zero hzero]

/-- The first step of a round moves what is behind the mark. -/
theorem Mark.makeRoom_eq {m : Mark} {line a b rest : Bytes}
    (hline : line = a ++ (m.ori ++ (b ++ 0 :: rest))) (hb : (0 : UInt8) ∉ b) :
    m.makeRoom line a.length = line.take (a.length + m.sub.length) ++
      (b ++ 0 :: line.drop (a.length + m.sub.length + (b.length + 1))) := by
  have hbehind : line.drop (a.length + m.ori.length) = b ++ 0 :: rest := by
    rw [hline, ← List.drop_drop, List.drop_left, List.drop_left]
  have htake : (b ++ 0 :: rest).take (b.length + 1) = b ++ [0] := by
    rw [List.take_length_add_append]
    rfl
  rw [makeRoom, memmove, hbehind, cstr_append_zero hb, htake, splice]
  simp

/-- There is room for the replacement in the line. -/
theorem Mark.length_front {m : Mark} {line a b rest : Bytes}
    (hline : line = a ++ (m.ori ++ (b ++ 0 :: rest))) :
    (line.take (a.length + m.sub.length)).length = a.length + m.sub.length := by
  have := m.length_sub_le
  rw [List.length_take, hline]
  simp only [List.length_append, List.length_cons]
  omega

/-- The second step writes the replacement in front of it. -/
theorem Mark.round_eq {m : Mark} {line a b rest : Bytes}
    (hline : line = a ++ (m.ori ++ (b ++ 0 :: rest))) (hb : (0 : UInt8) ∉ b) :
    m.round line a.length =
      a ++ (m.sub ++ (b ++ 0 :: line.drop (a.length + m.sub.length + (b.length + 1)))) := by
  have hfront := m.length_front hline
  have hroom := m.makeRoom_eq hline hb
  have hdrop : (m.makeRoom line a.length).drop (a.length + m.sub.length) =
      b ++ 0 :: line.drop (a.length + m.sub.length + (b.length + 1)) := by
    rw [hroom]
    exact List.drop_left' hfront
  have htake : (m.makeRoom line a.length).take a.length = a := by
    rw [hroom, List.take_append_of_le_length (by omega), List.take_take, min_eq_left (by omega),
      hline, List.take_left]
  rw [round, splice, hdrop, htake, List.append_assoc]

/-- A round replaces the first mark in the string; between its two steps the string is not longer
than after them. -/
theorem Mark.round_spec {m : Mark} {line : Bytes} {pos : Nat} (hzero : (0 : UInt8) ∈ line)
    (hpos : strstr line m.ori = some pos) :
    m.first (cstr line) = some (cstr (m.round line pos)) ∧ (0 : UInt8) ∈ m.round line pos ∧
      (cstr (m.makeRoom line pos)).length ≤ (cstr (m.round line pos)).length := by
  rw [strstr, cstr_of_zero_notMem m.zero_notMem_ori] at hpos
  obtain ⟨rest, hline⟩ := exists_eq_cstr_append hzero
  obtain ⟨⟨a, b, hab, rfl⟩, -⟩ := firstAt_eq_some hpos
  have hfree : (0 : UInt8) ∉ a ++ (m.ori ++ b) := by
    rw [← hab]
    exact zero_notMem_cstr line
  simp only [List.mem_append, not_or] at hfree
  have hmem : line = a ++ (m.ori ++ (b ++ 0 :: rest)) := by
    rw [hline, hab]
    simp
  have hround := m.round_eq hmem hfree.2.2
  have hstring : cstr (m.round line a.length) = a ++ (m.sub ++ b) := by
    have hsub : (0 : UInt8) ∉ a ++ (m.sub ++ b) := by
      simp only [List.mem_append, not_or]
      exact ⟨hfree.1, m.zero_notMem_sub, hfree.2.2⟩
    rw [hround, ← List.append_assoc m.sub, ← List.append_assoc, cstr_append_zero hsub]
  refine ⟨?_, ?_, ?_⟩
  · rw [hstring, Replacement.first, hpos, Option.map_some, hab, List.take_left,
      ← List.drop_drop, List.drop_left, List.drop_left]
  · rw [hround]
    simp
  · have hle := length_cstr_append_zero_le (line.take (a.length + m.sub.length) ++ b)
      (line.drop (a.length + m.sub.length + (b.length + 1)))
    rw [List.append_assoc, ← m.makeRoom_eq hmem hfree.2.2, List.length_append,
      m.length_front hmem] at hle
    rw [hstring]
    simp only [List.length_append]
    omega

namespace Converting

/-- A step ends a loop whose mark does not occur, or it is a round. -/
theorem next_cases {s t : Converting} (h : s.next = some t) :
    ∃ m left, s.left = m :: left ∧
      (¬ m.ori <:+: cstr s.line ∧ t = ⟨left, s.line⟩ ∨
        ∃ pos, strstr s.line m.ori = some pos ∧ t = ⟨m :: left, m.round s.line pos⟩) := by
  unfold next at h
  cases hleft : s.left with
  | nil => simp [hleft] at h
  | cons m left =>
    refine ⟨m, left, rfl, ?_⟩
    cases hpos : strstr s.line m.ori with
    | none =>
      simp only [hleft, hpos, Option.some.injEq] at h
      rw [strstr, cstr_of_zero_notMem m.zero_notMem_ori] at hpos
      exact .inl ⟨firstAt_eq_none_iff.mp hpos, h.symm⟩
    | some pos =>
      simp only [hleft, hpos, Option.some.injEq] at h
      exact .inr ⟨pos, rfl, h.symm⟩

/-- A loop ends, and the string is then what the replacement computes. -/
theorem reaches_of_computes {m : Mark} {f : Bytes → Bytes} (hf : m.Computes f) (left : List Mark)
    {line : Bytes} (hzero : (0 : UInt8) ∈ line) :
    ∃ line', Reaches ⟨m :: left, line⟩ ⟨left, line'⟩ ∧ (0 : UInt8) ∈ line' ∧
      cstr line' = f (cstr line) := by
  -- every round takes a slash away
  induction hn : (cstr line).count 47 using Nat.strong_induction_on generalizing line with
  | _ n ih =>
    cases hpos : strstr line m.ori with
    | none =>
      have hstop : ¬ m.ori <:+: cstr line := by
        rw [strstr, cstr_of_zero_notMem m.zero_notMem_ori] at hpos
        exact firstAt_eq_none_iff.mp hpos
      refine ⟨line, .single ?_, hzero, (hf.stop _ hstop).symm⟩
      simp only [next, hpos]
    | some pos =>
      obtain ⟨hround, hzero', -⟩ := m.round_spec hzero hpos
      obtain ⟨a, b, hbefore, hafter, -⟩ := Replacement.first_eq_some hround
      have hfewer : (cstr (m.round line pos)).count 47 < n := by
        have := m.fewer
        rw [← hn, hbefore, hafter]
        simp only [List.count_append]
        omega
      obtain ⟨line', hreach, hzero'', hvalue⟩ := ih _ hfewer hzero' rfl
      refine ⟨line', .head ?_ hreach, hzero'', ?_⟩
      · simp only [next, hpos]
      · rw [hvalue, hafter, hbefore, hf.replace]

/-- The steps are determined. -/
theorem Reaches.unique {s : Converting} {l₁ l₂ : Bytes} (h₁ : Reaches s ⟨[], l₁⟩)
    (h₂ : Reaches s ⟨[], l₂⟩) : l₁ = l₂ := by
  have hunique : Relator.RightUnique fun s t : Converting => s.next = some t := by
    intro s t u ht hu
    rw [ht] at hu
    exact Option.some.inj hu
  have hfinal {l : Bytes} {t : Converting} (h : Reaches ⟨[], l⟩ t) : t = ⟨[], l⟩ := by
    induction h with
    | refl => rfl
    | tail _ hstep ih =>
      rw [ih] at hstep
      cases hstep
  rcases Relation.ReflTransGen.total_of_right_unique hunique h₁ h₂ with h | h
  · exact (congrArg line (hfinal h)).symm
  · exact congrArg line (hfinal h)

end Converting

/-! ## Font marks -/

/-- A mark of three characters that is replaced by an ANSI sequence. -/
def IsFont (r : Replacement UInt8) : Prop :=
  ∃ x d, r.ori = [47, 102, x] ∧ r.sub = [27, 91, d, 109] ∧ x ≠ 47 ∧ x ≠ 27 ∧ d ≠ 47

/-- Font marks, no two of them for the same characters. -/
structure Fonts (rs : List (Replacement UInt8)) : Prop where
  font : ∀ r ∈ rs, IsFont r
  distinct : ∀ r ∈ rs, ∀ r' ∈ rs, r'.ori = r.ori → r' = r

/-- The marks of the first four loops. -/
def fonts : List (Replacement UInt8) :=
  [bold.toReplacement, italic.toReplacement, underline.toReplacement, normal.toReplacement]

theorem isFont_of_mem_fonts : ∀ r ∈ fonts, IsFont r := by
  intro r hr
  simp only [fonts, List.mem_cons, List.not_mem_nil, or_false] at hr
  rcases hr with rfl | rfl | rfl | rfl
  · exact ⟨66, 49, by decide⟩
  · exact ⟨73, 51, by decide⟩
  · exact ⟨85, 52, by decide⟩
  · exact ⟨80, 48, by decide⟩

namespace IsFont

variable {r : Replacement UInt8} (h : IsFont r)
include h

theorem ne_nil : r.ori ≠ [] := by
  obtain ⟨x, d, hori, -⟩ := h
  simp [hori]

theorem slash_notMem_sub : (47 : UInt8) ∉ r.sub := by
  obtain ⟨x, d, -, hsub, -, -, hd⟩ := h
  simp [hsub, Ne.symm hd]

theorem head_ori (s : Bytes) : (r.ori ++ s).head? = some 47 := by
  obtain ⟨x, d, hori, -⟩ := h
  simp [hori]

theorem head_sub (s : Bytes) : (r.sub ++ s).head? = some 27 := by
  obtain ⟨x, d, -, hsub, -⟩ := h
  simp [hsub]

/-- A mark begins with a slash. -/
theorem not_prefix_cons {c : UInt8} (hc : c ≠ 47) (s : Bytes) : ¬ r.ori <+: c :: s := by
  obtain ⟨x, d, hori, -⟩ := h
  simp [hori, List.cons_prefix_cons, Ne.symm hc]

/-- A mark does not reach into another mark, or into a sequence that was written. -/
theorem prefix_append_iff {a t : Bytes} (ha : a ≠ []) (ht : t.head? = some 47 ∨ t.head? = some 27) :
    r.ori <+: a ++ t ↔ r.ori <+: a := by
  obtain ⟨x, d, hori, -, hx, hx', -⟩ := h
  obtain ⟨b, t, rfl⟩ : ∃ b t', t = b :: t' := by
    cases t with
    | nil => simp at ht
    | cons b t => exact ⟨b, t, rfl⟩
  have hb : b = 47 ∨ b = 27 := by simpa using ht
  cases a with
  | nil => exact absurd rfl ha
  | cons c a =>
    cases a with
    | nil =>
      have : (102 : UInt8) ≠ b := by
        rcases hb with rfl | rfl <;> decide
      simp [hori, List.cons_prefix_cons, this]
    | cons c' a =>
      cases a with
      | nil =>
        have : x ≠ b := by
          rcases hb with rfl | rfl <;> assumption
        simp [hori, List.cons_prefix_cons, this]
      | cons c'' a => simp [hori, List.cons_prefix_cons]

theorem fonts : Fonts [r] := by
  constructor
  · intro r' hr'
    rwa [List.mem_singleton.mp hr']
  · intro r' hr' r'' hr'' _
    rw [List.mem_singleton.mp hr', List.mem_singleton.mp hr'']

end IsFont

namespace Fonts

variable {rs : List (Replacement UInt8)} (h : Fonts rs)
include h

theorem find_eq {r : Replacement UInt8} (hr : r ∈ rs) (s : Bytes) :
    rs.find? (·.ori <+: r.ori ++ s) = some r := by
  cases hfind : rs.find? (·.ori <+: r.ori ++ s) with
  | none => simpa using List.find?_eq_none.mp hfind r hr
  | some r' =>
    have hr' := List.mem_of_find?_eq_some hfind
    have hbegins : r'.ori <+: r.ori ++ s := by simpa using List.find?_some hfind
    obtain ⟨x, d, hori, -⟩ := h.font r hr
    obtain ⟨x', d', hori', -⟩ := h.font r' hr'
    have hsame : r'.ori = r.ori := by
      simp only [hori, hori', List.cons_append, List.nil_append, List.cons_prefix_cons] at hbegins ⊢
      rw [hbegins.2.2.1]
    rw [h.distinct r hr r' hr' hsame]

theorem onePass_mark {r : Replacement UInt8} (hr : r ∈ rs) (s : Bytes) :
    onePass rs (r.ori ++ s) = r.sub ++ onePass rs s :=
  onePass_append (h.find_eq hr s) (h.font r hr).ne_nil

theorem onePass_copy {c : UInt8} (hc : c ≠ 47) (s : Bytes) :
    onePass rs (c :: s) = c :: onePass rs s :=
  onePass_cons fun r hr => (h.font r hr).not_prefix_cons hc s

theorem onePass_append_free {w : Bytes} (hw : (47 : UInt8) ∉ w) (s : Bytes) :
    onePass rs (w ++ s) = w ++ onePass rs s := by
  induction w with
  | nil => rfl
  | cons c w ih =>
    simp only [List.mem_cons, not_or] at hw
    rw [List.cons_append, h.onePass_copy (Ne.symm hw.1), ih hw.2, List.cons_append]

/-- A character that is in no mark separates what is in front of it from what is behind it. -/
theorem onePass_append_cons {c : UInt8} (hc : ∀ r ∈ rs, c ∉ r.ori) (a b : Bytes) :
    onePass rs (a ++ c :: b) = onePass rs a ++ c :: onePass rs b := by
  induction a using onePassInduction rs (fun r hr => (h.font r hr).ne_nil) with
  | nil =>
    refine onePass_cons fun r hr hbegins => hc r hr ?_
    obtain ⟨x, d, hori, -⟩ := h.font r hr
    rw [hori, List.cons_prefix_cons] at hbegins
    rw [hori, hbegins.1]
    exact List.mem_cons_self
  | word r s hfind ih =>
    have hr := List.mem_of_find?_eq_some hfind
    rw [List.append_assoc, h.onePass_mark hr, h.onePass_mark hr, ih, List.append_assoc]
  | copy d s hnone ih =>
    have hnone' : ∀ r ∈ rs, ¬ r.ori <+: d :: (s ++ c :: b) := fun r hr hbegins =>
      hnone r hr ((prefix_append_cons_iff (hc r hr)).mp hbegins)
    rw [List.cons_append, onePass_cons hnone', onePass_cons hnone, ih, List.cons_append]

/-- A pass gives the same before and after a mark was replaced. -/
theorem onePass_replace {r : Replacement UInt8} (hr : r ∈ rs) (a b : Bytes) :
    onePass rs (a ++ (r.sub ++ b)) = onePass rs (a ++ (r.ori ++ b)) := by
  have hfont := h.font r hr
  induction a using onePassInduction rs (fun r hr => (h.font r hr).ne_nil) with
  | nil =>
    rw [List.nil_append, List.nil_append, h.onePass_mark hr,
      h.onePass_append_free hfont.slash_notMem_sub]
  | word r' s hfind ih =>
    have hr' := List.mem_of_find?_eq_some hfind
    rw [List.append_assoc, List.append_assoc, h.onePass_mark hr', h.onePass_mark hr', ih]
  | copy c s hnone ih =>
    have hcopy {t : Bytes} (ht : t.head? = some 47 ∨ t.head? = some 27) :
        onePass rs (c :: s ++ t) = c :: onePass rs (s ++ t) := by
      refine onePass_cons fun r' hr' hbegins => hnone r' hr' ?_
      exact ((h.font r' hr').prefix_append_iff (List.cons_ne_nil c s) ht).mp hbegins
    rw [hcopy (.inr (hfont.head_sub b)), hcopy (.inl (hfont.head_ori b)), ih]

/-- Neither the slash nor the escape character is in this text, so it is copied. -/
theorem prefix_of_prefix_onePass {w s : Bytes} (hslash : (47 : UInt8) ∉ w)
    (hesc : (27 : UInt8) ∉ w) (hw : w <+: onePass rs s) : w <+: s := by
  induction w generalizing s with
  | nil => exact List.nil_prefix
  | cons c w ih =>
    simp only [List.mem_cons, not_or] at hslash hesc
    induction s using onePassInduction rs (fun r hr => (h.font r hr).ne_nil) with
    | nil => simp at hw
    | word r s hfind _ =>
      have hr := List.mem_of_find?_eq_some hfind
      obtain ⟨x, d, -, hsub, -⟩ := h.font r hr
      rw [h.onePass_mark hr, hsub, List.cons_append, List.cons_prefix_cons] at hw
      exact absurd hw.1.symm hesc.1
    | copy d s hnone _ =>
      rw [onePass_cons hnone, List.cons_prefix_cons] at hw
      rw [List.cons_prefix_cons]
      exact ⟨hw.1, ih hslash.2 hesc.2 hw.2⟩

/-- A pass for one more mark after a pass is a pass for all of them. -/
theorem onePass_snoc {r : Replacement UInt8} (hall : Fonts (rs ++ [r])) (hr : r ∉ rs) (s : Bytes) :
    onePass [r] (onePass rs s) = onePass (rs ++ [r]) s := by
  have hself : r ∈ rs ++ [r] := by simp
  have hone := (hall.font r hself).fonts
  induction s using onePassInduction (rs ++ [r]) (fun r hr => (hall.font r hr).ne_nil) with
  | nil => rfl
  | word r' s hfind ih =>
    have hr' := List.mem_of_find?_eq_some hfind
    rw [hall.onePass_mark hr', ← ih]
    rcases List.mem_append.mp hr' with hmem | hlast
    · rw [h.onePass_mark hmem, hone.onePass_append_free (h.font r' hmem).slash_notMem_sub]
    · obtain rfl := List.mem_singleton.mp hlast
      obtain ⟨x, d, hori, -, hx, -⟩ := hall.font r' hself
      -- the other passes copy the mark
      have hcopy : onePass rs (r'.ori ++ s) = r'.ori ++ onePass rs s := by
        have hfirst : ∀ r'' ∈ rs, ¬ r''.ori <+: 47 :: ([102, x] ++ s) := by
          intro r'' hr'' hbegins
          have hfind' := hall.find_eq (r := r'') (by simp [hr'']) s
          obtain ⟨x', d', hori', -⟩ := h.font r'' hr''
          have hsame : r''.ori = r'.ori := by
            simp only [hori, hori', List.cons_append, List.nil_append,
              List.cons_prefix_cons] at hbegins ⊢
            rw [hbegins.2.2.1]
          exact hr (hall.distinct r' hself r'' (by simp [hr'']) hsame ▸ hr'')
        have hrest : (47 : UInt8) ∉ [102, x] := by simp [Ne.symm hx]
        rw [hori]
        exact (onePass_cons hfirst).trans (congrArg _ (h.onePass_append_free hrest s))
      rw [hcopy, hone.onePass_mark (by simp)]
  | copy c s hnone ih =>
    have hrs : onePass rs (c :: s) = c :: onePass rs s :=
      onePass_cons fun r' hr' => hnone r' (by simp [hr'])
    rw [hrs, onePass_cons hnone, ← ih]
    refine onePass_cons fun r' hr' hbegins => ?_
    obtain rfl := List.mem_singleton.mp hr'
    obtain ⟨x, d, hori, -, hx, hx', -⟩ := hall.font r' hself
    apply hnone r' hself
    rw [hori, List.cons_prefix_cons] at hbegins ⊢
    refine ⟨hbegins.1, h.prefix_of_prefix_onePass ?_ ?_ hbegins.2⟩
    · simp [Ne.symm hx]
    · simp [Ne.symm hx']

end Fonts

/-- The loop for a font mark computes a pass for this mark. -/
theorem IsFont.computes {r : Replacement UInt8} (h : IsFont r) : r.Computes (onePass [r]) := by
  constructor
  · exact h.fonts.onePass_replace (by simp)
  · intro s hs
    refine onePass_of_absent fun r' hr' => ?_
    rwa [List.mem_singleton.mp hr']

theorem fonts_fonts : Fonts fonts :=
  ⟨isFont_of_mem_fonts, by decide⟩

/-- The first four loops replace the font marks in one pass. -/
theorem reaches_slashes {line : Bytes} (hzero : (0 : UInt8) ∈ line) :
    ∃ line', Converting.Reaches ⟨marks, line⟩ ⟨[slashes], line'⟩ ∧ (0 : UInt8) ∈ line' ∧
      cstr line' = onePass fonts (cstr line) := by
  have hone (m : Mark) (hm : m.toReplacement ∈ fonts) := (isFont_of_mem_fonts _ hm).computes
  have hsub {rs : List (Replacement UInt8)} (hrs : rs ⊆ fonts) : Fonts rs :=
    ⟨fun r hr => fonts_fonts.font r (hrs hr),
      fun r hr r' hr' => fonts_fonts.distinct r (hrs hr) r' (hrs hr')⟩
  obtain ⟨l₁, hreach₁, hzero₁, hl₁⟩ := Converting.reaches_of_computes (hone bold (by decide))
    [italic, underline, normal, slashes] hzero
  obtain ⟨l₂, hreach₂, hzero₂, hl₂⟩ := Converting.reaches_of_computes (hone italic (by decide))
    [underline, normal, slashes] hzero₁
  obtain ⟨l₃, hreach₃, hzero₃, hl₃⟩ := Converting.reaches_of_computes (hone underline (by decide))
    [normal, slashes] hzero₂
  obtain ⟨l₄, hreach₄, hzero₄, hl₄⟩ := Converting.reaches_of_computes (hone normal (by decide))
    [slashes] hzero₃
  refine ⟨l₄, hreach₁.trans (hreach₂.trans (hreach₃.trans hreach₄)), hzero₄, ?_⟩
  have hbold : Fonts [bold.toReplacement] := hsub (by decide)
  have htwo : Fonts [bold.toReplacement, italic.toReplacement] := hsub (by decide)
  have hthree : Fonts [bold.toReplacement, italic.toReplacement, underline.toReplacement] :=
    hsub (by decide)
  rw [hl₄, hl₃, hl₂, hl₁, hbold.onePass_snoc htwo (by decide), List.cons_append, List.nil_append,
    htwo.onePass_snoc hthree (by decide), List.cons_append, List.cons_append, List.nil_append,
    hthree.onePass_snoc fonts_fonts (by decide)]
  rfl

/-! ## Runs of slashes -/

/-- One slash for each run of slashes. -/
def squeeze : Bytes → Bytes
  | [] => []
  | c :: s => if c = 47 ∧ s.head? = some 47 then squeeze s else c :: squeeze s

theorem squeeze_cons {c : UInt8} {s : Bytes} (h : c ≠ 47 ∨ s.head? ≠ some 47) :
    squeeze (c :: s) = c :: squeeze s := by
  rw [squeeze, if_neg]
  rintro ⟨hc, hs⟩
  rcases h with h | h
  · exact h hc
  · exact h hs

theorem squeeze_append_free {w : Bytes} (hw : (47 : UInt8) ∉ w) (s : Bytes) :
    squeeze (w ++ s) = w ++ squeeze s := by
  induction w with
  | nil => rfl
  | cons c w ih =>
    simp only [List.mem_cons, not_or] at hw
    rw [List.cons_append, squeeze_cons (.inl (Ne.symm hw.1)), ih hw.2, List.cons_append]

theorem squeeze_append_cons {c : UInt8} (hc : c ≠ 47) (a b : Bytes) :
    squeeze (a ++ c :: b) = squeeze a ++ c :: squeeze b := by
  induction a with
  | nil => exact squeeze_cons (.inl hc)
  | cons d a ih =>
    have hhead : (a ++ c :: b).head? = some 47 ↔ a.head? = some 47 := by
      cases a with
      | nil => simpa using hc
      | cons x a => rfl
    rw [List.cons_append, squeeze, squeeze, ih]
    simp only [hhead]
    split <;> rfl

theorem head?_squeeze (s : Bytes) : (squeeze s).head? = s.head? := by
  induction s with
  | nil => rfl
  | cons c s ih =>
    rw [squeeze]
    split
    · rename_i hpair
      rw [ih, hpair.2, List.head?_cons, hpair.1]
    · rfl

theorem squeeze_run (n : Nat) {s : Bytes} (hs : s.head? ≠ some 47) :
    squeeze (List.replicate n 47 ++ s) = List.replicate (min n 1) 47 ++ squeeze s := by
  induction n with
  | zero => rfl
  | succ n ih =>
    cases n with
    | zero => exact squeeze_cons (.inr hs)
    | succ n =>
      rw [List.replicate_succ, List.cons_append, squeeze, if_pos ⟨rfl, rfl⟩, ih,
        min_eq_right (by omega), min_eq_right (by omega)]

/-- Two texts that begin with slashes. -/
theorem slashes_append_eq_iff {m n : Nat} {s t : Bytes} (hs : s.head? ≠ some 47)
    (ht : t.head? ≠ some 47) :
    List.replicate m 47 ++ s = List.replicate n 47 ++ t ↔ m = n ∧ s = t := by
  induction m generalizing n with
  | zero =>
    cases n with
    | zero => simp
    | succ n =>
      have hne : s ≠ 47 :: (List.replicate n 47 ++ t) := by
        rintro rfl
        exact hs rfl
      simp [List.replicate_succ, hne]
  | succ m ih =>
    cases n with
    | zero =>
      have hne : 47 :: (List.replicate m 47 ++ s) ≠ t := by
        rintro rfl
        exact ht rfl
      simp [List.replicate_succ, hne]
    | succ n => simp [List.replicate_succ, ih]

/-- The last loop squeezes the slashes. -/
theorem computes_slashes : slashes.Computes squeeze := by
  constructor
  · intro a b
    induction a with
    | nil =>
      have hpair : squeeze (47 :: 47 :: b) = squeeze (47 :: b) := by
        rw [squeeze, if_pos ⟨rfl, rfl⟩]
      exact hpair.symm
    | cons c a ih =>
      have hhead : (a ++ (slashes.sub ++ b)).head? = (a ++ (slashes.ori ++ b)).head? := by
        cases a <;> rfl
      rw [List.cons_append, List.cons_append, squeeze, squeeze, hhead, ih]
  · intro s hs
    induction s with
    | nil => rfl
    | cons c s ih =>
      rw [squeeze_cons, ih fun h => hs (List.infix_cons h)]
      by_contra hpair
      simp only [not_or, not_not] at hpair
      obtain ⟨s', rfl⟩ := List.head?_eq_some_iff.mp hpair.2
      exact hs ⟨[], s', by rw [hpair.1]; rfl⟩

/-- `convert_line` returns, and what the line then holds. -/
theorem converts_iff {line : Bytes} (hzero : (0 : UInt8) ∈ line) (out : Bytes) :
    Converts line out ↔ out = squeeze (onePass fonts (cstr line)) := by
  obtain ⟨l₁, hreach, hzero₁, hl₁⟩ := reaches_slashes hzero
  obtain ⟨l₂, hreach', -, hl₂⟩ := Converting.reaches_of_computes computes_slashes [] hzero₁
  have hall := hreach.trans hreach'
  rw [← hl₁, ← hl₂]
  constructor
  · rintro ⟨l, hl, rfl⟩
    rw [hl.unique hall]
  · rintro rfl
    exact ⟨l₂, hall, rfl⟩

/-! ## The single pass -/

/-- All five marks. -/
def allMarks : List (Replacement UInt8) := marks.map Mark.toReplacement

/-- The text after a slash that makes it a font mark. -/
def StartsFont (s : Bytes) : Prop := ∃ r ∈ fonts, r.ori <+: 47 :: s

instance (s : Bytes) : Decidable (StartsFont s) := inferInstanceAs (Decidable (∃ r ∈ fonts, _))

/-- A run of `n` slashes in front of `s` that both ways of converting treat alike. -/
def RunOk (n : Nat) (s : Bytes) : Prop := if StartsFont s then n ≤ 1 ∨ n = 3 else n ≤ 2

/-- No run of slashes is longer than two, but for runs of three in front of a font mark's letters;
and no font mark has exactly one slash in front of it. -/
def SlashesOk (s : Bytes) : Prop :=
  ∀ a n b, s = a ++ (List.replicate n 47 ++ b) → a.getLast? ≠ some 47 → b.head? ≠ some 47 →
    RunOk n b

theorem allMarks_eq : allMarks = fonts ++ [slashes.toReplacement] := rfl

theorem allMarks_copy {c : UInt8} (hc : c ≠ 47) (s : Bytes) :
    onePass allMarks (c :: s) = c :: onePass allMarks s := by
  refine onePass_cons fun r hr => ?_
  rw [allMarks_eq, List.mem_append, List.mem_singleton] at hr
  rcases hr with hr | rfl
  · exact (isFont_of_mem_fonts r hr).not_prefix_cons hc s
  · have hori : slashes.ori = [47, 47] := by decide
    rw [hori, List.cons_prefix_cons]
    exact fun h => hc h.1.symm

theorem allMarks_font {r : Replacement UInt8} (hr : r ∈ fonts) (s : Bytes) :
    onePass allMarks (r.ori ++ s) = r.sub ++ onePass allMarks s := by
  refine onePass_append ?_ (isFont_of_mem_fonts r hr).ne_nil
  rw [allMarks_eq, List.find?_append, fonts_fonts.find_eq hr, Option.some_or]

theorem not_font_of_slash {r : Replacement UInt8} (hr : r ∈ fonts) (s : Bytes) :
    ¬ r.ori <+: 47 :: 47 :: s := by
  obtain ⟨x, d, hori, -⟩ := isFont_of_mem_fonts r hr
  simp [hori, List.cons_prefix_cons]

/-- Two slashes are replaced by one. -/
theorem allMarks_pairs (n : Nat) (s : Bytes) :
    onePass allMarks (List.replicate (2 * n) 47 ++ s) =
      List.replicate n 47 ++ onePass allMarks s := by
  induction n with
  | zero => rfl
  | succ n ih =>
    have hpair (t : Bytes) : onePass allMarks (47 :: 47 :: t) = 47 :: onePass allMarks t := by
      refine onePass_append (r := slashes.toReplacement) ?_ (by decide)
      have hnone : fonts.find? (·.ori <+: slashes.ori ++ t) = none := by
        rw [List.find?_eq_none]
        intro r hr
        have hori : slashes.ori = [47, 47] := by decide
        simpa [hori] using not_font_of_slash hr t
      rw [allMarks_eq, List.find?_append, hnone, Option.none_or]
      simp
    rw [Nat.mul_succ, List.replicate_succ, List.replicate_succ, List.cons_append, List.cons_append,
      hpair, ih, List.replicate_succ, List.cons_append]

/-- A slash alone is copied. -/
theorem allMarks_slash {s : Bytes} (hs : s.head? ≠ some 47) (hfont : ¬ StartsFont s) :
    onePass allMarks (47 :: s) = 47 :: onePass allMarks s := by
  refine onePass_cons fun r hr hbegins => ?_
  rw [allMarks_eq, List.mem_append, List.mem_singleton] at hr
  rcases hr with hr | rfl
  · exact hfont ⟨r, hr, hbegins⟩
  · have hori : slashes.ori = [47, 47] := by decide
    rw [hori, List.cons_prefix_cons] at hbegins
    obtain ⟨t, rfl⟩ := hbegins.2
    exact hs rfl

theorem fonts_slashes (n : Nat) (s : Bytes) :
    onePass fonts (List.replicate n 47 ++ 47 :: s) =
      List.replicate n 47 ++ onePass fonts (47 :: s) := by
  induction n with
  | zero => rfl
  | succ n ih =>
    rw [List.replicate_succ, List.cons_append, List.cons_append, onePass_cons, ih]
    intro r hr
    cases n with
    | zero => exact not_font_of_slash hr s
    | succ n => exact not_font_of_slash hr _

/-- The loops give the result of the single pass. -/
def Agrees (s : Bytes) : Prop := squeeze (onePass fonts s) = onePass allMarks s

theorem agrees_cons {c : UInt8} (hc : c ≠ 47) (s : Bytes) : Agrees (c :: s) ↔ Agrees s := by
  rw [Agrees, Agrees, fonts_fonts.onePass_copy hc, allMarks_copy hc, squeeze_cons (.inl hc),
    List.cons.injEq]
  simp

theorem head?_onePass_fonts {s : Bytes} (hs : s.head? ≠ some 47) :
    (onePass fonts s).head? ≠ some 47 := by
  cases s with
  | nil => exact hs
  | cons c s =>
    have hc : c ≠ 47 := fun h => hs (by rw [h]; rfl)
    rw [fonts_fonts.onePass_copy hc]
    simpa using hc

theorem head?_onePass_allMarks {s : Bytes} (hs : s.head? ≠ some 47) :
    (onePass allMarks s).head? ≠ some 47 := by
  cases s with
  | nil => exact hs
  | cons c s =>
    have hc : c ≠ 47 := fun h => hs (by rw [h]; rfl)
    rw [allMarks_copy hc]
    simpa using hc

/-- A font mark with `n` slashes in front of it. -/
theorem agrees_font {r : Replacement UInt8} (hr : r ∈ fonts) (n : Nat) (s : Bytes) :
    Agrees (List.replicate n 47 ++ (r.ori ++ s)) ↔ (n = 0 ∨ n = 2) ∧ Agrees s := by
  have hfont := isFont_of_mem_fonts r hr
  have hloops : squeeze (onePass fonts (List.replicate n 47 ++ (r.ori ++ s))) =
      List.replicate (min n 1) 47 ++ (r.sub ++ squeeze (onePass fonts s)) := by
    have hhead : (r.sub ++ onePass fonts s).head? ≠ some 47 := by
      rw [hfont.head_sub]
      decide
    obtain ⟨t, ht⟩ := List.head?_eq_some_iff.mp (hfont.head_ori s)
    rw [ht, fonts_slashes, ← ht, fonts_fonts.onePass_mark hr, squeeze_run n hhead,
      squeeze_append_free hfont.slash_notMem_sub]
  have hheads (t : Bytes) : (r.sub ++ t).head? ≠ some 47 := by
    rw [hfont.head_sub]
    decide
  rcases Nat.even_or_odd' n with ⟨k, rfl | rfl⟩
  · rw [Agrees, hloops, allMarks_pairs, allMarks_font hr,
      slashes_append_eq_iff (hheads _) (hheads _), List.append_cancel_left_eq]
    refine and_congr_left' ?_
    omega
  · -- the last slash in front of the mark takes the slash of the mark
    obtain ⟨x, d, hori, hsub, hx, -⟩ := hfont
    have hpass : onePass allMarks (List.replicate (2 * k + 1) 47 ++ (r.ori ++ s)) =
        List.replicate (k + 1) 47 ++ 102 :: x :: onePass allMarks s := by
      have hsplit : List.replicate (2 * k + 1) 47 ++ (r.ori ++ s) =
          List.replicate (2 * (k + 1)) 47 ++ 102 :: x :: s := by
        rw [hori, Nat.mul_succ, List.replicate_succ' (n := 2 * k + 1)]
        simp
      rw [hsplit, allMarks_pairs, allMarks_copy (by decide), allMarks_copy hx]
    rw [Agrees, hloops, hpass, slashes_append_eq_iff (hheads _) (by simp), hsub]
    constructor
    · rintro ⟨-, hne⟩
      simp at hne
    · rintro ⟨h, -⟩
      omega

/-- Slashes in front of anything else. -/
theorem agrees_plain {s : Bytes} (hs : s.head? ≠ some 47) (hfont : ¬ StartsFont s) (n : Nat) :
    Agrees (List.replicate n 47 ++ s) ↔ n ≤ 2 ∧ Agrees s := by
  have hloops : squeeze (onePass fonts (List.replicate n 47 ++ s)) =
      List.replicate (min n 1) 47 ++ squeeze (onePass fonts s) := by
    have hcopy : onePass fonts (List.replicate n 47 ++ s) =
        List.replicate n 47 ++ onePass fonts s := by
      cases n with
      | zero => rfl
      | succ n =>
        have hslash : onePass fonts (47 :: s) = 47 :: onePass fonts s :=
          onePass_cons fun r hr hbegins => hfont ⟨r, hr, hbegins⟩
        rw [List.replicate_succ', List.append_assoc, List.singleton_append, fonts_slashes, hslash,
          List.append_assoc, List.singleton_append]
    rw [hcopy, squeeze_run n (head?_onePass_fonts hs)]
  have hpass : onePass allMarks (List.replicate n 47 ++ s) =
      List.replicate ((n + 1) / 2) 47 ++ onePass allMarks s := by
    rcases Nat.even_or_odd' n with ⟨k, rfl | rfl⟩
    · rw [allMarks_pairs, show (2 * k + 1) / 2 = k by omega]
    · rw [List.replicate_succ', List.append_assoc, List.singleton_append, allMarks_pairs,
        allMarks_slash hs hfont, show (2 * k + 1 + 1) / 2 = k + 1 by omega,
        List.replicate_succ', List.append_assoc, List.singleton_append]
  have hhead : (squeeze (onePass fonts s)).head? ≠ some 47 := by
    rw [head?_squeeze]
    exact head?_onePass_fonts hs
  rw [Agrees, hloops, hpass, slashes_append_eq_iff hhead (head?_onePass_allMarks hs)]
  refine and_congr_left' ?_
  omega

/-! ## The condition -/

theorem slashesOk_cons {c : UInt8} (hc : c ≠ 47) (s : Bytes) :
    SlashesOk (c :: s) ↔ SlashesOk s := by
  constructor
  · intro h a n b hs ha hb
    refine h (c :: a) n b (by rw [hs, List.cons_append]) ?_ hb
    cases a with
    | nil => simpa using hc
    | cons d a => simpa using ha
  · intro h a n b hs ha hb
    cases a with
    | nil =>
      cases n with
      | zero => simp [RunOk]
      | succ n =>
        rw [List.nil_append, List.replicate_succ, List.cons_append] at hs
        exact absurd (List.cons.inj hs).1 hc
    | cons d a =>
      rw [List.cons_append, List.cons.injEq] at hs
      refine h a n b hs.2 ?_ hb
      cases a with
      | nil => simp
      | cons d' a => simpa using ha

theorem slashesOk_run {n : Nat} {s : Bytes} (hs : s.head? ≠ some 47) :
    SlashesOk (List.replicate n 47 ++ s) ↔ RunOk n s ∧ SlashesOk s := by
  constructor
  · intro h
    refine ⟨h [] n s rfl (by simp) hs, ?_⟩
    intro a k b hab ha hb
    cases a with
    | nil =>
      cases k with
      | zero => simp [RunOk]
      | succ k =>
        rw [hab] at hs
        exact absurd rfl hs
    | cons c a =>
      refine h (List.replicate n 47 ++ c :: a) k b (by rw [hab, List.append_assoc]) ?_ hb
      simpa [List.getLast?_append] using ha
  · rintro ⟨hrun, h⟩ a k b hab ha hb
    rcases List.append_eq_append_iff.mp hab with ⟨a', rfl, hrest⟩ | ⟨c, hc, hrest⟩
    · refine h a' k b hrest ?_ hb
      intro hlast
      rw [List.getLast?_append, hlast] at ha
      exact ha rfl
    · -- what is in front of the run is a part of it that does not end in a slash
      have hnil : a = [] := by
        by_contra hne
        have hmem : a.getLast hne ∈ List.replicate n 47 := by
          rw [hc]
          exact List.mem_append_left c (List.getLast_mem hne)
        rw [List.getLast?_eq_getLast_of_ne_nil hne, List.eq_of_mem_replicate hmem] at ha
        exact ha rfl
      rw [hnil, List.nil_append] at hab
      obtain ⟨rfl, rfl⟩ := (slashes_append_eq_iff hs hb).mp hab
      exact hrun

/-- The slashes at the beginning of a text. -/
theorem exists_run (s : Bytes) :
    ∃ n t, s = List.replicate n 47 ++ t ∧ t.head? ≠ some 47 := by
  induction s with
  | nil => exact ⟨0, [], rfl, by simp⟩
  | cons c s ih =>
    by_cases hc : c = 47
    · obtain ⟨n, t, rfl, ht⟩ := ih
      exact ⟨n + 1, t, by rw [hc]; rfl, ht⟩
    · exact ⟨0, c :: s, rfl, by simpa using hc⟩

theorem agrees_iff (s : Bytes) : Agrees s ↔ SlashesOk s := by
  induction hn : s.length using Nat.strong_induction_on generalizing s with
  | _ len ih =>
    obtain ⟨n, t, rfl, ht⟩ := exists_run s
    simp only [List.length_append, List.length_replicate] at hn
    by_cases hfont : StartsFont t
    · obtain ⟨r, hr, rest, hrest⟩ := id hfont
      obtain ⟨x, d, hori, -, hx, -⟩ := isFont_of_mem_fonts r hr
      obtain rfl : t = 102 :: x :: rest := by simpa [hori] using hrest.symm
      cases n with
      | zero =>
        rw [List.replicate_zero, List.nil_append, agrees_cons (by decide), agrees_cons hx,
          slashesOk_cons (by decide), slashesOk_cons hx]
        exact ih rest.length (by simp only [List.length_cons] at hn; omega) rest rfl
      | succ n =>
        have hsplit : List.replicate (n + 1) 47 ++ 102 :: x :: rest =
            List.replicate n 47 ++ (r.ori ++ rest) := by
          rw [List.replicate_succ', hori]
          simp
        rw [slashesOk_run ht, slashesOk_cons (by decide), slashesOk_cons hx, hsplit,
          agrees_font hr, ih rest.length (by simp only [List.length_cons] at hn; omega) rest rfl,
          RunOk, if_pos hfont]
        refine and_congr_left' ?_
        omega
    · rw [agrees_plain ht hfont, slashesOk_run ht, RunOk, if_neg hfont]
      refine and_congr_right' ?_
      cases t with
      | nil =>
        refine iff_of_true rfl ?_
        intro a k b hab _ _
        have hparts : a = [] ∧ k = 0 ∧ b = [] := by
          simpa using congrArg List.length hab.symm
        simp [RunOk, hparts.2.1]
      | cons c t =>
        have hc : c ≠ 47 := fun h => ht (by rw [h]; rfl)
        rw [agrees_cons hc, slashesOk_cons hc]
        exact ih t.length (by simp only [List.length_cons] at hn; omega) t rfl

/-- What `convert_line` leaves in the line is the result of a single pass over the string if and
only if its runs of slashes are short enough. -/
theorem converts_onePass_iff {line : Bytes} (hzero : (0 : UInt8) ∈ line) :
    Converts line (onePass allMarks (cstr line)) ↔ SlashesOk (cstr line) := by
  rw [converts_iff hzero, ← agrees_iff]
  exact eq_comm

/-- A line with an escaped slash, in the memory. -/
def escapedLine : Bytes := ascii "also output // characters" ++ [0]

/-- The theorem at this line. -/
theorem converts_onePass_iff_escaped_slash :
    onePass allMarks (cstr escapedLine) = ascii "also output / characters" ∧
      Converts escapedLine (onePass allMarks (cstr escapedLine)) := by
  have hagrees : Agrees (cstr escapedLine) := by
    unfold Agrees
    decide
  exact ⟨by decide, (converts_onePass_iff (by decide)).mpr ((agrees_iff _).mp hagrees)⟩

/-- The second slash of an escaped one begins a mark. -/
theorem escaped_slash_begins_mark :
    Converts (ascii "//fB" ++ [0]) (ascii "/" ++ 27 :: ascii "[1m") ∧
      onePass allMarks (ascii "//fB") = ascii "/fB" ∧
      ¬ Converts (ascii "//fB" ++ [0]) (onePass allMarks (ascii "//fB")) := by
  have hzero : (0 : UInt8) ∈ ascii "//fB" ++ [0] := by decide
  simp only [converts_iff hzero]
  decide

/-! ## The length of the line -/

theorem Fonts.length_onePass {rs : List (Replacement UInt8)} (h : Fonts rs) (s : Bytes) :
    (onePass rs s).length = s.length + occurrences rs s := by
  induction s using onePassInduction rs (fun r hr => (h.font r hr).ne_nil) with
  | nil =>
    simpa [occurrences] using fun r hr => (h.font r hr).ne_nil
  | word r s hfind ih =>
    have hr := List.mem_of_find?_eq_some hfind
    obtain ⟨x, d, hori, hsub, hx, -⟩ := h.font r hr
    -- no mark begins inside of this one
    have hinside {c : UInt8} (hc : c ≠ 47) (t : Bytes) :
        occurrences rs (c :: t) = occurrences rs t := by
      rw [occurrences_cons, if_neg, Nat.add_zero]
      simpa using fun r' hr' => (h.font r' hr').not_prefix_cons hc t
    have hfront : rs.any (·.ori <+: 47 :: 102 :: x :: s) = true := by
      rw [List.any_eq_true]
      exact ⟨r, hr, by simp [hori]⟩
    rw [h.onePass_mark hr, hori, hsub]
    simp only [List.cons_append, List.nil_append, List.length_cons]
    rw [occurrences_cons, if_pos hfront, hinside (by decide), hinside hx, ih]
    omega
  | copy c s hnone ih =>
    have hnot : rs.any (·.ori <+: c :: s) = false := by simpa using hnone
    rw [onePass_cons hnone, occurrences_cons, hnot, List.length_cons, List.length_cons, ih]
    simp
    omega

/-- `MAX_LINE_LENGTH` (`wgroff.c:8`). -/
def maxLineLength : Nat := 1024

/-- At every step of `convert_line` the string in the line fits into `line`. -/
def Fits (line : Bytes) : Prop :=
  ∀ s, Converting.Reaches ⟨marks, line⟩ s → ∀ l ∈ s.held, (cstr l).length + 1 ≤ maxLineLength

/-- The font marks whose loops have not ended. -/
def Converting.fontsLeft (s : Converting) : List (Replacement UInt8) :=
  s.left.dropLast.map Mark.toReplacement

/-- What holds while `convert_line` runs: replacing the font marks that are left would not make the
string longer than `peak`. -/
structure Below (peak : Nat) (s : Converting) : Prop where
  zero_mem : (0 : UInt8) ∈ s.line
  left : s.left <:+ marks
  length : (onePass s.fontsLeft (cstr s.line)).length ≤ peak

theorem fonts_of_suffix {s : Converting} (h : s.left <:+ marks) : Fonts s.fontsLeft := by
  have hsub : s.fontsLeft ⊆ fonts := by
    obtain ⟨front, hfront⟩ := h
    unfold Converting.fontsLeft
    cases hleft : s.left with
    | nil => simp
    | cons m left =>
      have hdrop := congrArg (List.map Mark.toReplacement) (congrArg List.dropLast hfront)
      rw [hleft, List.dropLast_append_cons, List.map_append] at hdrop
      intro r hr
      have hmem : r ∈ marks.dropLast.map Mark.toReplacement := by
        rw [← hdrop]
        exact List.mem_append_right _ hr
      exact hmem
  exact ⟨fun r hr => fonts_fonts.font r (hsub hr),
    fun r hr r' hr' => fonts_fonts.distinct r (hsub hr) r' (hsub hr')⟩

/-- The last loop is the one for the slashes. -/
theorem eq_slashes_of_suffix {m : Mark} (h : [m] <:+ marks) : m = slashes := by
  obtain ⟨front, hfront⟩ := h
  have hlast := congrArg List.getLast? hfront
  simpa [marks] using hlast

theorem Below.next {peak : Nat} {s t : Converting} (h : Below peak s) (hnext : s.next = some t) :
    Below peak t := by
  obtain ⟨m, left, hleft, hcase⟩ := Converting.next_cases hnext
  have hfonts := fonts_of_suffix h.left
  have hlength := h.length
  have hsuffix := h.left
  rw [hleft] at hsuffix
  rcases hcase with ⟨hstop, rfl⟩ | ⟨pos, hpos, rfl⟩
  · refine ⟨h.zero_mem, (List.suffix_cons m left).trans hsuffix, ?_⟩
    cases left with
    | nil => simpa [Converting.fontsLeft, hleft] using hlength
    | cons m' left =>
      simp only [Converting.fontsLeft, hleft, List.dropLast_cons_cons, List.map_cons]
        at hlength hfonts
      rw [onePass_cons_of_absent
        (fun r hr => (hfonts.font r (List.mem_cons_of_mem _ hr)).ne_nil) hstop] at hlength
      exact hlength
  · obtain ⟨hfirst, hzero, -⟩ := m.round_spec h.zero_mem hpos
    obtain ⟨a, b, hbefore, hafter, -⟩ := Replacement.first_eq_some hfirst
    refine ⟨hzero, hsuffix, ?_⟩
    rw [hbefore] at hlength
    simp only [hafter]
    cases left with
    | nil =>
      obtain rfl := eq_slashes_of_suffix hsuffix
      have hori : slashes.ori.length = 2 := by decide
      have hsub : slashes.sub.length = 1 := by decide
      have hnone (s : Bytes) : onePass ([] : List (Replacement UInt8)) s = s :=
        onePass_of_absent fun r hr => absurd hr List.not_mem_nil
      simp only [Converting.fontsLeft, hleft, List.dropLast_singleton, List.map_nil,
        hnone, List.length_append] at hlength ⊢
      omega
    | cons m' left =>
      simp only [Converting.fontsLeft, hleft, List.dropLast_cons_cons, List.map_cons]
        at hlength hfonts ⊢
      rw [hfonts.onePass_replace (by simp)]
      exact hlength

/-- The line is longest when the font marks have been replaced. -/
theorem fits_iff_length {line : Bytes} (hzero : (0 : UInt8) ∈ line) :
    Fits line ↔ (onePass fonts (cstr line)).length + 1 ≤ maxLineLength := by
  constructor
  · intro h
    obtain ⟨line', hreach, -, hline'⟩ := reaches_slashes hzero
    rw [← hline']
    exact h _ hreach line' List.mem_cons_self
  · intro h s hreach l hl
    have hstart : Below (onePass fonts (cstr line)).length ⟨marks, line⟩ :=
      ⟨hzero, List.suffix_rfl, le_of_eq rfl⟩
    have hbelow {t : Converting} (ht : Converting.Reaches ⟨marks, line⟩ t) :
        Below (onePass fonts (cstr line)).length t := by
      induction ht with
      | refl => exact hstart
      | tail _ hstep ih => exact ih.next hstep
    have hline {t : Converting} (ht : Converting.Reaches ⟨marks, line⟩ t) :
        (cstr t.line).length + 1 ≤ maxLineLength := by
      have hlength := (hbelow ht).length
      rw [(fonts_of_suffix (hbelow ht).left).length_onePass] at hlength
      omega
    rcases List.mem_cons.mp hl with rfl | hl
    · exact hline hreach
    · -- between the two steps of a round
      cases hleft : s.left with
      | nil => simp [hleft] at hl
      | cons m left =>
        simp only [hleft, Option.mem_toList, Option.map_eq_some_iff] at hl
        obtain ⟨pos, hpos, rfl⟩ := hl
        have hnext : s.next = some ⟨m :: left, m.round s.line pos⟩ := by
          simp only [Converting.next, hleft, hpos]
        have hround : (cstr (m.round s.line pos)).length + 1 ≤ maxLineLength :=
          hline (hreach.tail hnext)
        have hroom := (m.round_spec (hbelow hreach).zero_mem hpos).2.2
        omega

/-- The string fits into `line` at every step of `convert_line` if and only if it does with one byte
more for each font mark. -/
theorem fits_iff {line : Bytes} (hzero : (0 : UInt8) ∈ line) :
    Fits line ↔ (cstr line).length + occurrences fonts (cstr line) + 1 ≤ maxLineLength := by
  rw [fits_iff_length hzero, fonts_fonts.length_onePass]

/-- The theorem at a short line with two marks. -/
theorem fits_iff_bold_word : Fits (ascii "a /fBbold/fP word" ++ [0]) :=
  (fits_iff (by decide)).mpr (by decide)

/-- As long a line as `fgets` stores, with a mark at its end. -/
def fullLine : Bytes := List.replicate 1020 97 ++ (ascii "/fB" ++ [0])

/-- Replacing the mark makes it too long. -/
theorem full_line_does_not_fit :
    fullLine.length = maxLineLength ∧ cstr fullLine = List.replicate 1020 97 ++ ascii "/fB" ∧
      ¬ Fits fullLine := by
  have hnone {c : UInt8} (hc : c ≠ 97) : c ∉ List.replicate 1020 97 :=
    fun h => hc (List.eq_of_mem_replicate h)
  have hstring : cstr fullLine = List.replicate 1020 97 ++ ascii "/fB" := by
    rw [fullLine, cstr_append_of_zero_notMem (hnone (by decide)), cstr_append_zero (by decide)]
  refine ⟨?_, hstring, ?_⟩
  · rw [fullLine, List.length_append, List.length_replicate]
    rfl
  · have hzero : (0 : UInt8) ∈ fullLine := List.mem_append_right _ (by decide)
    rw [fits_iff_length hzero, hstring, fonts_fonts.onePass_append_free (hnone (by decide)),
      List.length_append, List.length_replicate]
    decide

end Cs537.P1
