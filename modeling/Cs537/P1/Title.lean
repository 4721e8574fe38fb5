import Cs537.P1.Wgroff

/-!
# The title line

The first line of the input is to be `.TH`, a command, a section and a date with one blank between
them. The checks of `main` take the line apart with `strtok`, `atoi` and a pattern for the date, so
they let more lines through (`LooseTitle`): other gaps, a section that only begins with a number,
and anything behind the date. A first line that begins with `#` is not checked at all.
-/

namespace Cs537.P1

open Cs537.Lib

/-! ## The grammar -/

/-- The first line of a file, without its end. -/
def firstLine (input : Bytes) : Bytes := input.takeWhile (· ≠ 10)

/-- `.TH <command> <section> <date>` and nothing else. -/
inductive IsTitle : Bytes → Prop
  | intro {command date : Bytes} {d : UInt8} : command ≠ [] → (32 : UInt8) ∉ command →
      49 ≤ d → d ≤ 57 → isDate date = true →
      IsTitle (ascii ".TH " ++ (command ++ 32 :: d :: 32 :: date))

/-- What the checks let through: any number of blanks between the parts, newlines too in front of
the date, any section that `atoi` reads as one of 1 to 9, and anything behind the date. -/
inductive LooseTitle : Bytes → Prop
  | intro {gap₁ command gap₂ sec gap₃ date behind : Bytes} :
      (∀ b ∈ gap₁, (b == 32) = true) → command ≠ [] → (∀ b ∈ command, (b == 32) = false) →
      (∀ b ∈ gap₂, (b == 32) = true) → sec ≠ [] → (∀ b ∈ sec, (b == 32) = false) →
      (∀ b ∈ gap₃, (b == 32 || b == 10) = true) → 1 ≤ atoi sec → atoi sec ≤ 9 →
      isDate date = true → (∀ b ∈ behind.head?, (b == 32 || b == 10) = true) →
      LooseTitle (ascii ".TH " ++ (gap₁ ++ (command ++
        32 :: (gap₂ ++ (sec ++ 32 :: (gap₃ ++ (date ++ behind)))))))

/-- The string that `line` holds when the first line has been read. -/
def titleString (input : Bytes) : Bytes :=
  cstr ((firstLine input ++ (input.dropWhile (· ≠ 10)).take 1).take 1023)

/-- `wgroff` goes on with the first line exactly if it is a title; otherwise it prints the message
and opens no output file. -/
def ChecksTitle (input : Bytes) : Prop :=
  ∃ h, readTitle input = some h ∧
    (IsTitle (firstLine input) → ∃ command sec date, h = .title command sec date) ∧
    (¬ IsTitle (firstLine input) →
      h.printed = ascii "Improper formatting on line 1\n" ∧ h.outputFile = none)

/-- The line is no comment; if it is a title it fits into `line` and has no NUL; and if it is none
it is not let through. -/
structure TitleOk (input : Bytes) : Prop where
  no_comment : (firstLine input).head? ≠ some 35
  whole : IsTitle (firstLine input) →
    (firstLine input).length ≤ 1023 ∧ (0 : UInt8) ∉ firstLine input
  strict : LooseTitle (titleString input) → IsTitle (firstLine input)

/-! ## Dates and strings -/

theorem length_of_isDate {s : Bytes} (h : isDate s = true) : s.length = 10 := by
  unfold isDate at h
  split at h
  · rfl
  · cases h

theorem mem_of_isDate {s : Bytes} (h : isDate s = true) : ∀ b ∈ s, isdigit b = true ∨ b = 45 := by
  unfold isDate at h
  split at h
  · simp only [List.all_cons, List.all_nil, Bool.and_eq_true, beq_iff_eq] at h
    simp [h]
  · cases h

/-- A date has no byte at which `strtok` would cut it. -/
theorem date_free {s : Bytes} (h : isDate s = true) : ∀ b ∈ s, (b == 32 || b == 10) = false := by
  intro b hb
  rcases mem_of_isDate h b hb with hdigit | rfl
  · simp only [isdigit, Bool.and_eq_true, decide_eq_true_eq, UInt8.le_iff_toNat_le] at hdigit
    have h32 : b ≠ 32 := by
      rintro rfl
      exact absurd hdigit.1 (by decide)
    have h10 : b ≠ 10 := by
      rintro rfl
      exact absurd hdigit.1 (by decide)
    simp [h32, h10]
  · rfl

theorem date_ne_nil {s : Bytes} (h : isDate s = true) : s ≠ [] := by
  rintro rfl
  cases h

theorem blank_free {w : Bytes} (h : (32 : UInt8) ∉ w) : ∀ b ∈ w, (b == 32) = false := by
  intro b hb
  exact beq_eq_false_iff_ne.mpr (ne_of_mem_of_not_mem hb h)

theorem section_free {d : UInt8} (hlow : 49 ≤ d) : ∀ b ∈ [d], (b == 32) = false := by
  apply blank_free
  rw [List.mem_singleton]
  rintro rfl
  exact absurd hlow (by decide)

/-- A string that begins with `front` is `front` and the string behind it. -/
theorem cstr_of_take {line front : Bytes} (h : (cstr line).take front.length = front) :
    cstr line = front ++ cstr (line.drop front.length) := by
  have hfree : (0 : UInt8) ∉ front := by
    intro hzero
    rw [← h] at hzero
    exact zero_notMem_cstr line (List.mem_of_mem_take hzero)
  have hbegins : front <+: line := by
    rw [← h]
    exact (List.take_prefix _ _).trans (List.takeWhile_prefix _)
  obtain ⟨rest, rfl⟩ := hbegins
  rw [cstr_append_of_zero_notMem hfree, List.drop_left]

/-! ## The checks -/

/-- A line that is not let through is reported; one that is has the looser form. -/
theorem checkTitle_cases {line : Bytes} (hhead : line.headD 0 ≠ 35) :
    checkTitle line = .improper 1 ∨
      (∃ command sec date, checkTitle line = .title command sec date) ∧ LooseTitle (cstr line) := by
  unfold checkTitle
  rw [if_neg hhead]
  by_cases hth : strncmp line (ascii ".TH ") 4 ≠ 0
  · rw [if_pos hth]
    exact .inl rfl
  rw [if_neg hth]
  rw [ne_eq, not_not, strncmp_eq_zero_iff] at hth
  have hstring : cstr line = ascii ".TH " ++ cstr (line.drop 4) := cstr_of_take hth
  simp only
  rcases strtokNext_cases (· == 32) (cstr (line.drop 4)) with
    ⟨-, hcommand⟩ | ⟨gap₁, command, behind₁, hrest, hgap₁, hne₁, hfree₁, hbehind₁, hcommand⟩
  · rw [hcommand]
    exact .inl rfl
  rw [hcommand]
  rcases strtokNext_cases (· == 32) behind₁.tail with
    ⟨-, hsec⟩ | ⟨gap₂, sec, behind₂, htail₁, hgap₂, hne₂, hfree₂, hbehind₂, hsec⟩
  · rw [hsec]
    exact .inl rfl
  rw [hsec]
  rcases strtokNext_cases (fun b => b == 32 || b == 10) behind₂.tail with
    ⟨-, hdate⟩ | ⟨gap₃, date, behind₃, htail₂, hgap₃, hne₃, hfree₃, hbehind₃, hdate⟩
  · rw [hdate]
    exact .inl rfl
  rw [hdate]
  simp only
  by_cases hnumber : atoi sec < 1 ∨ 9 < atoi sec
  · rw [if_pos hnumber]
    exact .inl rfl
  rw [if_neg hnumber]
  cases hpattern : isDate date with
  | false => exact .inl rfl
  | true =>
    refine .inr ⟨⟨command, sec, date, rfl⟩, ?_⟩
    obtain ⟨c₁, t₁, rfl⟩ : ∃ c t, behind₁ = c :: t := List.exists_cons_of_ne_nil (by
      rintro rfl
      exact hne₂ (List.append_eq_nil_iff.mp (List.append_eq_nil_iff.mp htail₁.symm).2).1)
    obtain ⟨c₂, t₂, rfl⟩ : ∃ c t, behind₂ = c :: t := List.exists_cons_of_ne_nil (by
      rintro rfl
      exact hne₃ (List.append_eq_nil_iff.mp (List.append_eq_nil_iff.mp htail₂.symm).2).1)
    rw [beq_iff_eq.mp (hbehind₁ c₁ rfl)] at hrest
    rw [beq_iff_eq.mp (hbehind₂ c₂ rfl)] at htail₁
    rw [List.tail_cons] at htail₁ htail₂
    rw [hstring, hrest, htail₁, htail₂]
    rw [not_or, not_lt, not_lt] at hnumber
    exact .intro hgap₁ hne₁ hfree₁ hgap₂ hne₂ hfree₂ hgap₃ hnumber.1 hnumber.2 hpattern hbehind₃

/-- A line of the looser form is let through. -/
theorem checkTitle_of_loose {line : Bytes} (h : LooseTitle (cstr line)) :
    ∃ command sec date, checkTitle line = .title command sec date := by
  generalize hstring : cstr line = string at h
  obtain ⟨hgap₁, hne₁, hfree₁, hgap₂, hne₂, hfree₂, hgap₃, hlow, hhigh, hpattern, hbehind⟩ := h
  rename_i gap₁ command gap₂ sec gap₃ date behind
  have htake : (cstr line).take (ascii ".TH ").length = ascii ".TH " := by
    rw [hstring, List.take_left]
  have hhead : line.headD 0 ≠ 35 := by
    have hcons := cstr_eq line
    intro heq
    rw [heq, if_neg (by decide)] at hcons
    rw [hcons] at hstring
    exact absurd (List.cons.inj hstring).1 (by decide)
  have hth : strncmp line (ascii ".TH ") 4 = 0 := (strncmp_eq_zero_iff _ _ 4).mpr htake
  have hrest : cstr (line.drop 4) =
      gap₁ ++ (command ++ 32 :: (gap₂ ++ (sec ++ 32 :: (gap₃ ++ (date ++ behind))))) := by
    have hfront := cstr_of_take htake
    rw [hstring] at hfront
    exact (List.append_cancel_left hfront).symm
  refine ⟨command, sec, date, ?_⟩
  rw [checkTitle, if_neg hhead, if_neg (not_not.mpr hth), hrest]
  simp only
  rw [strtokNext_append hgap₁ hne₁ hfree₁ (by simp)]
  simp only [List.tail_cons]
  rw [strtokNext_append hgap₂ hne₂ hfree₂ (by simp)]
  simp only [List.tail_cons]
  rw [strtokNext_append hgap₃ (date_ne_nil hpattern) (date_free hpattern) hbehind]
  simp only
  rw [if_neg (not_or.mpr ⟨not_lt.mpr hlow, not_lt.mpr hhigh⟩), hpattern]
  rfl

/-! ## Titles -/

/-- A title with or without the end of its line has the looser form. -/
theorem IsTitle.loose {text : Bytes} (h : IsTitle text) {behind : Bytes}
    (hbehind : ∀ b ∈ behind.head?, (b == 32 || b == 10) = true) : LooseTitle (text ++ behind) := by
  obtain ⟨hne, hfree, hlow, hhigh, hdate⟩ := h
  rename_i command date d
  have hd := section_free hlow
  rw [UInt8.le_iff_toNat_le] at hlow hhigh
  have hdigit : isdigit d = true := by
    simp only [isdigit, Bool.and_eq_true, decide_eq_true_eq, UInt8.le_iff_toNat_le]
    exact ⟨(show 48 ≤ 49 by decide).trans hlow, hhigh⟩
  have hnumber : atoi [d] = (d.toNat - 48 : Nat) := by
    have hdecimal : decimal [d] = d.toNat - 48 := by simp [decimal]
    have hread : atoi ([] ++ ([d] ++ [])) = decimal [d] := atoi_eq_decimal (by simp)
      (by simpa using hdigit) (by simp) (by simp) (by
        have := d.toNat_lt
        omega)
    rw [hdecimal] at hread
    exact hread
  have hloose : LooseTitle (ascii ".TH " ++ ([] ++ (command ++
      32 :: ([] ++ ([d] ++ 32 :: ([] ++ (date ++ behind))))))) :=
    .intro (by simp) hne (blank_free hfree) (by simp) (by simp) hd (by simp)
    (by rw [hnumber]; simp at hlow; omega) (by rw [hnumber]; simp at hhigh; omega) hdate hbehind
  simpa using hloose

/-- Two ways to see a first word in a text. -/
theorem first_word {gap w rest w' rest' : Bytes} (hgap : ∀ b ∈ gap, (b == 32) = true)
    (hne : w ≠ []) (hfree : ∀ b ∈ w, (b == 32) = false) (hne' : w' ≠ [])
    (hfree' : ∀ b ∈ w', (b == 32) = false)
    (heq : gap ++ (w ++ 32 :: rest) = w' ++ 32 :: rest') : gap = [] ∧ w = w' ∧ rest = rest' := by
  have h : strtokNext (· == 32) (gap ++ (w ++ 32 :: rest)) = (some w, rest) :=
    strtokNext_append hgap hne hfree (by simp)
  have h' : strtokNext (· == 32) ([] ++ (w' ++ 32 :: rest')) = (some w', rest') :=
    strtokNext_append (by simp) hne' hfree' (by simp)
  rw [List.nil_append, ← heq, h] at h'
  simp only [Prod.mk.injEq, Option.some.injEq] at h'
  obtain ⟨rfl, rfl⟩ := h'
  exact ⟨List.append_left_eq_self.mp heq, rfl, rfl⟩

/-- If the beginning of a title and its end of line is let through, it holds the whole title. -/
theorem IsTitle.prefix_of_loose {text behind p : Bytes} (h : IsTitle text)
    (hp : LooseTitle p) (hbegins : p <+: text ++ behind) : text <+: p := by
  obtain ⟨hne, hfree, hlow, hhigh, hdate⟩ := h
  rename_i command date d
  obtain ⟨hgap₁, hne₁, hfree₁, hgap₂, hne₂, hfree₂, hgap₃, -, -, hpattern, -⟩ := hp
  rename_i gap₁ command' gap₂ sec gap₃ date' behind'
  obtain ⟨z, hz⟩ := hbegins
  simp only [List.append_assoc, List.cons_append, List.append_cancel_left_eq] at hz
  obtain ⟨rfl, rfl, hsecond⟩ := first_word hgap₁ hne₁ hfree₁ hne (blank_free hfree) hz
  obtain ⟨rfl, rfl, hthird⟩ :=
    first_word hgap₂ hne₂ hfree₂ (List.cons_ne_nil d []) (section_free hlow) hsecond
  obtain ⟨y, date₀, rfl⟩ := List.exists_cons_of_ne_nil (date_ne_nil hdate)
  have hgap : gap₃ = [] := by
    cases gap₃ with
    | nil => rfl
    | cons c gap₃ =>
      have hc : c = y := (List.cons.inj hthird).1
      have hblank := hgap₃ c List.mem_cons_self
      rw [hc, date_free hdate y List.mem_cons_self] at hblank
      cases hblank
  subst hgap
  rw [List.nil_append] at hthird
  have hsame := (List.append_inj hthird (by
    rw [length_of_isDate hpattern, length_of_isDate hdate])).1
  rw [hsame]
  exact ⟨behind', by simp⟩

/-! ## The first line -/

/-- What `fgets` leaves in `line`, in front of the NUL. -/
theorem readTitle_eq {input : Bytes} (hne : input ≠ []) : ∃ line, readTitle input =
    some (checkTitle line) ∧ cstr line = titleString input ∧ line.headD 0 = input.headD 0 := by
  obtain ⟨b, input, rfl⟩ := List.exists_cons_of_ne_nil hne
  refine ⟨_, by rw [readTitle, fgets, if_neg hne]; rfl, cstr_append_terminator _, ?_⟩
  by_cases hb : b = 10 <;> simp [firstLine, hb]

/-- The first line, whatever is left of the end of it. -/
theorem titleString_of_fits {input : Bytes} (hlength : (firstLine input).length ≤ 1023)
    (hzero : (0 : UInt8) ∉ firstLine input) : ∃ behind,
      titleString input = firstLine input ++ behind ∧
        ∀ b ∈ behind.head?, (b == 32 || b == 10) = true := by
  have hend : ∀ b ∈ ((input.dropWhile (· ≠ 10)).take 1).take (1023 - (firstLine input).length),
      b = 10 := by
    intro b hb
    replace hb := List.mem_of_mem_take hb
    have hc := List.head?_dropWhile_not (fun b : UInt8 => decide (b ≠ 10)) input
    generalize input.dropWhile (· ≠ 10) = rest at hb hc
    cases rest with
    | nil => cases hb
    | cons c rest =>
      rw [List.take_succ_cons, List.take_zero, List.mem_singleton] at hb
      simpa [hb] using hc
  refine ⟨((input.dropWhile (· ≠ 10)).take 1).take (1023 - (firstLine input).length), ?_, ?_⟩
  · rw [titleString, List.take_append, List.take_of_length_le hlength,
      cstr_append_of_zero_notMem hzero, cstr_of_zero_notMem]
    intro h
    exact absurd (hend 0 h) (by decide)
  · intro b hb
    rw [hend b (List.mem_of_mem_head? hb)]
    rfl

theorem titleString_prefix (input : Bytes) : ∃ behind,
    titleString input <+: firstLine input ++ behind :=
  ⟨_, (List.takeWhile_prefix _).trans (List.take_prefix _ _)⟩

/-- A title that is let through is in `line` as a whole. -/
theorem whole_of_loose {input : Bytes} (htitle : IsTitle (firstLine input))
    (hloose : LooseTitle (titleString input)) :
    (firstLine input).length ≤ 1023 ∧ (0 : UInt8) ∉ firstLine input := by
  obtain ⟨behind, hbegins⟩ := titleString_prefix input
  have hwhole := htitle.prefix_of_loose hloose hbegins
  constructor
  · refine hwhole.length_le.trans ?_
    refine (List.takeWhile_prefix _).length_le.trans ?_
    exact List.length_take_le _ _
  · intro hzero
    exact zero_notMem_cstr _ (hwhole.subset hzero)

theorem improper_printed : Header.printed (.improper 1) =
    ascii "Improper formatting on line 1\n" := by decide

/-- `wgroff` checks the title as it is to exactly if the first line is no comment, is read as a
whole if it is a title, and has not the looser form if it is none. -/
theorem checksTitle_iff {input : Bytes} (hne : input ≠ []) : ChecksTitle input ↔ TitleOk input := by
  obtain ⟨line, hread, hstring, hhead⟩ := readTitle_eq hne
  have hcomment : (firstLine input).head? = some 35 ↔ line.headD 0 = 35 := by
    obtain ⟨b, input, rfl⟩ := List.exists_cons_of_ne_nil hne
    rw [hhead, firstLine]
    by_cases hb : b = 10 <;> simp [hb]
  by_cases hline : line.headD 0 = 35
  · -- a comment is neither a title nor reported
    have hignored : checkTitle line = .ignored := by rw [checkTitle, if_pos hline]
    constructor
    · rintro ⟨h, hread', htitle, hother⟩
      obtain rfl : h = .ignored := by
        rw [hread, hignored] at hread'
        exact (Option.some.inj hread').symm
      by_cases his : IsTitle (firstLine input)
      · obtain ⟨command, sec, date, heq⟩ := htitle his
        cases heq
      · exact absurd (hother his).1 (by decide)
    · intro h
      exact absurd (hcomment.mpr hline) h.no_comment
  have hno : (firstLine input).head? ≠ some 35 := fun h => hline (hcomment.mp h)
  constructor
  · rintro ⟨h, hread', htitle, hother⟩
    obtain rfl : h = checkTitle line := by
      rw [hread] at hread'
      exact (Option.some.inj hread').symm
    refine ⟨hno, ?_, ?_⟩
    · intro his
      obtain ⟨command, sec, date, heq⟩ := htitle his
      rcases checkTitle_cases hline with himproper | ⟨-, hloose⟩
      · rw [himproper] at heq
        cases heq
      · rw [hstring] at hloose
        exact whole_of_loose his hloose
    · intro hloose
      by_contra his
      rw [← hstring] at hloose
      obtain ⟨command, sec, date, heq⟩ := checkTitle_of_loose hloose
      rw [heq] at hother
      have hnone : [] = ascii "Improper formatting on line 1\n" := (hother his).1
      exact absurd hnone (by decide)
  · intro h
    refine ⟨checkTitle line, hread, ?_, ?_⟩
    · intro his
      obtain ⟨hlength, hzero⟩ := h.whole his
      obtain ⟨behind, hwhole, hbehind⟩ := titleString_of_fits hlength hzero
      apply checkTitle_of_loose
      rw [hstring, hwhole]
      exact his.loose hbehind
    · intro his
      rcases checkTitle_cases hline with himproper | ⟨-, hloose⟩
      · rw [himproper]
        exact ⟨improper_printed, rfl⟩
      · rw [hstring] at hloose
        exact absurd (h.strict hloose) his

/-- A first line that is not to be reported, and is not. -/
theorem checksTitle_iff_wman : ChecksTitle (ascii ".TH wman 1 2023-10-10\n.SH NAME\n") := by
  have htitle : IsTitle (firstLine (ascii ".TH wman 1 2023-10-10\n.SH NAME\n")) := by
    have hsplit : firstLine (ascii ".TH wman 1 2023-10-10\n.SH NAME\n") =
        ascii ".TH " ++ (ascii "wman" ++ 32 :: 49 :: 32 :: ascii "2023-10-10") := by decide
    rw [hsplit]
    exact .intro (by decide) (by decide) (by decide) (by decide) (by decide)
  apply (checksTitle_iff (by decide)).mpr
  exact ⟨by decide, fun _ => ⟨by decide, by decide⟩, fun _ => htitle⟩

/-- A section that only begins with a number is let through. -/
theorem lettered_section_let_through : ¬ ChecksTitle (ascii ".TH wman 1x 2023-10-10\n") := by
  have hread : readTitle (ascii ".TH wman 1x 2023-10-10\n") =
      some (.title (ascii "wman") (ascii "1x") (ascii "2023-10-10")) := by decide
  have hno : ¬ IsTitle (firstLine (ascii ".TH wman 1x 2023-10-10\n")) := by
    generalize htext : firstLine (ascii ".TH wman 1x 2023-10-10\n") = text
    intro h
    obtain ⟨hne, hfree, -, -, -⟩ := h
    rename_i command date d
    have hsplit : firstLine (ascii ".TH wman 1x 2023-10-10\n") =
        ascii ".TH " ++ ([] ++ (ascii "wman" ++ 32 :: ascii "1x 2023-10-10")) := by decide
    rw [hsplit, List.append_cancel_left_eq] at htext
    have hwman : ∀ b ∈ ascii "wman", (b == 32) = false := blank_free (by decide)
    have hbehind := (first_word (by simp) (by decide) hwman hne (blank_free hfree) htext).2.2
    exact absurd (List.cons.inj (List.cons.inj hbehind).2).1 (by decide)
  rintro ⟨h, hread', -, hother⟩
  obtain rfl : _ = h := Option.some.inj (hread.symm.trans hread')
  exact absurd (hother hno).1 (by decide)

end Cs537.P1
