import Cs537.P1.ManualPage

/-!
# What `wapropos` finds in a page

The loop over the lines of a page searches a section from its heading on, and the line with the date
if it comes behind such a section. It takes the first line of `NAME` apart before it searches it, so
that the one-liner is not searched; a heading other than `DESCRIPTION` in front of `NAME` makes it
take the heading of `NAME` for that line; and what is found before that line is reported without a
one-liner.
-/

namespace Cs537.P1.Wapropos

open Cs537.Lib

/-! ## Headings -/

/-- A heading other than those of the two sections. -/
def IsOther (line : Bytes) : Prop :=
  headerMark <+: line ∧ line ≠ heading (ascii "NAME") ∧ line ≠ heading (ascii "DESCRIPTION")

instance (line : Bytes) : Decidable (IsOther line) := inferInstanceAs (Decidable (_ ∧ _ ∧ _))

theorem nameHeader_eq : nameHeader = heading (ascii "NAME") ++ [10] := by decide

theorem descriptionHeader_eq : descriptionHeader = heading (ascii "DESCRIPTION") ++ [10] := by
  decide

theorem strncmp_headerMark {line : Bytes} (h : (0 : UInt8) ∉ line) :
    strncmp (stored line) headerMark 4 = 0 ↔ headerMark <+: line :=
  strncmp_stored h (by decide) (by decide)

/-- Whether the lines of the section are searched, after a line. -/
def switch (on : Bool) (line : Bytes) : Bool :=
  if line = heading (ascii "NAME") ∨ line = heading (ascii "DESCRIPTION") then true
  else if headerMark <+: line then false
  else on

/-- The lines that are searched. -/
def searched : Bool → List Bytes → List Bytes
  | _, [] => []
  | on, line :: lines =>
    if switch on line then line :: searched true lines else searched false lines

/-- The keyword occurs in one of these lines. -/
def Hits (keyword : Bytes) (lines : List Bytes) : Prop :=
  ∃ line ∈ lines, keyword <:+: line ++ [10]

instance (keyword : Bytes) (lines : List Bytes) : Decidable (Hits keyword lines) :=
  inferInstanceAs (Decidable (∃ line ∈ lines, _))

/-! ## Rounds that take no line apart -/

namespace Scan

variable {s : Scan} {line keyword : Bytes}

/-- The next line is not the one that is taken apart, unless it is the heading of `NAME`. -/
def Settled (s : Scan) : Prop := if s.inName then 1 ≤ s.liner else s.liner ≠ 1

theorem enter_name (s : Scan) :
    s.enter (stored (heading (ascii "NAME"))) = { s with inName := true } := by
  rw [enter, if_pos (by decide)]

/-- What a line other than the heading of `NAME` changes. -/
theorem enter_eq (h : (0 : UInt8) ∉ line) (hname : line ≠ heading (ascii "NAME")) :
    s.enter (stored line) =
      if line = heading (ascii "DESCRIPTION") then { s with inDescription := true }
      else if headerMark <+: line then
        { s with inName := false, liner := 0, inDescription := false }
      else s := by
  rw [enter, cstr_stored h, nameHeader_eq, descriptionHeader_eq, if_neg (by simpa using hname)]
  simp only [List.append_cancel_right_eq, strncmp_headerMark h]

theorem Settled.count (hs : s.Settled) : s.count.Settled ∧ s.count.liner ≠ 1 := by
  unfold Settled at hs ⊢
  unfold Scan.count
  cases hname : s.inName with
  | true =>
    rw [hname, if_pos rfl] at hs
    simp only [if_true]
    omega
  | false =>
    rw [hname, if_neg (by simp)] at hs
    simpa [hname] using hs

@[simp] theorem count_manual (s : Scan) : s.count.manual = s.manual := by
  unfold count
  split <;> rfl

@[simp] theorem count_inName (s : Scan) : s.count.inName = s.inName := by
  unfold count
  split <;> rfl

@[simp] theorem count_inDescription (s : Scan) : s.count.inDescription = s.inDescription := by
  unfold count
  split <;> rfl

/-- A round with such a line. -/
theorem read_settled (hs : s.Settled) (h : (0 : UInt8) ∉ line)
    (hname : line ≠ heading (ascii "NAME")) : ∃ t, s.read (stored line) = (t, stored line) ∧
      t.Settled ∧ t.manual = s.manual ∧ t.searches = switch s.searches line ∧
      (s.inName = false → t.inName = false ∧ t.liner = if IsOther line then 0 else s.liner) := by
  obtain ⟨u, hu⟩ : ∃ u, u = s.enter (stored line) := ⟨_, rfl⟩
  have henter : u.Settled ∧ u.manual = s.manual ∧ u.searches = switch s.searches line ∧
      (s.inName = false → u.inName = false ∧ u.liner = if IsOther line then 0 else s.liner) := by
    rw [enter_eq h hname] at hu
    unfold switch IsOther
    by_cases hdescription : line = heading (ascii "DESCRIPTION")
    · rw [if_pos hdescription] at hu
      rw [hu]
      exact ⟨hs, rfl, by simp [searches, hdescription], fun hin => ⟨hin, by simp [hdescription]⟩⟩
    · rw [if_neg hdescription] at hu
      by_cases hmark : headerMark <+: line
      · rw [if_pos hmark] at hu
        rw [hu]
        exact ⟨by simp [Settled], rfl, by simp [searches, hname, hdescription, hmark],
          fun _ => ⟨rfl, by simp [hname, hdescription, hmark]⟩⟩
      · rw [if_neg hmark] at hu
        rw [hu]
        exact ⟨hs, rfl, by simp [searches, hname, hdescription, hmark],
          fun hin => ⟨hin, by simp [hmark]⟩⟩
  obtain ⟨hsettled, hmanual, hsearches, hoff⟩ := henter
  obtain ⟨hsettled', hliner⟩ := hsettled.count
  refine ⟨u.count, ?_, hsettled', ?_, ?_, ?_⟩
  · rw [read, ← hu, tokens, if_neg hliner]
  · rw [count_manual, hmanual]
  · simpa [searches] using hsearches
  · intro hin
    obtain ⟨hin', hliner'⟩ := hoff hin
    refine ⟨by rw [count_inName, hin'], ?_⟩
    rw [count, hin', if_neg (by simp), hliner']

/-- The round with the heading of `NAME`: it is taken apart itself if `liner` was 0. -/
theorem read_name (hliner : s.liner = -1 ∨ s.liner = 0) : ∃ m : Manual,
    s.read (stored (heading (ascii "NAME"))) =
      ({ s with manual := m, inName := true, liner := s.liner + 1 },
        stored (heading (ascii "NAME"))) ∧ m.nameOneLiner = s.manual.nameOneLiner := by
  rw [read, enter_name, count, if_pos rfl, tokens]
  rcases hliner with h | h
  · exact ⟨s.manual, by rw [if_neg (by simp [h])], rfl⟩
  · -- The heading has no dash, so there is one token.
    have hleft : strtokLeft (· == 45) (cstr (stored (heading (ascii "NAME")))) ++ [0] =
        stored (heading (ascii "NAME")) := by decide
    have hnone : (strtokNext (· == (45 : UInt8))
        (strtokNext (· == 45) (cstr (stored (heading (ascii "NAME"))))).2).1 = none := by decide
    refine ⟨_, by rw [if_pos (by simp [h]), hleft], ?_⟩
    simp only [hnone, Manual.strcpy]

end Scan

theorem strstrFinds_stored {line keyword : Bytes} (h : (0 : UInt8) ∉ line)
    (hkeyword : (0 : UInt8) ∉ keyword) :
    strstrFinds (stored line) keyword = true ↔ keyword <:+: line ++ [10] := by
  rw [strstrFinds, cstr_stored h, cstr_of_zero_notMem hkeyword, decide_eq_true_eq]

/-- A run over lines among which is no heading of `NAME`: it reports the page as it is known before,
if the keyword occurs in one that is searched. -/
theorem scanLines_settled {keyword : Bytes} (hkeyword : (0 : UInt8) ∉ keyword) {lines : List Bytes}
    (hzero : ∀ line ∈ lines, (0 : UInt8) ∉ line)
    (hname : ∀ line ∈ lines, line ≠ heading (ascii "NAME")) {s : Scan} (hs : s.Settled) :
    ∃ t : Scan, t.Settled ∧ t.manual = s.manual ∧ t.searches = lines.foldl switch s.searches ∧
      (s.inName = false → t.inName = false ∧
        t.liner = if ∃ line ∈ lines, IsOther line then 0 else s.liner) ∧
      ∀ rest, scanLines keyword (lines.map stored ++ rest) s =
        if Hits keyword (searched s.searches lines) then [s.manual]
        else scanLines keyword rest t := by
  induction lines generalizing s with
  | nil =>
    refine ⟨s, hs, rfl, rfl, fun hin => ⟨hin, by simp⟩, fun rest => ?_⟩
    rw [if_neg (by simp [Hits, searched])]
    rfl
  | cons line lines ih =>
    obtain ⟨t, hread, ht, hmanual, hsearches, hoff⟩ := Scan.read_settled hs
      (hzero line List.mem_cons_self) (hname line List.mem_cons_self)
    obtain ⟨u, hu, humanual, husearches, huoff, hrun⟩ := ih
      (fun l hl => hzero l (List.mem_cons_of_mem line hl))
      (fun l hl => hname l (List.mem_cons_of_mem line hl)) ht
    refine ⟨u, hu, humanual.trans hmanual, ?_, ?_, ?_⟩
    · rw [husearches, hsearches, List.foldl_cons]
    · intro hin
      obtain ⟨hin', hliner⟩ := hoff hin
      obtain ⟨hin'', hliner'⟩ := huoff hin'
      refine ⟨hin'', ?_⟩
      rw [hliner', hliner]
      by_cases hother : IsOther line <;> simp [hother]
    · intro rest
      rw [List.map_cons, List.cons_append, scanLines, hread]
      simp only
      rw [hrun rest, hsearches, searched]
      by_cases hon : switch s.searches line = true
      · rw [hon, if_pos rfl, hmanual]
        by_cases hhit : keyword <:+: line ++ [10]
        · have hfinds := (strstrFinds_stored (hzero line List.mem_cons_self) hkeyword).mpr hhit
          rw [hfinds, if_pos (by rfl), if_pos ⟨line, List.mem_cons_self, hhit⟩]
        · have hfinds : strstrFinds (stored line) keyword = false := by
            rw [← Bool.not_eq_true, strstrFinds_stored (hzero line List.mem_cons_self) hkeyword]
            exact hhit
          rw [hfinds, if_neg (by simp)]
          refine if_congr ?_ rfl rfl
          simp [Hits, hhit]
      · rw [Bool.not_eq_true] at hon
        rw [hon, hmanual]
        simp

/-- A page is reported once at most. -/
theorem length_reports_le (stack : Manual) (keyword dName file : Bytes) :
    (reports stack keyword dName file).length ≤ 1 := by
  have hscan (lines : List Bytes) (s : Scan) : (scanLines keyword lines s).length ≤ 1 := by
    induction lines generalizing s with
    | nil => simp [scanLines]
    | cons line lines ih =>
      rw [scanLines]
      split
      · exact Nat.le_refl 1
      · exact ih _
  exact hscan _ _

/-! ## What is searched of a page -/

theorem heading_inj {a b : Bytes} : heading a = heading b ↔ a = b := by
  simp [heading]

theorem headerMark_prefix_heading (name : Bytes) : headerMark <+: heading name :=
  ⟨name ++ 27 :: ascii "[0m", by simp [headerMark, heading]⟩

theorem not_headerMark_prefix {c : UInt8} (hc : c ≠ 27) (line : Bytes) :
    ¬ headerMark <+: c :: line := by
  rw [headerMark, List.cons_prefix_cons]
  exact fun h => hc h.1.symm

theorem ne_heading {line : Bytes} (h : ¬ headerMark <+: line) (name : Bytes) :
    line ≠ heading name := by
  rintro rfl
  exact h (headerMark_prefix_heading name)

/-- A line that begins like no heading changes nothing. -/
theorem switch_of_not_mark {line : Bytes} (h : ¬ headerMark <+: line) (on : Bool) :
    switch on line = on := by
  simp [switch, ne_heading h, h]

theorem not_mark_indented (text : Bytes) : ¬ headerMark <+: indented text :=
  not_headerMark_prefix (by decide) _

theorem not_mark_nil : ¬ headerMark <+: [] := by decide

theorem not_mark_texts (texts : List Bytes) :
    ∀ line ∈ texts.map indented, ¬ headerMark <+: line := by
  intro line hline
  obtain ⟨text, -, rfl⟩ := List.mem_map.mp hline
  exact not_mark_indented text

/-- The lines of sections: the headings, and lines that begin like no heading. -/
theorem spaced_cases {secs : List Section} {line : Bytes}
    (h : line ∈ secs.flatMap PageText.spaced) :
    ¬ headerMark <+: line ∨ ∃ sec ∈ secs, line = heading sec.name := by
  obtain ⟨sec, hsec, hline⟩ := List.mem_flatMap.mp h
  rcases List.mem_cons.mp hline with rfl | hline
  · exact .inl not_mark_nil
  rcases List.mem_cons.mp hline with rfl | hline
  · exact .inr ⟨sec, hsec, rfl⟩
  · exact .inl (not_mark_texts sec.texts line hline)

theorem switch_heading {name : Bytes} (hname : name ≠ ascii "NAME") (on : Bool) :
    switch on (heading name) = decide (name = ascii "DESCRIPTION") := by
  by_cases hdescription : name = ascii "DESCRIPTION"
  · simp [switch, hdescription]
  · simp [switch, heading_inj, hname, hdescription, headerMark_prefix_heading]

theorem searched_append (on : Bool) (a b : List Bytes) :
    searched on (a ++ b) = searched on a ++ searched (a.foldl switch on) b := by
  induction a generalizing on with
  | nil => rfl
  | cons line a ih =>
    rw [List.cons_append, searched, searched, List.foldl_cons, ih, ih]
    cases switch on line <;> simp

/-- Lines that begin like no heading are all searched, or none is. -/
theorem searched_of_not_mark {lines : List Bytes} (h : ∀ line ∈ lines, ¬ headerMark <+: line)
    (on : Bool) :
    searched on lines = (if on then lines else []) ∧ lines.foldl switch on = on := by
  induction lines with
  | nil => exact ⟨by cases on <;> rfl, rfl⟩
  | cons line lines ih =>
    obtain ⟨hsearched, hfold⟩ := ih fun l hl => h l (List.mem_cons_of_mem line hl)
    have hswitch := switch_of_not_mark (h line List.mem_cons_self) on
    rw [searched, List.foldl_cons, hswitch]
    refine ⟨?_, hfold⟩
    cases on with
    | true => simpa using hsearched
    | false => simpa using hsearched

/-- A section is searched if it is `DESCRIPTION`. -/
theorem searched_lines {sec : Section} (hname : sec.name ≠ ascii "NAME") (on : Bool) :
    searched on sec.lines = (if sec.name = ascii "DESCRIPTION" then sec.lines else []) ∧
      sec.lines.foldl switch on = decide (sec.name = ascii "DESCRIPTION") := by
  have hplain := not_mark_texts sec.texts
  rw [Section.lines, searched, List.foldl_cons, switch_heading hname]
  by_cases hdescription : sec.name = ascii "DESCRIPTION"
  · obtain ⟨hsearched, hfold⟩ := searched_of_not_mark hplain true
    simp [hdescription, hsearched, hfold]
  · obtain ⟨hsearched, hfold⟩ := searched_of_not_mark hplain false
    simp [hdescription, hsearched, hfold]

/-- The lines of the sections `DESCRIPTION` with their headings. -/
def descriptions (secs : List Section) : List Bytes :=
  (secs.filter fun sec => sec.name = ascii "DESCRIPTION").flatMap Section.lines

theorem hits_append {keyword : Bytes} {a b : List Bytes} :
    Hits keyword (a ++ b) ↔ Hits keyword a ∨ Hits keyword b := by
  simp only [Hits, List.mem_append, or_and_right, exists_or]

theorem hits_nil (keyword : Bytes) : ¬ Hits keyword [] := by simp [Hits]

theorem hits_singleton {keyword line : Bytes} :
    Hits keyword [line] ↔ keyword <:+: line ++ [10] := by
  simp [Hits]

/-- A blank line between the sections may be searched, too. -/
theorem hits_sections {keyword : Bytes} (hblank : ¬ keyword <:+: [10]) {secs : List Section}
    (hname : ∀ sec ∈ secs, sec.name ≠ ascii "NAME") (on : Bool) :
    Hits keyword (searched on (secs.flatMap PageText.spaced)) ↔
      Hits keyword (descriptions secs) := by
  induction secs generalizing on with
  | nil => exact Iff.rfl
  | cons sec secs ih =>
    obtain ⟨hsearched, hfold⟩ := searched_lines (hname sec List.mem_cons_self) on
    have hrest := ih (fun x hx => hname x (List.mem_cons_of_mem sec hx))
      (decide (sec.name = ascii "DESCRIPTION"))
    have hspaced : searched on (PageText.spaced sec) =
        (if on then [[]] else []) ++ searched on sec.lines := by
      have hnil := switch_of_not_mark not_mark_nil on
      rw [PageText.spaced, searched, hnil]
      cases on <;> rfl
    have hnone : ¬ Hits keyword (if on = true then [[]] else []) := by
      cases on with
      | true => simpa [Hits] using hblank
      | false => simp [Hits]
    have hend : (PageText.spaced sec).foldl switch on =
        decide (sec.name = ascii "DESCRIPTION") := by
      rw [PageText.spaced, List.foldl_cons, switch_of_not_mark not_mark_nil, hfold]
    rw [List.flatMap_cons, searched_append, hend, hspaced, hits_append, hits_append, hrest,
      hsearched, or_iff_right hnone]
    by_cases hdescription : sec.name = ascii "DESCRIPTION"
    · simp [descriptions, hdescription, hits_append]
    · simp [descriptions, hdescription, hits_nil]

/-- Whether the lines behind these sections are searched. -/
theorem foldl_sections {secs : List Section} (hname : ∀ sec ∈ secs, sec.name ≠ ascii "NAME")
    (on : Bool) : (secs.flatMap PageText.spaced).foldl switch on =
      (secs.getLast?.map fun sec => decide (sec.name = ascii "DESCRIPTION")).getD on := by
  induction secs generalizing on with
  | nil => rfl
  | cons sec secs ih =>
    obtain ⟨-, hfold⟩ := searched_lines (hname sec List.mem_cons_self) on
    rw [List.flatMap_cons, List.foldl_append, PageText.spaced, List.foldl_cons,
      switch_of_not_mark not_mark_nil, hfold, ih fun x hx => hname x (List.mem_cons_of_mem sec hx)]
    cases secs with
    | nil => rfl
    | cons sec' secs => rw [List.getLast?_cons_cons, List.getLast?_cons]; rfl

/-! ## The line that is taken apart -/

theorem cstr_strcpy {dst token : Bytes} (h : (0 : UInt8) ∉ token) :
    cstr (Manual.strcpy dst (some token)) = token := by
  have hsplice : splice dst 0 (token ++ [0]) =
      token ++ 0 :: dst.drop (0 + (token ++ [0]).length) := by
    simp [splice]
  rw [Manual.strcpy, hsplice, cstr_append_zero h]

theorem cstr_init_nameOneLiner (stack : Manual) (dName : Bytes) :
    cstr (Manual.init stack dName).nameOneLiner = [] := by
  simp [Manual.init, splice, cstr]

/-- `strtok` at a text with a dash. -/
theorem strtok_dash {a b : Bytes} (hne : a ≠ []) (ha : (45 : UInt8) ∉ a) :
    strtokNext (· == 45) (a ++ 45 :: b) = (some a, b) ∧
      strtokLeft (· == 45) (a ++ 45 :: b) = a := by
  have hfree : ∀ c ∈ a, (c == 45) = false := by
    intro c hc
    exact beq_eq_false_iff_ne.mpr (ne_of_mem_of_not_mem hc ha)
  have htoken : strtokNext (· == 45) ([] ++ (a ++ 45 :: b)) = (some a, (45 :: b).tail) :=
    strtokNext_append (by simp) hne hfree (by simp)
  refine ⟨htoken, ?_⟩
  obtain ⟨c, a, rfl⟩ := List.exists_cons_of_ne_nil hne
  have hspan : (c :: a ++ 45 :: b).takeWhile (fun c => !(c == 45)) = c :: a ∧ _ :=
    span_word hfree (by simp)
  have hc : (c == 45) = false := hfree c List.mem_cons_self
  rw [strtokLeft, List.cons_append, List.takeWhile_cons_of_neg (by simpa using hc),
    List.dropWhile_cons_of_neg (by simpa using hc), List.nil_append]
  exact hspan.1

/-- The text up to the first dash. -/
theorem exists_dash {s : Bytes} (h : (45 : UInt8) ∈ s) :
    ∃ a b, s = a ++ 45 :: b ∧ (45 : UInt8) ∉ a := by
  obtain ⟨a, b, rfl, ha⟩ := List.eq_append_cons_of_mem h
  exact ⟨a, b, rfl, ha⟩

end Cs537.P1.Wapropos
