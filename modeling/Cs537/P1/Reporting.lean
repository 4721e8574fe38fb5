import Cs537.P1.Searching

/-!
# The pages that `wapropos` reports

A page is reported once at most. `wapropos` reports exactly the pages that have the keyword in the
two sections, each with its whole one-liner, if it finds the first line of `NAME` there and that
line has one dash; the keyword must not be in front of that line, nor in the one-liner alone.
-/

namespace Cs537.P1.Page

open Cs537.Lib Wapropos

variable {p : Page}

/-- `NAME` is the first section, or the sections in front of it are all `DESCRIPTION`, and the title
does not begin like a heading. -/
structure NameFirst (p : Page) : Prop where
  title : ¬ headerMark <+: p.title
  before : ∀ sec ∈ p.before, sec.name = ascii "DESCRIPTION"

/-- The dash between the name of the page and the one-liner is the only one in the line. -/
structure OneDash (p : Page) : Prop where
  page : (45 : UInt8) ∉ p.page
  oneLiner : (45 : UInt8) ∉ p.oneLiner

/-- What is behind the dash, with the end of the line. -/
def shown (p : Page) : Bytes := 32 :: (p.oneLiner ++ [10])

/-- The line up to the dash, if there is no other. -/
theorem nameText_eq (p : Page) :
    indented p.nameText ++ [10] = indented (p.page ++ [32]) ++ 45 :: p.shown := by
  have hsep : ascii " - " = [32, 45, 32] := by decide
  simp [PageText.nameText, indented, shown, hsep]

theorem nameText_mem_lines (p : Page) : indented p.nameText ∈ p.lines := by
  rw [p.lines_eq]
  simp

theorem newline_notMem_nameText (p : Page) : (10 : UInt8) ∉ indented p.nameText :=
  p.newline_notMem _ p.nameText_mem_lines

theorem zero_notMem_nameText (p : Page) : (0 : UInt8) ∉ indented p.nameText :=
  p.zero_notMem _ p.nameText_mem_lines

/-- The first token of the line behind the first dash is all of it only if that dash is the only
one. -/
theorem oneDash_of_token {a b rest : Bytes}
    (hline : indented p.nameText ++ [10] = a ++ 45 :: b) (ha : (45 : UInt8) ∉ a)
    (htoken : strtokNext (· == 45) b = (some p.shown, rest)) : p.OneDash := by
  rcases strtokNext_cases (· == (45 : UInt8)) b with
    ⟨-, hnone⟩ | ⟨gap, w, behind, rfl, hgap, -, hw, -, hsome⟩
  · rw [hnone] at htoken
    cases htoken
  obtain rfl : w = p.shown := by
    rw [hsome] at htoken
    exact Option.some.inj (congrArg Prod.fst htoken)
  have honeLiner : (45 : UInt8) ∉ p.oneLiner := by
    intro hmem
    have := hw 45 (by simp [shown, hmem])
    simp at this
  refine ⟨?_, honeLiner⟩
  -- The token ends with the only newline of the line, so it is all that the page has there.
  have hsame : indented p.nameText = a ++ 45 :: (gap ++ 32 :: p.oneLiner) := by
    have hline' : indented p.nameText ++ 10 :: [] =
        (a ++ 45 :: (gap ++ 32 :: p.oneLiner)) ++ 10 :: behind := by
      simpa [shown] using hline
    exact ((List.append_cons_inj_of_notMem p.newline_notMem_nameText
      List.not_mem_nil).mp hline').1
  have hsep : ascii " - " = [32, 45, 32] := by decide
  have hfront : indented (p.page ++ [32]) ++ [45] = a ++ 45 :: gap := by
    have : indented (p.page ++ [32]) ++ [45] ++ 32 :: p.oneLiner =
        (a ++ 45 :: gap) ++ 32 :: p.oneLiner := by
      simpa [PageText.nameText, hsep, indented] using hsame
    exact List.append_cancel_right this
  rcases gap.eq_nil_or_concat with rfl | ⟨gap', c, rfl⟩
  · have hpage : indented (p.page ++ [32]) = a := List.append_cancel_right hfront
    intro hmem
    exact ha (by rw [← hpage]; simp [indented, hmem])
  · -- A second dash would stand where the page has a blank.
    have hc : c = 45 := by simpa using hgap c (by simp)
    have hblank : (indented p.page ++ [32]) = a ++ 45 :: gap' := by
      have : indented (p.page ++ [32]) ++ [45] = (a ++ 45 :: gap') ++ [45] := by
        simpa [hc] using hfront
      simpa [indented] using List.append_cancel_right this
    have hlast : (32 : UInt8) ∈ 45 :: gap' := by
      have := congrArg List.getLast? hblank
      rw [List.getLast?_append_cons, List.getLast?_append_cons] at this
      exact List.mem_of_getLast? this.symm
    rcases List.mem_cons.mp hlast with h | h
    · simp at h
    · have := hgap 32 (by simp [h])
      simp at this

/-- What is printed if the dash is the only one. -/
theorem oneDash_token (h : p.OneDash) : strtokNext (· == 45) p.shown = (some p.shown, []) := by
  have hfree : ∀ c ∈ p.shown, (c == 45) = false := by
    intro c hc
    rw [beq_eq_false_iff_ne]
    rintro rfl
    simp [shown, h.oneLiner] at hc
  have htoken : strtokNext (· == 45) ([] ++ (p.shown ++ [])) = (some p.shown, [].tail) :=
    strtokNext_append (by simp) (by simp [shown]) hfree (by simp)
  simpa using htoken

/-- The line up to its first dash. -/
theorem exists_firstDash (p : Page) : ∃ a b, indented p.nameText ++ [10] = a ++ 45 :: b ∧
    (45 : UInt8) ∉ a ∧ (p.OneDash → a = indented (p.page ++ [32]) ∧ b = p.shown) := by
  by_cases hone : p.OneDash
  · refine ⟨_, _, p.nameText_eq, ?_, fun _ => ⟨rfl, rfl⟩⟩
    have hblanks : (45 : UInt8) ∉ ascii "       " := by decide
    simp [indented, hblanks, hone.page]
  · have hmem : (45 : UInt8) ∈ indented p.nameText ++ [10] := by
      rw [p.nameText_eq]
      simp
    obtain ⟨a, b, hline, ha⟩ := exists_dash hmem
    exact ⟨a, b, hline, ha, fun h => absurd h hone⟩

/-- The round with the first line of `NAME`, if the heading has been found as it should: what is
searched ends in front of the first dash, and the one-liner is what is behind that dash only if
there is no other. -/
theorem read_nameText {s : Scan} (hin : s.inName = true) (hliner : s.liner = 0)
    (hnone : cstr s.manual.nameOneLiner = []) : ∃ t a,
      s.read (stored (indented p.nameText)) = (t, a ++ [0]) ∧ t.Settled ∧ t.searches = true ∧
      (0 : UInt8) ∉ a ∧ a <+: indented p.nameText ∧
      (cstr t.manual.nameOneLiner = p.shown ↔ p.OneDash) ∧
      (p.OneDash → a = indented (p.page ++ [32])) := by
  obtain ⟨a, b, hline, ha, hone⟩ := p.exists_firstDash
  have hzero : (0 : UInt8) ∉ a ++ 45 :: b := by
    rw [← hline]
    simp [p.zero_notMem_nameText]
  have hne : a ≠ [] := by
    rintro rfl
    have := congrArg List.head? hline
    simp [indented, ascii] at this
  obtain ⟨hname, hleft⟩ : strtokNext (· == 45) (a ++ 45 :: b) = (some a, b) ∧ _ :=
    strtok_dash hne ha
  have henter : s.enter (stored (indented p.nameText)) = s := by
    have hmark := not_mark_indented p.nameText
    rw [Scan.enter_eq p.zero_notMem_nameText (ne_heading hmark _), if_neg (ne_heading hmark _),
      if_neg hmark]
  refine ⟨{ s with
    liner := 1
    manual := { s.manual with
      name := Manual.strcpy s.manual.name (some a)
      nameOneLiner := Manual.strcpy s.manual.nameOneLiner (strtokNext (· == 45) b).1 } }, a,
    ?_, ?_, ?_, ?_, ?_, ?_, ?_⟩
  · rw [Scan.read, henter, Scan.count, if_pos hin, hliner, Scan.tokens, if_pos (by simp),
      cstr_stored p.zero_notMem_nameText, hline, hname, hleft]
    rfl
  · simp [Scan.Settled, hin]
  · simp [Scan.searches, hin]
  · exact fun h => hzero (List.mem_append_left _ h)
  · have hfront : a <+: indented p.nameText ++ [10] := ⟨45 :: b, hline.symm⟩
    rcases List.prefix_concat_iff.mp hfront with heq | h
    · simp [heq] at hline
    · exact h
  · constructor
    · intro hshown
      rcases strtokNext_cases (· == (45 : UInt8)) b with
        ⟨-, hblank⟩ | ⟨gap, w, behind, rfl, -, -, -, -, htoken⟩
      · have := hnone.symm.trans (by simpa only [hblank, Manual.strcpy] using hshown)
        simp [shown] at this
      · have hw : (0 : UInt8) ∉ w := by
          intro h
          exact hzero (by simp [h])
        rw [htoken] at hshown
        have hall : w = p.shown := (cstr_strcpy hw).symm.trans hshown
        exact oneDash_of_token hline ha (by rw [htoken, hall])
    · intro h
      have hshown : (0 : UInt8) ∉ p.shown := by
        rw [← (hone h).2]
        exact fun h0 => hzero (by simp [h0])
      rw [(hone h).2, oneDash_token h]
      exact cstr_strcpy hshown
  · exact fun h => (hone h).1

/-! ## The lines around it -/

/-- The lines that are searched in front of the first line of `NAME`. -/
def early (p : Page) : List Bytes := descriptions p.before ++ [heading (ascii "NAME")]

/-- The lines that are searched behind the first line of `NAME`. The last line of the page is one of
them if no section comes after `NAME`, or the last one is `DESCRIPTION`. -/
def late (p : Page) : List Bytes :=
  p.more.map indented ++ (descriptions p.after ++
    if (p.after.getLast?.map fun sec => decide (sec.name = ascii "DESCRIPTION")).getD true then
      [p.footer]
    else [])

theorem before_ne (p : Page) : ∀ sec ∈ p.before, sec.name ≠ ascii "NAME" :=
  fun sec h => p.name_ne sec (List.mem_append_left _ h)

theorem after_ne (p : Page) : ∀ sec ∈ p.after, sec.name ≠ ascii "NAME" :=
  fun sec h => p.name_ne sec (List.mem_append_right _ h)

/-- A title ends with a parenthesis. -/
theorem title_ne (p : Page) (name : Bytes) : p.title ≠ heading name := by
  intro h
  have hparen : p.title.getLast? = some 41 := by
    have hname : Main.titleName p.command p.sec = p.command ++ 40 :: p.sec ++ [41] := by
      simp [Main.titleName]
    rw [PageText.title, titleLine, hname, ← List.append_assoc, ← List.append_assoc,
      List.getLast?_concat]
  have hbold : (heading name).getLast? = some 109 := by
    have hend : heading name = 27 :: (ascii "[1m" ++ (name ++ 27 :: ascii "[0")) ++ [109] := by
      simp [heading, ascii]
    rw [hend, List.getLast?_concat]
  rw [h, hbold] at hparen
  simp at hparen

theorem not_mark_footer (p : Page) : ¬ headerMark <+: p.footer :=
  not_headerMark_prefix (by decide) _

/-- Among the lines of other sections is no heading of `NAME`. -/
theorem spaced_ne {secs : List Section} (hname : ∀ sec ∈ secs, sec.name ≠ ascii "NAME") :
    ∀ line ∈ secs.flatMap PageText.spaced, line ≠ heading (ascii "NAME") := by
  intro line hline
  rcases spaced_cases hline with hmark | ⟨sec, hsec, rfl⟩
  · exact ne_heading hmark _
  · exact fun h => hname sec hsec (heading_inj.mp h)

/-- The lines in front of the heading of `NAME`. -/
theorem front_cases {line : Bytes} (h : line ∈ p.front) :
    line = p.title ∨ ¬ headerMark <+: line ∨ ∃ sec ∈ p.before, line = heading sec.name := by
  rcases List.mem_cons.mp h with rfl | hline
  · exact .inl rfl
  rcases List.mem_append.mp hline with hline | hline
  · exact .inr (spaced_cases hline)
  · rw [List.mem_singleton.mp hline]
    exact .inr (.inl not_mark_nil)

theorem front_ne (p : Page) : ∀ line ∈ p.front, line ≠ heading (ascii "NAME") := by
  intro line hline
  rcases front_cases hline with rfl | hmark | ⟨sec, hsec, rfl⟩
  · exact p.title_ne _
  · exact ne_heading hmark _
  · exact fun h => p.before_ne sec hsec (heading_inj.mp h)

theorem rest_ne (p : Page) : ∀ line ∈ p.rest, line ≠ heading (ascii "NAME") := by
  intro line hline
  rcases List.mem_append.mp hline with hline | hline
  · exact ne_heading (not_mark_texts p.more line hline) _
  rcases List.mem_append.mp hline with hline | hline
  · exact spaced_ne p.after_ne line hline
  · rw [List.mem_singleton.mp hline]
    exact ne_heading p.not_mark_footer _

/-- A heading of another section stands in front of `NAME`. -/
theorem isOther_front (p : Page) : (∃ line ∈ p.front, IsOther line) ↔ ¬ p.NameFirst := by
  constructor
  · rintro ⟨line, hline, hmark, hname, hdescription⟩ hfirst
    rcases front_cases hline with rfl | hnone | ⟨sec, hsec, rfl⟩
    · exact hfirst.title hmark
    · exact hnone hmark
    · exact hdescription (heading_inj.mpr (hfirst.before sec hsec))
  · intro hnot
    by_contra hnone
    refine hnot ⟨fun hmark => ?_, fun sec hsec => ?_⟩
    · exact hnone ⟨p.title, List.mem_cons_self, hmark, p.title_ne _, p.title_ne _⟩
    by_contra hdescription
    refine hnone ⟨heading sec.name, ?_, headerMark_prefix_heading _,
      fun h => p.before_ne sec hsec (heading_inj.mp h), fun h => hdescription (heading_inj.mp h)⟩
    refine List.mem_cons_of_mem _ (List.mem_append_left _ (List.mem_flatMap.mpr ⟨sec, hsec, ?_⟩))
    exact List.mem_cons_of_mem _ List.mem_cons_self

theorem hits_front {keyword : Bytes} (hblank : ¬ keyword <:+: [10]) :
    Hits keyword (searched false p.front) ↔ Hits keyword (descriptions p.before) := by
  have htitle : switch false p.title = false := by
    simp [switch, p.title_ne]
  have hlast (on : Bool) : ¬ Hits keyword (searched on [[]]) := by
    rw [searched, switch_of_not_mark not_mark_nil]
    cases on with
    | true => simpa [searched, Hits] using hblank
    | false => simp [searched, Hits]
  rw [front, searched, htitle, if_neg (by simp), searched_append, hits_append,
    hits_sections hblank p.before_ne, or_iff_left (hlast _)]

theorem hits_rest {keyword : Bytes} (hblank : ¬ keyword <:+: [10]) :
    Hits keyword (searched true p.rest) ↔ Hits keyword p.late := by
  obtain ⟨hsearched, hfold⟩ := searched_of_not_mark (not_mark_texts p.more) true
  have hfooter (on : Bool) : searched on [p.footer] = if on then [p.footer] else [] := by
    rw [searched, switch_of_not_mark p.not_mark_footer]
    cases on <;> rfl
  rw [rest, late, searched_append, hsearched, hfold, if_pos rfl, searched_append,
    foldl_sections p.after_ne, hfooter, hits_append, hits_append, hits_append, hits_append,
    hits_sections hblank p.after_ne]

/-! ## What is reported -/

variable {keyword : Bytes}

/-- A keyword that occurs in a blank line occurs in the heading, too. -/
theorem not_blank (h : ¬ Hits keyword p.early) : ¬ keyword <:+: [10] := by
  intro hblank
  exact h (hits_append.mpr (.inr (hits_singleton.mpr (hblank.trans (List.infix_append' _ _ _)))))

/-- The search up to the first line of `NAME`. A keyword that is found there is reported without a
one-liner. -/
theorem reports_early (hkeyword : (0 : UInt8) ∉ keyword) (stack : Manual) (dName : Bytes)
    (p : Page) : ∃ u : Scan, u.inName = true ∧ (p.NameFirst → u.liner = 0) ∧
      (¬ p.NameFirst → u.liner = 1) ∧ cstr u.manual.nameOneLiner = [] ∧
      (Hits keyword p.early →
        ∃ m, reports stack keyword dName p.bytes = [m] ∧ cstr m.nameOneLiner = []) ∧
      (¬ Hits keyword p.early → reports stack keyword dName p.bytes =
        scanLines keyword (stored (indented p.nameText) :: p.rest.map stored) u) := by
  have hempty := cstr_init_nameOneLiner stack dName
  have hzero : ∀ line ∈ p.front, (0 : UInt8) ∉ line := by
    intro line hline
    exact p.zero_notMem line (by rw [p.lines_eq]; exact List.mem_append_left _ hline)
  obtain ⟨s, hs⟩ : ∃ s : Scan, s = ⟨Manual.init stack dName, false, -1, false⟩ := ⟨_, rfl⟩
  have hreports : reports stack keyword dName p.bytes = scanLines keyword (p.front.map stored ++
      stored (heading (ascii "NAME")) :: stored (indented p.nameText) :: p.rest.map stored) s := by
    rw [reports, p.fgetsAll_bytes, List.map_map, p.lines_eq, List.map_append, hs]
    rfl
  have hinit : s.Settled := by simp [Scan.Settled, hs]
  obtain ⟨t, -, hmanual, -, hoff, hrun⟩ := scanLines_settled hkeyword hzero p.front_ne hinit
  obtain ⟨-, hliner⟩ := hoff (by rw [hs])
  have hliner' : t.liner = -1 ∨ t.liner = 0 := by
    rw [hliner, hs]
    split <;> simp
  obtain ⟨m, hread, hm⟩ := Scan.read_name hliner'
  have hoffFirst : s.searches = false := by simp [Scan.searches, hs]
  have hheading : (0 : UInt8) ∉ heading (ascii "NAME") := by decide
  have hfinds := strstrFinds_stored hheading hkeyword
  rw [hrun, scanLines, hread, hoffFirst] at hreports
  obtain ⟨u, hu⟩ : ∃ u : Scan, u = { t with manual := m, inName := true, liner := t.liner + 1 } :=
    ⟨_, rfl⟩
  have hsearches : u.searches = true := by simp [hu, Scan.searches]
  have hone : cstr u.manual.nameOneLiner = [] := by
    rw [hu]
    simp only [hm, hmanual, hs, hempty]
  simp only [← hu, hsearches, Bool.true_and] at hreports
  refine ⟨u, by rw [hu], ?_, ?_, hone, ?_, ?_⟩
  · intro hfirst
    rw [if_neg (fun h => p.isOther_front.mp h hfirst)] at hliner
    simp [hu, hliner, hs]
  · intro hfirst
    rw [if_pos (p.isOther_front.mpr hfirst)] at hliner
    simp [hu, hliner]
  · intro hearly
    by_cases hfront : Hits keyword (searched false p.front)
    · exact ⟨s.manual, hreports.trans (if_pos hfront), by rw [hs, hempty]⟩
    have hhit : keyword <:+: heading (ascii "NAME") ++ [10] := by
      by_cases hblank : keyword <:+: [10]
      · exact hblank.trans (List.infix_append' _ _ _)
      · rw [hits_front hblank] at hfront
        rcases hits_append.mp hearly with h | h
        · exact absurd h hfront
        · exact hits_singleton.mp h
    refine ⟨u.manual, hreports.trans ?_, hone⟩
    rw [if_neg hfront, if_pos (hfinds.mpr hhit), hu]
  · intro hearly
    have hblank := not_blank hearly
    rw [early, hits_append, not_or, hits_singleton] at hearly
    rw [hreports, if_neg (by rw [hits_front hblank]; exact hearly.1), if_neg]
    exact fun h => hearly.2 (hfinds.mp h)

theorem zero_notMem_rest (p : Page) : ∀ line ∈ p.rest, (0 : UInt8) ∉ line := by
  intro line hline
  exact p.zero_notMem line (by rw [p.lines_eq]; simp [hline])

/-- The search behind the first line of `NAME`. -/
theorem scanLines_rest (hkeyword : (0 : UInt8) ∉ keyword) (hblank : ¬ keyword <:+: [10]) {t : Scan}
    (ht : t.Settled) (hsearches : t.searches = true) :
    scanLines keyword (p.rest.map stored) t = if Hits keyword p.late then [t.manual] else [] := by
  obtain ⟨u, -, -, -, -, hrun⟩ := scanLines_settled hkeyword p.zero_notMem_rest p.rest_ne ht
  have hall := hrun []
  rw [List.append_nil, hsearches] at hall
  rw [hall]
  exact if_congr (hits_rest hblank) rfl rfl

/-- What is reported if the heading of `NAME` is found as it should. -/
theorem reports_nameFirst (hkeyword : (0 : UInt8) ∉ keyword) (stack : Manual) (dName : Bytes)
    (hearly : ¬ Hits keyword p.early) (hfirst : p.NameFirst) : ∃ m a,
      reports stack keyword dName p.bytes =
        (if keyword <:+: a ∨ Hits keyword p.late then [m] else []) ∧
      a <+: indented p.nameText ∧ (cstr m.nameOneLiner = p.shown ↔ p.OneDash) ∧
      (p.OneDash → a = indented (p.page ++ [32])) := by
  obtain ⟨u, hin, hliner, -, hnone, -, hrun⟩ := reports_early hkeyword stack dName p
  obtain ⟨t, a, hread, ht, hsearches, hzero, hfront, hone, hpage⟩ :=
    read_nameText hin (hliner hfirst) hnone
  refine ⟨t.manual, a, ?_, hfront, hone, hpage⟩
  have hfinds : strstrFinds (a ++ [0]) keyword = decide (keyword <:+: a) := by
    rw [strstrFinds, cstr_append_zero hzero, cstr_of_zero_notMem hkeyword]
  rw [hrun hearly, scanLines, hread]
  simp only [hsearches, hfinds, Bool.true_and, decide_eq_true_eq]
  rw [scanLines_rest hkeyword (not_blank hearly) ht hsearches]
  exact (ite_or _ _ _ _).symm

/-- What is reported if the heading of `NAME` is taken for its first line. -/
theorem reports_other (hkeyword : (0 : UInt8) ∉ keyword) (stack : Manual) (dName : Bytes)
    (hearly : ¬ Hits keyword p.early) (hfirst : ¬ p.NameFirst) : ∃ m,
      reports stack keyword dName p.bytes =
        (if keyword <:+: indented p.nameText ++ [10] ∨ Hits keyword p.late then [m] else []) ∧
      cstr m.nameOneLiner = [] := by
  obtain ⟨u, hin, -, hliner, hnone, -, hrun⟩ := reports_early hkeyword stack dName p
  have hsettled : u.Settled := by simp [Scan.Settled, hin, hliner hfirst]
  have hmark := not_mark_indented p.nameText
  obtain ⟨t, hread, ht, hmanual, hsearches, -⟩ := Scan.read_settled hsettled p.zero_notMem_nameText
    (ne_heading hmark _)
  have hon : t.searches = true := by
    rw [hsearches, switch_of_not_mark hmark]
    simp [Scan.searches, hin]
  refine ⟨t.manual, ?_, by rw [hmanual, hnone]⟩
  have hfinds := strstrFinds_stored p.zero_notMem_nameText hkeyword
  rw [hrun hearly, scanLines, hread]
  simp only [hon, hfinds, Bool.true_and]
  rw [scanLines_rest hkeyword (not_blank hearly) ht hon]
  exact (ite_or _ _ _ _).symm

/-! ## The pages that are reported as they should be -/

/-- The page is printed once exactly if the keyword occurs in a line of `NAME` or `DESCRIPTION`, and
what is printed behind the dash is all that the line has there. -/
def ReportsExactly (stack : Manual) (keyword dName : Bytes) (p : Page) : Prop :=
  ((reports stack keyword dName p.bytes).length = 1 ↔ p.Occurs keyword) ∧
    ∀ m ∈ reports stack keyword dName p.bytes, cstr m.nameOneLiner = p.shown

/-- The keyword occurs in no line of the two sections, in none of their headings, and not in the
last line if that is searched. -/
structure Silent (keyword : Bytes) (p : Page) : Prop where
  early : ¬ Hits keyword p.early
  nameText : ¬ keyword <:+: indented p.nameText ++ [10]
  late : ¬ Hits keyword p.late

/-- The keyword occurs in a line of the two sections, and `wapropos` finds it, but not before it has
read a line of `NAME` with one dash. -/
structure Findable (keyword : Bytes) (p : Page) : Prop where
  nameFirst : p.NameFirst
  oneDash : p.OneDash
  early : ¬ Hits keyword p.early
  found : keyword <:+: indented (p.page ++ [32]) ∨ Hits keyword p.late
  occurs : p.Occurs keyword

theorem hits_descriptions {secs : List Section} {sec : Section} (hsec : sec ∈ secs)
    (hname : sec.name = ascii "DESCRIPTION") {text : Bytes} (htext : text ∈ sec.texts)
    (h : keyword <:+: indented text ++ [10]) : Hits keyword (descriptions secs) := by
  have hmem : sec ∈ secs.filter fun sec => sec.name = ascii "DESCRIPTION" :=
    List.mem_filter.mpr ⟨hsec, by simp [hname]⟩
  refine ⟨indented text, List.mem_flatMap.mpr ⟨sec, hmem, ?_⟩, h⟩
  exact List.mem_cons_of_mem _ (List.mem_map_of_mem htext)

/-- Every line of the two sections is searched, but for the part of the first line of `NAME` behind
the dash. -/
theorem Occurs.hits (h : p.Occurs keyword) : Hits keyword p.early ∨
    keyword <:+: indented p.nameText ++ [10] ∨ Hits keyword p.late := by
  obtain ⟨sec, hsec, hname, text, htext, hhit⟩ := h
  rcases List.mem_append.mp hsec with hbefore | hafter
  · have hdescription := hname.resolve_left (p.before_ne sec hbefore)
    exact .inl (hits_append.mpr (.inl (hits_descriptions hbefore hdescription htext hhit)))
  rcases List.mem_cons.mp hafter with rfl | hafter
  · rcases List.mem_cons.mp htext with rfl | hmore
    · exact .inr (.inl hhit)
    · exact .inr (.inr (hits_append.mpr (.inl ⟨_, List.mem_map_of_mem hmore, hhit⟩)))
  · have hdescription := hname.resolve_left (p.after_ne sec hafter)
    exact .inr (.inr (hits_append.mpr (.inr (hits_append.mpr
      (.inl (hits_descriptions hafter hdescription htext hhit))))))

theorem occurs_of_nameText (h : keyword <:+: indented p.nameText ++ [10]) : p.Occurs keyword :=
  ⟨p.nameSection, by simp [PageText.sections], .inl rfl, p.nameText, List.mem_cons_self, h⟩

theorem Silent.not_occurs (h : p.Silent keyword) : ¬ p.Occurs keyword := by
  intro hoccurs
  rcases hoccurs.hits with hearly | hname | hlate
  · exact h.early hearly
  · exact h.nameText hname
  · exact h.late hlate

/-- A page that is reported. -/
theorem reportsExactly_singleton {stack m : Manual} {dName : Bytes}
    (h : reports stack keyword dName p.bytes = [m]) :
    ReportsExactly stack keyword dName p ↔ p.Occurs keyword ∧ cstr m.nameOneLiner = p.shown := by
  simp [ReportsExactly, h]

/-- A page that is not reported. -/
theorem reportsExactly_nil {stack : Manual} {dName : Bytes}
    (h : reports stack keyword dName p.bytes = []) :
    ReportsExactly stack keyword dName p ↔ ¬ p.Occurs keyword := by
  simp [ReportsExactly, h]

/-- A page is reported as it should be exactly if there is nothing to find, or the keyword is found
behind the heading of `NAME`, that is found itself, and the line has one dash. -/
theorem reportsExactly_iff (stack : Manual) {keyword : Bytes} (hkeyword : (0 : UInt8) ∉ keyword)
    (dName : Bytes) (p : Page) :
    ReportsExactly stack keyword dName p ↔ p.Silent keyword ∨ p.Findable keyword := by
  have hshown : p.shown ≠ [] := by simp [shown]
  by_cases hearly : Hits keyword p.early
  · -- The keyword is found before the one-liner is known.
    obtain ⟨-, -, -, -, -, hearlier, -⟩ := reports_early hkeyword stack dName p
    obtain ⟨m, hm, hnone⟩ := hearlier hearly
    rw [reportsExactly_singleton hm, hnone]
    refine iff_of_false (fun h => hshown h.2.symm) ?_
    rintro (h | h)
    · exact h.early hearly
    · exact h.early hearly
  by_cases hfirst : p.NameFirst
  · obtain ⟨m, a, hm, hfront, hone, hpage⟩ := reports_nameFirst hkeyword stack dName hearly hfirst
    have hline : keyword <:+: a → keyword <:+: indented p.nameText ++ [10] := fun h =>
      h.trans ((hfront.trans (List.prefix_append _ _)).isInfix)
    by_cases hfound : keyword <:+: a ∨ Hits keyword p.late
    · rw [if_pos hfound] at hm
      rw [reportsExactly_singleton hm, hone]
      constructor
      · rintro ⟨hoccurs, honeDash⟩
        rw [hpage honeDash] at hfound
        exact .inr ⟨hfirst, honeDash, hearly, hfound, hoccurs⟩
      · rintro (h | h)
        · exact absurd hfound (not_or.mpr ⟨fun hit => h.nameText (hline hit), h.late⟩)
        · exact ⟨h.occurs, h.oneDash⟩
    · rw [if_neg hfound] at hm
      rw [reportsExactly_nil hm]
      constructor
      · intro hoccurs
        exact .inl ⟨hearly, fun h => hoccurs (occurs_of_nameText h), fun h => hfound (.inr h)⟩
      · rintro (h | h)
        · exact h.not_occurs
        · refine absurd h.found ?_
          rw [← hpage h.oneDash]
          exact hfound
  · -- The heading has been taken for the line with the one-liner.
    obtain ⟨m, hm, hnone⟩ := reports_other hkeyword stack dName hearly hfirst
    have hsilent : p.Silent keyword ∨ p.Findable keyword ↔
        ¬ (keyword <:+: indented p.nameText ++ [10] ∨ Hits keyword p.late) := by
      constructor
      · rintro (h | h)
        · exact not_or.mpr ⟨h.nameText, h.late⟩
        · exact absurd h.nameFirst hfirst
      · intro h
        exact .inl ⟨hearly, fun hit => h (.inl hit), fun hit => h (.inr hit)⟩
    rw [hsilent]
    by_cases hfound : keyword <:+: indented p.nameText ++ [10] ∨ Hits keyword p.late
    · rw [if_pos hfound] at hm
      rw [reportsExactly_singleton hm, hnone]
      exact iff_of_false (fun h => hshown h.2.symm) (not_not.mpr hfound)
    · rw [if_neg hfound] at hm
      rw [reportsExactly_nil hm]
      refine iff_of_true ?_ hfound
      exact (Silent.mk hearly (fun h => hfound (.inl h)) fun h => hfound (.inr h)).not_occurs

/-- A manual page with the usual sections. -/
def wgroffPage : Page where
  command := ascii "wgroff"
  sec := ascii "1"
  blanks := 62
  before := []
  page := ascii "wgroff"
  oneLiner := ascii "simplified document formatting system"
  more := []
  after := [⟨ascii "SYNOPSIS", [ascii "wgroff file"]⟩,
    ⟨ascii "DESCRIPTION", [ascii "wgroff is a simplified version of groff.", []]⟩]
  date := ascii "2023-08-13"
  separator := by decide
  name_ne := by decide
  isDate_date := by decide
  length_lt := by decide
  newline_notMem := by decide
  zero_notMem := by decide

/-- The name of a page is found. -/
theorem reportsExactly_iff_wgroff :
    ReportsExactly ⟨[], 0, []⟩ (ascii "wgroff") (ascii "wgroff.1") wgroffPage := by
  have hname : ascii "wgroff" <:+: indented (wgroffPage.page ++ [32]) := by decide
  have hline : ascii "wgroff" <:+: indented wgroffPage.nameText ++ [10] := by decide
  exact (reportsExactly_iff _ (by decide) _ _).mpr (.inr ⟨⟨by decide, by decide⟩,
    ⟨by decide, by decide⟩, by decide, .inl hname, occurs_of_nameText hline⟩)

/-- A word that stands in the one-liner only is not found. -/
theorem document_unreported :
    ¬ ReportsExactly ⟨[], 0, []⟩ (ascii "document") (ascii "wgroff.1") wgroffPage := by
  have hnone : reports ⟨[], 0, []⟩ (ascii "document") (ascii "wgroff.1") wgroffPage.bytes = [] := by
    decide +kernel
  have hline : ascii "document" <:+: indented wgroffPage.nameText ++ [10] := by decide
  rw [reportsExactly_nil hnone]
  exact fun h => h (occurs_of_nameText hline)

end Cs537.P1.Page

namespace Cs537.P1.Wapropos

open Cs537.Lib

/-! ## A whole run -/

variable {stack : Bytes → Manual} {keyword : Bytes}

/-- What a run reports about an entry of a directory. -/
def Entry.reported (stack : Bytes → Manual) (keyword : Bytes) (e : Entry) : List Manual :=
  if e.isSkipped then []
  else e.contents.elim [] (reports (stack e.name) keyword e.name)

/-- The file can be opened, or need not be. -/
def Entry.Opens (e : Entry) : Prop := e.isSkipped = true ∨ e.contents ≠ none

/-- The state after some reports. -/
def Found.add (s : Found) (ms : List Manual) : Found :=
  ⟨s.printed ++ ms.flatMap Manual.text, s.found + ms.length⟩

theorem Found.add_append (s : Found) (ms ns : List Manual) :
    (s.add ms).add ns = s.add (ms ++ ns) := by
  simp [Found.add, Nat.add_assoc]

theorem readEntry_ok {e : Entry} (h : e.Opens) (s : Found) :
    readEntry stack keyword s e = .ok (s.add (e.reported stack keyword)) := by
  unfold readEntry Entry.reported
  by_cases hskipped : e.isSkipped = true
  · simp [hskipped, Found.add]
  · obtain ⟨file, hfile⟩ := Option.ne_none_iff_exists'.mp (h.resolve_left hskipped)
    simp [hskipped, hfile, Found.add]

/-- A run over rounds that go well reports all that the rounds report. -/
theorem foldlM_add {α : Type} {round : Found → α → Except (Bytes × Nat) Found}
    {reported : α → List Manual} {xs : List α}
    (h : ∀ x ∈ xs, ∀ s, round s x = .ok (s.add (reported x))) (s : Found) :
    xs.foldlM round s = .ok (s.add (xs.flatMap reported)) := by
  induction xs generalizing s with
  | nil => simp [Found.add, pure, Except.pure]
  | cons x xs ih =>
    rw [List.foldlM_cons, h x List.mem_cons_self, List.flatMap_cons, ← Found.add_append]
    exact ih (fun y hy => h y (List.mem_cons_of_mem x hy)) _

/-- If every directory and file can be opened, the run prints all that it finds, in the order of the
directories, or that there is nothing. -/
theorem wapropos_eq {dirs : Fin 9 → List Entry} (h : ∀ i, ∀ e ∈ dirs i, e.Opens) :
    wapropos stack (fun i => some (dirs i)) (some keyword) =
      let ms := (List.ofFn dirs).flatten.flatMap (Entry.reported stack keyword)
      (if ms = [] then ascii "nothing appropriate\n" else ms.flatMap Manual.text, 0) := by
  have hall : ∀ e ∈ (List.ofFn dirs).flatMap id, e.Opens := by
    intro e he
    obtain ⟨entries, hentries, he⟩ := List.mem_flatMap.mp he
    obtain ⟨i, rfl⟩ := List.mem_ofFn.mp hentries
    exact h i e he
  have hrun : (List.ofFn fun i => some (dirs i)).foldlM (readDirectory stack keyword) ⟨[], 0⟩ =
      .ok (Found.add ⟨[], 0⟩
        ((List.ofFn dirs).flatten.flatMap (Entry.reported stack keyword))) := by
    have hmap : (List.ofFn fun i => some (dirs i)) = (List.ofFn dirs).map some := by
      rw [List.map_ofFn]
      rfl
    have hround : (List.ofFn dirs).foldlM (fun s es => readDirectory stack keyword s (some es))
        ⟨[], 0⟩ = ((List.ofFn dirs).flatMap id).foldlM (readEntry stack keyword) ⟨[], 0⟩ :=
      foldlM_flatMap id (List.ofFn dirs)
    rw [hmap, List.foldlM_map, hround, foldlM_add (fun e he s => readEntry_ok (hall e he) s),
      List.flatMap_id]
  rw [wapropos, hrun]
  generalize (List.ofFn dirs).flatten.flatMap (Entry.reported stack keyword) = ms
  by_cases hnone : ms = [] <;> simp [hnone, Found.add]

/-- What an entry adds whose page is reported as it should be. -/
theorem reported_page {e : Entry} {p : Page} (hname : e.isSkipped = false)
    (hfile : e.contents = some p.bytes) (h : p.ReportsExactly (stack e.name) keyword e.name) :
    (e.reported stack keyword).map (fun m => cstr m.nameOneLiner) =
      if p.Occurs keyword then [p.shown] else [] := by
  obtain ⟨honce, hshown⟩ := h
  have hle := length_reports_le (stack e.name) keyword e.name p.bytes
  have hreported : e.reported stack keyword = reports (stack e.name) keyword e.name p.bytes := by
    simp [Entry.reported, hname, hfile]
  rw [hreported]
  by_cases hoccurs : p.Occurs keyword
  · obtain ⟨m, hm⟩ := List.length_eq_one_iff.mp (honce.mpr hoccurs)
    have hline := hshown m (by rw [hm]; exact List.mem_singleton_self m)
    rw [if_pos hoccurs, hm, List.map_singleton, hline]
  · have hnone : (reports (stack e.name) keyword e.name p.bytes).length = 0 := by
      have := mt honce.mp hoccurs
      omega
    rw [if_neg hoccurs, List.length_eq_zero_iff.mp hnone, List.map_nil]

/-- A run over pages that are all reported as they should be prints the one-liners of those in which
the keyword occurs, in the order of the directories. -/
theorem wapropos_pages {files : Fin 9 → List (Bytes × Page)}
    (hname : ∀ i, ∀ x ∈ files i, (Entry.mk x.1 none).isSkipped = false)
    (h : ∀ i, ∀ x ∈ files i, x.2.ReportsExactly (stack x.1) keyword x.1) :
    ∃ ms, wapropos stack (fun i => some ((files i).map fun x => ⟨x.1, some x.2.bytes⟩))
        (some keyword) =
          (if ms = [] then ascii "nothing appropriate\n" else ms.flatMap Manual.text, 0) ∧
      ms.map (fun m => cstr m.nameOneLiner) =
        ((List.ofFn files).flatten.filter fun x => x.2.Occurs keyword).map fun x => x.2.shown := by
  refine ⟨_, wapropos_eq ?_, ?_⟩
  · intro i e he
    obtain ⟨x, -, rfl⟩ := List.mem_map.mp he
    exact .inr (by simp)
  · have hfiles :
        (List.ofFn fun i => (files i).map fun x => Entry.mk x.1 (some x.2.bytes)).flatten =
          (List.ofFn files).flatten.map fun x => ⟨x.1, some x.2.bytes⟩ := by
      rw [List.map_flatten, List.map_ofFn]
      rfl
    have hall : ∀ x ∈ (List.ofFn files).flatten,
        ((Entry.mk x.1 (some x.2.bytes)).reported stack keyword).map
          (fun m => cstr m.nameOneLiner) = if x.2.Occurs keyword then [x.2.shown] else [] := by
      intro x hx
      obtain ⟨entries, hentries, hx⟩ := List.mem_flatten.mp hx
      obtain ⟨i, rfl⟩ := List.mem_ofFn.mp hentries
      exact reported_page (hname i x hx) rfl (h i x hx)
    rw [hfiles, List.flatMap_map, List.map_flatMap]
    generalize (List.ofFn files).flatten = xs at hall ⊢
    induction xs with
    | nil => rfl
    | cons x xs ih =>
      rw [List.flatMap_cons, hall x List.mem_cons_self,
        ih fun y hy => hall y (List.mem_cons_of_mem x hy)]
      by_cases hoccurs : x.2.Occurs keyword <;> simp [hoccurs]

end Cs537.P1.Wapropos
