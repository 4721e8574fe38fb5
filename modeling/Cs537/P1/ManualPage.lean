import Cs537.P1.FixedPoint
import Cs537.P1.Output
import Cs537.P1.Wapropos

/-!
# Manual pages

The form of the files that `wgroff` writes and `wapropos` reads: a title line, the sections with a
blank line and a heading in bold in front of each, and a line with the date. One of the sections is
`NAME`, and its first line is the name of the page and a one-liner with a dash between them. A run
of `wgroff` over a title and sections without comments writes such a file.
-/

namespace Cs537.P1

open Cs537.Lib

/-- A section: its name, and the text of its lines. -/
structure Section where
  name : Bytes
  texts : List Bytes

/-- The line in front of a section, in bold. -/
def heading (name : Bytes) : Bytes := 27 :: (ascii "[1m" ++ (name ++ 27 :: ascii "[0m"))

/-- Text that is indented by 7 blanks. -/
def indented (text : Bytes) : Bytes := ascii "       " ++ text

/-- The lines of a section with its heading, without their ends. -/
def Section.lines (s : Section) : List Bytes := heading s.name :: s.texts.map indented

/-- The contents of a manual page. -/
structure PageText where
  command : Bytes
  sec : Bytes
  blanks : Nat
  before : List Section
  page : Bytes
  oneLiner : Bytes
  more : List Bytes
  after : List Section
  date : Bytes

namespace PageText

variable (p : PageText)

/-- `page - one-liner`. -/
def nameText : Bytes := p.page ++ (ascii " - " ++ p.oneLiner)

def nameSection : Section := ⟨ascii "NAME", p.nameText :: p.more⟩

def sections : List Section := p.before ++ p.nameSection :: p.after

def title : Bytes := titleLine p.command p.sec p.blanks

/-- The date in the middle of the last line. -/
def footer : Bytes := List.replicate 35 32 ++ (p.date ++ List.replicate 35 32)

/-- The lines of a section with the blank line in front of it. -/
def spaced (s : Section) : List Bytes := [] :: s.lines

/-- The lines of the page, without their ends. -/
def lines : List Bytes := p.title :: (p.sections.flatMap spaced ++ [p.footer])

end PageText

/-- A manual page: the dash in front of the one-liner is the first separator of its line, `NAME` is
the name of one section only, the last line has a date, and every line is shorter than 511 bytes. -/
structure Page extends PageText where
  separator : ¬ ascii " - " <:+: toPageText.page ++ ascii " -"
  name_ne : ∀ s ∈ toPageText.before ++ toPageText.after, s.name ≠ ascii "NAME"
  isDate_date : isDate toPageText.date = true
  length_lt : ∀ line ∈ toPageText.lines, line.length < 511
  newline_notMem : ∀ line ∈ toPageText.lines, (10 : UInt8) ∉ line
  zero_notMem : ∀ line ∈ toPageText.lines, (0 : UInt8) ∉ line

namespace Page

variable (p : Page)

/-- The file. -/
def bytes : Bytes := p.lines.flatMap (· ++ [10])

/-- `fgets` with room for 511 bytes reads the page line by line. -/
theorem fgetsAll_bytes : fgetsAll 512 p.bytes = p.lines.map (· ++ [10]) :=
  fgetsAll_lines p.newline_notMem fun line hline => Nat.succ_lt_succ (p.length_lt line hline)

/-- The lines in front of the heading of `NAME`. -/
def front : List Bytes := p.title :: (p.before.flatMap PageText.spaced ++ [[]])

/-- The lines behind the first one of `NAME`. -/
def rest : List Bytes :=
  p.more.map indented ++ (p.after.flatMap PageText.spaced ++ [p.footer])

theorem lines_eq :
    p.lines = p.front ++ heading (ascii "NAME") :: indented p.nameText :: p.rest := by
  simp [PageText.lines, PageText.sections, PageText.nameSection, PageText.spaced, Section.lines,
    front, rest]

/-- A keyword occurs in a line of `NAME` or `DESCRIPTION`. -/
def Occurs (keyword : Bytes) : Prop :=
  ∃ s ∈ p.sections, (s.name = ascii "NAME" ∨ s.name = ascii "DESCRIPTION") ∧
    ∃ text ∈ s.texts, keyword <:+: indented text ++ [10]

instance (keyword : Bytes) : Decidable (p.Occurs keyword) :=
  inferInstanceAs (Decidable (∃ s ∈ p.sections, _ ∧ ∃ text ∈ s.texts, _))

end Page

/-! ## What `wgroff` writes -/

/-- A line as `fgets` stores it. -/
def stored (line : Bytes) : Bytes := line ++ [10] ++ [0]

theorem cstr_stored {line : Bytes} (h : (0 : UInt8) ∉ line) :
    cstr (stored line) = line ++ [10] := by
  refine cstr_append_zero ?_ []
  simp [h]

/-- A test for the beginning of a line. -/
theorem strncmp_stored {line front : Bytes} (h : (0 : UInt8) ∉ line) (hzero : (0 : UInt8) ∉ front)
    (hnewline : (10 : UInt8) ∉ front) :
    strncmp (stored line) front front.length = 0 ↔ front <+: line := by
  rw [strncmp_eq_zero_iff, cstr_stored h, cstr_of_zero_notMem hzero, List.take_length,
    ← prefix_append_cons_iff hnewline, List.prefix_iff_eq_take]
  exact eq_comm

/-- The text that `convert_line` makes of a text. -/
def convertText (text : Bytes) : Bytes := squeeze (onePass fonts text)

theorem convertLine_stored {text : Bytes} (h : (0 : UInt8) ∉ text) :
    convertLine (stored text) = convertText text ++ [10] := by
  have hnewline : ∀ r ∈ fonts, (10 : UInt8) ∉ r.ori := by decide
  have hzero : (0 : UInt8) ∈ stored text := by simp [stored]
  have hconverts := (converts_iff hzero _).mp (converts_convertLine hzero)
  rw [hconverts, cstr_stored h, fonts_fonts.onePass_append_cons hnewline,
    squeeze_append_cons (by decide)]
  rfl

namespace Section

/-- A section as it stands in the input of `wgroff`. -/
def source (s : Section) : List Bytes := (ascii ".SH " ++ s.name) :: s.texts

/-- The section in the output. -/
def converted (s : Section) : Section := ⟨s.name.map toupper, s.texts.map convertText⟩

/-- A section of the input: it has a name, and its lines are neither comments nor headers. -/
structure Plain (s : Section) : Prop where
  name_ne : s.name ≠ []
  zero_notMem : ∀ line ∈ s.source, (0 : UInt8) ∉ line
  comment : ∀ text ∈ s.texts, text.head? ≠ some 35
  header : ∀ text ∈ s.texts, ¬ ascii ".SH " <+: text

end Section

namespace Main

/-- A run behind the title: what has been written, and the date. -/
structure Writing (written date : Bytes) (s : Main) : Prop where
  started : 1 ≤ s.lineNumber
  file : s.outputFile = some written
  date : s.dateCopy = some date

variable {s : Main} {written date : Bytes}

theorem Writing.put (h : s.Writing written date) (text : Bytes) :
    ∃ t, s.put text = .ok t ∧ t.Writing (written ++ text) date :=
  ⟨_, put_eq h.file text, h.started, rfl, h.date⟩

theorem Writing.readSection (h : s.Writing written date) {name : Bytes} (hne : name ≠ [])
    (hzero : (0 : UInt8) ∉ name) : ∃ t, s.readSection (stored (ascii ".SH " ++ name)) = .ok t ∧
      t.Writing (written ++ (10 :: (heading (name.map toupper) ++ [10]))) date := by
  have hname : cstr ((stored (ascii ".SH " ++ name)).drop 4) = name ++ [10] :=
    cstr_stored hzero
  have hsome : name ++ [10] ≠ ascii "\n" := by
    intro h
    have := congrArg List.length h
    simp [ascii, hne] at this
  obtain ⟨t, ht, hwrote⟩ := h.put (ascii "\n")
  obtain ⟨u, hu, hwrote'⟩ := hwrote.put
    (27 :: (ascii "[1m" ++ (name.map toupper ++ 27 :: ascii "[0m\n")))
  refine ⟨u, ?_, ?_⟩
  · rw [← hu]
    simp only [Main.readSection, ht, hname, bind, Except.bind, if_neg hsome, List.dropLast_concat]
  · have hend : ascii "[0m\n" = ascii "[0m" ++ [10] := by decide
    simpa [heading, hend, show ascii "\n" = [10] by decide] using hwrote'

theorem Writing.readText (h : s.Writing written date) {text : Bytes} (hzero : (0 : UInt8) ∉ text) :
    ∃ t, s.readText (stored text) = .ok t ∧
      t.Writing (written ++ (indented (convertText text) ++ [10])) date := by
  obtain ⟨t, ht, hwrote⟩ := h.put (ascii "       ")
  obtain ⟨u, hu, hwrote'⟩ := hwrote.put (convertLine (stored text))
  refine ⟨u, ?_, ?_⟩
  · rw [Main.readText, ht]
    exact hu
  · rw [convertLine_stored hzero] at hwrote'
    simpa [indented] using hwrote'

/-- A line that is no comment, behind the first one. -/
theorem Writing.readLine (h : s.Writing written date) (fopen : Bytes → Bool) {line : Bytes}
    (hzero : (0 : UInt8) ∉ line) (hcomment : line.head? ≠ some 35) :
    ∃ t : Main, t.Writing written date ∧ s.readLine fopen (stored line) =
      if ascii ".SH " <+: line then t.readSection (stored line) else t.readText (stored line) := by
  refine ⟨{ s with lineNumber := s.lineNumber + 1 }, ⟨by simp, h.file, h.date⟩, ?_⟩
  have hhead : (stored line).headD 0 ≠ 35 := by
    cases line with
    | nil => decide
    | cons b line => simpa [stored] using hcomment
  have hfour := strncmp_stored hzero (by decide : (0 : UInt8) ∉ ascii ".SH ") (by decide)
  have hlength : (ascii ".SH ").length = 4 := by decide
  rw [hlength] at hfour
  rw [readLine_later h.started]
  simp only [if_neg hhead, hfour]

/-- The lines of a section. -/
theorem Writing.texts (h : s.Writing written date) (fopen : Bytes → Bool) {texts : List Bytes}
    (hzero : ∀ text ∈ texts, (0 : UInt8) ∉ text) (hcomment : ∀ text ∈ texts, text.head? ≠ some 35)
    (hheader : ∀ text ∈ texts, ¬ ascii ".SH " <+: text) :
    ∃ t, (texts.map stored).foldlM (Main.readLine fopen) s = .ok t ∧
      t.Writing (written ++ ((texts.map convertText).map indented).flatMap (· ++ [10])) date := by
  induction texts generalizing s written with
  | nil => exact ⟨s, rfl, by simpa using h⟩
  | cons text texts ih =>
    obtain ⟨t, ht, hround⟩ := h.readLine fopen (hzero text List.mem_cons_self)
      (hcomment text List.mem_cons_self)
    rw [if_neg (hheader text List.mem_cons_self)] at hround
    obtain ⟨u, hu, hwrote⟩ := ht.readText (hzero text List.mem_cons_self)
    obtain ⟨v, hv, hrest⟩ := ih hwrote (fun x hx => hzero x (List.mem_cons_of_mem text hx))
      (fun x hx => hcomment x (List.mem_cons_of_mem text hx))
      (fun x hx => hheader x (List.mem_cons_of_mem text hx))
    refine ⟨v, ?_, ?_⟩
    · rw [List.map_cons, List.foldlM_cons, hround, hu]
      exact hv
    · simpa using hrest

/-- A section. -/
theorem Writing.sectionLines (h : s.Writing written date) (fopen : Bytes → Bool) {sec : Section}
    (hsec : sec.Plain) :
    ∃ t, (sec.source.map stored).foldlM (Main.readLine fopen) s = .ok t ∧
      t.Writing (written ++ (PageText.spaced sec.converted).flatMap (· ++ [10])) date := by
  have hheader : (0 : UInt8) ∉ ascii ".SH " ++ sec.name := hsec.zero_notMem _ List.mem_cons_self
  have hname : (0 : UInt8) ∉ sec.name := fun h0 => hheader (List.mem_append_right _ h0)
  obtain ⟨t, ht, hround⟩ := h.readLine fopen hheader (by simp [ascii])
  rw [if_pos (List.prefix_append _ _)] at hround
  obtain ⟨u, hu, hwrote⟩ := ht.readSection hsec.name_ne hname
  obtain ⟨v, hv, hrest⟩ := hwrote.texts fopen
    (fun text htext => hsec.zero_notMem text (List.mem_cons_of_mem _ htext)) hsec.comment
    hsec.header
  refine ⟨v, ?_, ?_⟩
  · rw [Section.source, List.map_cons, List.foldlM_cons, hround, hu]
    exact hv
  · simpa [PageText.spaced, Section.lines, Section.converted] using hrest

/-- The sections. -/
theorem Writing.sections (h : s.Writing written date) (fopen : Bytes → Bool) {secs : List Section}
    (hsecs : ∀ sec ∈ secs, sec.Plain) :
    ∃ t, ((secs.flatMap Section.source).map stored).foldlM (Main.readLine fopen) s = .ok t ∧
      t.Writing (written ++ ((secs.map Section.converted).flatMap PageText.spaced).flatMap
        (· ++ [10])) date := by
  induction secs generalizing s written with
  | nil => exact ⟨s, rfl, by simpa using h⟩
  | cons sec secs ih =>
    obtain ⟨t, ht, hwrote⟩ := h.sectionLines fopen (hsecs sec List.mem_cons_self)
    obtain ⟨u, hu, hrest⟩ := ih hwrote fun x hx => hsecs x (List.mem_cons_of_mem sec hx)
    refine ⟨u, ?_, ?_⟩
    · rw [List.flatMap_cons, List.map_append, List.foldlM_append, ht]
      exact hu
    · simpa using hrest

theorem Writing.footer (h : s.Writing written date) : ∃ t, s.footer = .ok t ∧
    t.Writing (written ++ (List.replicate 35 32 ++ (date ++ List.replicate 35 32) ++ [10]))
      date := by
  obtain ⟨t, ht, hblanks⟩ := h.put (List.replicate 35 32)
  obtain ⟨u, hu, hdate⟩ := hblanks.put date
  obtain ⟨v, hv, hblanks'⟩ := hdate.put (List.replicate 35 32)
  obtain ⟨w, hw, hend⟩ := hblanks'.put [10]
  refine ⟨w, ?_, by simpa using hend⟩
  simp only [Main.footer, ht, hblanks.date, hu, hv, hw, bind, Except.bind, pure, Except.pure]

end Main

/-- The output file of a run over a title and sections is a manual page with these sections. -/
theorem wgroff_page {fopen : Bytes → Bool} {first : Bytes} {secs : List Section} {p : PageText}
    (hnewline : ∀ line ∈ first :: secs.flatMap Section.source, (10 : UInt8) ∉ line)
    (hlength : ∀ line ∈ first :: secs.flatMap Section.source, line.length < 1023)
    (hsecs : ∀ sec ∈ secs, sec.Plain)
    (htitle : readTitle ((first :: secs.flatMap Section.source).flatMap (· ++ [10])) =
      some (.title p.command p.sec p.date))
    (hopen : fopen ((p.command ++ 46 :: p.sec).take 1023) = true)
    (hroom : p.command.length + p.sec.length ≤ 38)
    (hsections : p.sections = secs.map Section.converted) :
    ∃ n s, wgroff fopen ((first :: secs.flatMap Section.source).flatMap (· ++ [10])) = .ok s ∧
      s.outputFile = some ({ p with blanks := n }.lines.flatMap (· ++ [10])) := by
  obtain ⟨input, hinput⟩ : ∃ input, input = (first :: secs.flatMap Section.source).flatMap
    (· ++ [10]) := ⟨_, rfl⟩
  rw [← hinput] at htitle ⊢
  have hlines : (fgetsAll 1024 input).map (· ++ [0]) =
      stored first :: (secs.flatMap Section.source).map stored := by
    rw [hinput, fgetsAll_lines hnewline fun line hline => Nat.succ_lt_succ (hlength line hline),
      List.map_map]
    rfl
  have hfirst : firstRead input ++ [0] = stored first := by
    have hline := fgets_line (hnewline first List.mem_cons_self)
      (Nat.succ_lt_succ (hlength first List.mem_cons_self))
      ((secs.flatMap Section.source).flatMap (· ++ [10]))
    have hwhole : input = first ++ 10 :: (secs.flatMap Section.source).flatMap (· ++ [10]) := by
      rw [hinput, List.flatMap_cons, List.append_assoc, List.singleton_append]
    obtain ⟨rest, hread⟩ : ∃ rest, fgets 1024 input = some (firstRead input, rest) :=
      fgets_eq (by simp [hwhole])
    rw [hwhole, hline, ← hwhole] at hread
    rw [← (Prod.mk.inj (Option.some.inj hread)).1]
    rfl
  obtain ⟨n, -, hread⟩ := readLine_room htitle hopen hroom
  rw [hfirst] at hread
  have hstart : Main.Writing (titleLine p.command p.sec n ++ [10]) p.date
      ⟨1, some (titleLine p.command p.sec n ++ [10]), some p.date⟩ := ⟨Nat.le_refl 1, rfl, rfl⟩
  obtain ⟨t, ht, hwrote⟩ := hstart.sections fopen hsecs
  obtain ⟨u, hu, hend⟩ := hwrote.footer
  refine ⟨n, u, ?_, ?_⟩
  · rw [wgroff, hlines]
    simp only [List.foldlM_cons, hread, bind, Except.bind]
    simp only [ht]
    exact hu
  · rw [hend.file, ← hsections]
    simp [PageText.lines, PageText.title, PageText.footer, PageText.sections, PageText.nameSection,
      PageText.nameText]

/-- A file with a mark in its text. -/
example : (wgroff (fun _ => true)
      (ascii ".TH wman 1 2023-10-10\n.SH Name\nwman - a /fBsimple/fP program\n")).toOption.bind
        (·.outputFile) =
    some (PageText.lines ⟨ascii "wman", ascii "1", 66, [], ascii "wman",
      ascii "a " ++ 27 :: (ascii "[1msimple" ++ 27 :: ascii "[0m program"), [], [],
      ascii "2023-10-10"⟩ |>.flatMap (· ++ [10])) := by
  decide +kernel

end Cs537.P1
