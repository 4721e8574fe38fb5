import Cs537.Lib.Loop
import Cs537.P1.Title

/-!
# The output file

The output file is opened when a title has been accepted, and only the line with number 1 can be
one. A comment is a line too, but it is skipped before that: behind it there is no title any more,
and the program writes to the null pointer. The title line is padded to 80 characters by a loop
whose bound is unsigned; where the names leave no room for blanks it is far too large.
-/

namespace Cs537.P1

open Cs537.Lib

/-! ## The lines of a file -/

/-- What the first call of `fgets` stores. -/
def firstRead (input : Bytes) : Bytes :=
  (firstLine input ++ (input.dropWhile (· ≠ 10)).take 1).take 1023

theorem fgets_eq {input : Bytes} (hne : input ≠ []) :
    ∃ rest, fgets 1024 input = some (firstRead input, rest) := by
  rw [fgets, if_neg hne]
  exact ⟨_, rfl⟩

/-- A file that is not empty has a first line. -/
theorem fgetsAll_eq {input : Bytes} (hne : input ≠ []) :
    ∃ behind, fgetsAll 1024 input = firstRead input :: behind := by
  obtain ⟨rest, hfgets⟩ := fgets_eq hne
  obtain ⟨b, input', hinput⟩ := List.exists_cons_of_ne_nil hne
  have hlength : input.length = input'.length + 1 := by rw [hinput, List.length_cons]
  refine ⟨fgetsFrom 1024 input'.length rest, ?_⟩
  rw [fgetsAll, hlength, fgetsFrom, hfgets]

theorem headD_firstRead {input : Bytes} (hne : input ≠ []) :
    (firstRead input ++ [0]).headD 0 = input.headD 0 := by
  obtain ⟨b, input, rfl⟩ := List.exists_cons_of_ne_nil hne
  by_cases hb : b = 10 <;> simp [firstRead, firstLine, hb]

/-- What is made of the first line, of a file that is not empty. -/
theorem checkTitle_of_readTitle {input : Bytes} {header : Header}
    (h : readTitle input = some header) :
    input ≠ [] ∧ checkTitle (firstRead input ++ [0]) = header := by
  have hne : input ≠ [] := by
    rintro rfl
    cases h
  obtain ⟨rest, hfgets⟩ := fgets_eq hne
  rw [readTitle, hfgets, Option.map_some, Option.some.injEq] at h
  exact ⟨hne, h⟩

namespace Main

variable {fopen : Bytes → Bool} {s : Main} {line text : Bytes}

/-! ## Writing -/

theorem put_eq {written : Bytes} (h : s.outputFile = some written) (text : Bytes) :
    s.put text = .ok { s with outputFile := some (written ++ text) } := by
  rw [put, h]

theorem put_none (h : s.outputFile = none) (text : Bytes) : s.put text = .error .nullFile := by
  rw [put, h]

/-- A stop that is no use of a pointer without a value. -/
def Orderly (e : Stop) : Prop := e ≠ .nullFile ∧ e ≠ .noDate

/-- A state with an open file that begins with `front`, and with a date. -/
structure Holding (front : Bytes) (s : Main) : Prop where
  started : 1 ≤ s.lineNumber
  file : ∃ more, s.outputFile = some (front ++ more)
  date : ∃ date, s.dateCopy = some date

variable {front : Bytes}

theorem Holding.put (h : s.Holding front) (text : Bytes) :
    Yields (Holding front) Orderly (s.put text) := by
  obtain ⟨more, hfile⟩ := h.file
  rw [put_eq hfile]
  exact ⟨h.started, ⟨more ++ text, by rw [List.append_assoc]⟩, h.date⟩

theorem Holding.readSection (h : s.Holding front) (line : Bytes) :
    Yields (Holding front) Orderly (s.readSection line) := by
  refine (h.put _).bind fun t ht => ?_
  simp only
  split
  · exact ⟨by simp, by simp⟩
  · exact ht.put _

theorem Holding.readText (h : s.Holding front) (line : Bytes) :
    Yields (Holding front) Orderly (s.readText line) :=
  (h.put _).bind fun _ ht => ht.put _

theorem Holding.footer (h : s.Holding front) : Yields (Holding front) Orderly s.footer := by
  refine (h.put _).bind fun t ht => ?_
  obtain ⟨date, hdate⟩ := ht.date
  rw [hdate]
  exact (ht.put _).bind fun _ hu => (hu.put _).bind fun _ hv => hv.put _

/-- A line behind the first one. -/
theorem readLine_later (hstarted : 1 ≤ s.lineNumber) (line : Bytes) : s.readLine fopen line =
    let t := { s with lineNumber := s.lineNumber + 1 }
    if line.headD 0 = 35 then .ok t
    else if strncmp line (ascii ".SH ") 4 = 0 then t.readSection line
    else t.readText line := by
  unfold Main.readLine
  simp only
  rw [if_neg (show ¬ s.lineNumber + 1 = 1 by omega)]

theorem Holding.readLine (h : s.Holding front) (line : Bytes) :
    Yields (Holding front) Orderly (s.readLine fopen line) := by
  have hcount : Holding front { s with lineNumber := s.lineNumber + 1 } :=
    ⟨Nat.le_add_left 1 _, h.file, h.date⟩
  rw [readLine_later h.started]
  simp only
  split
  · exact hcount
  · split
    · exact hcount.readSection line
    · exact hcount.readText line

/-- The other lines and the footer. -/
theorem Holding.rest (h : s.Holding front) (lines : List Bytes) :
    Yields (Holding front) Orderly
      (lines.foldlM (Main.readLine fopen) s >>= Main.footer) :=
  (Yields.foldlM (Holding front) h fun line _ _ ht => ht.readLine line).bind fun _ ht => ht.footer

/-! ## The title -/

theorem putTitle_eq {written blanks command sec : Bytes} (hfile : s.outputFile = some written)
    (hpad : pad (padBound command sec) (2 ^ 31 - 1) 0 = .ok blanks) :
    s.putTitle command sec = .ok { s with
      outputFile := some (written ++ (titleName command sec ++ (blanks ++
        (titleName command sec ++ [10])))) } := by
  simp only [putTitle, hpad, put, hfile, bind, Except.bind, List.append_assoc]

theorem putTitle_error {written command sec : Bytes} {e : Stop}
    (hfile : s.outputFile = some written)
    (hpad : pad (padBound command sec) (2 ^ 31 - 1) 0 = .error e) :
    s.putTitle command sec = .error e := by
  simp only [putTitle, hpad, put, hfile, bind, Except.bind]

/-- The loop writes blanks, or the counter overflows. -/
theorem pad_cases (bound : Int) (n : Nat) (i : Int) :
    (∃ k, pad bound n i = .ok (List.replicate k 32)) ∨ pad bound n i = .error .overflow := by
  induction n generalizing i with
  | zero =>
    rw [pad]
    split
    · exact .inr rfl
    · exact .inl ⟨0, rfl⟩
  | succ n ih =>
    rw [pad]
    split
    · rcases ih (i + 1) with ⟨k, hk⟩ | hover
      · rw [hk]
        exact .inl ⟨k + 1, rfl⟩
      · rw [hover]
        exact .inr rfl
    · exact .inl ⟨0, rfl⟩

/-- A first line that is no comment. -/
theorem readLine_first (hhead : line.headD 0 ≠ 35) :
    readLine fopen ⟨0, none, none⟩ line = readHeader fopen ⟨1, none, none⟩ line := by
  simp only [readLine, if_neg hhead, Nat.zero_add, if_true]

/-- After a first line that is no comment the file is open, or the program has stopped. -/
theorem readHeader_holding (hhead : line.headD 0 ≠ 35) :
    Yields (Holding []) Orderly (readHeader fopen ⟨1, none, none⟩ line) := by
  unfold readHeader
  rcases checkTitle_cases hhead with himproper | ⟨⟨command, sec, date, htitle⟩, -⟩
  · rw [himproper]
    exact ⟨by simp, by simp⟩
  · rw [htitle]
    simp only
    split
    · rcases pad_cases (padBound command sec) (2 ^ 31 - 1) 0 with ⟨k, hpad⟩ | hpad
      · rw [putTitle_eq rfl hpad]
        exact ⟨Nat.le_refl 1, ⟨_, rfl⟩, ⟨_, rfl⟩⟩
      · rw [putTitle_error rfl hpad]
        exact ⟨by simp, by simp⟩
    · exact ⟨by simp, by simp⟩

/-! ## Without a title -/

/-- The file has not been opened, and the first line is over. -/
structure Closed (s : Main) : Prop where
  started : 1 ≤ s.lineNumber
  file : s.outputFile = none

/-- Any line but a comment is written, and there is no file. -/
theorem Closed.readLine (h : s.Closed) (line : Bytes) :
    Yields Closed (· = .nullFile) (s.readLine fopen line) := by
  have hcount : Closed { s with lineNumber := s.lineNumber + 1 } := ⟨Nat.le_add_left 1 _, h.file⟩
  rw [readLine_later h.started]
  simp only
  split
  · exact hcount
  · split
    · rw [readSection, put_none hcount.file]
      rfl
    · rw [readText, put_none hcount.file]
      rfl

theorem Closed.rest (h : s.Closed) (lines : List Bytes) :
    lines.foldlM (Main.readLine fopen) s >>= Main.footer = .error .nullFile := by
  have hloop : Yields Closed (· = .nullFile) (lines.foldlM (Main.readLine fopen) s) :=
    Yields.foldlM Closed h fun line _ _ ht => ht.readLine line
  obtain ⟨e, herror, rfl⟩ : ∃ e, lines.foldlM (Main.readLine fopen) s >>= Main.footer = .error e ∧
      e = .nullFile := by
    refine (hloop.bind (Q := fun _ => False) fun t ht => ?_).error_of_no_value
    rw [footer, put_none ht.file]
    rfl
  exact herror

end Main

/-! ## Runs -/

/-- No write goes to the null pointer, and `date_copy` is not used without a value. -/
def UsesOpened (fopen : Bytes → Bool) (input : Bytes) : Prop :=
  wgroff fopen input ≠ .error .nullFile ∧ wgroff fopen input ≠ .error .noDate

theorem wgroff_nil (fopen : Bytes → Bool) : wgroff fopen [] = .error .nullFile := rfl

theorem wgroff_eq (fopen : Bytes → Bool) {input : Bytes} (hne : input ≠ []) :
    ∃ lines : List Bytes, wgroff fopen input =
      Main.readLine fopen ⟨0, none, none⟩ (firstRead input ++ [0]) >>= fun s =>
        lines.foldlM (Main.readLine fopen) s >>= Main.footer := by
  obtain ⟨behind, hlines⟩ := fgetsAll_eq hne
  refine ⟨behind.map (· ++ [0]), ?_⟩
  rw [wgroff, hlines, List.map_cons, List.foldlM_cons, bind_assoc]

/-- A run uses the output file and the date only after they are there, exactly if the input begins
with a line that is no comment. -/
theorem usesOpened_iff (fopen : Bytes → Bool) (input : Bytes) :
    UsesOpened fopen input ↔ input ≠ [] ∧ input.head? ≠ some 35 := by
  by_cases hne : input = []
  · rw [hne]
    exact iff_of_false (fun h => h.1 (wgroff_nil fopen)) (fun h => h.1 rfl)
  obtain ⟨lines, hrun⟩ := wgroff_eq fopen hne
  have hhead : (firstRead input ++ [0]).headD 0 = 35 ↔ input.head? = some 35 := by
    obtain ⟨b, input, rfl⟩ := List.exists_cons_of_ne_nil hne
    rw [headD_firstRead hne]
    simp
  by_cases hcomment : (firstRead input ++ [0]).headD 0 = 35
  · -- a comment, and nothing behind it can be the title
    have hfirst : Main.readLine fopen ⟨0, none, none⟩ (firstRead input ++ [0]) =
        .ok ⟨1, none, none⟩ := by
      unfold Main.readLine
      rw [if_pos hcomment]
    have hnull : wgroff fopen input = .error .nullFile := by
      rw [hrun, hfirst]
      exact Main.Closed.rest ⟨Nat.le_refl 1, rfl⟩ lines
    exact iff_of_false (fun h => h.1 hnull) (fun h => h.2 (hhead.mp hcomment))
  · have hfirst : Yields (Main.Holding []) Main.Orderly
        (Main.readHeader fopen ⟨1, none, none⟩ (firstRead input ++ [0])) :=
      Main.readHeader_holding hcomment
    rw [← Main.readLine_first hcomment] at hfirst
    have hyields : Yields (Main.Holding []) Main.Orderly (wgroff fopen input) := by
      rw [hrun]
      exact hfirst.bind fun s hs => hs.rest lines
    refine iff_of_true ?_ ⟨hne, fun h => hcomment (hhead.mpr h)⟩
    constructor
    · intro h
      rw [h] at hyields
      exact hyields.1 rfl
    · intro h
      rw [h] at hyields
      exact hyields.2 rfl

/-- A comment in front of the title. -/
theorem comment_before_title_unopened :
    ¬ UsesOpened (fun _ => true) (ascii "# a comment\n.TH wman 1 2023-10-10\n.SH NAME\n") := by
  intro h
  exact h.1 rfl

/-! ## The width of the title line -/

/-- The command and the section stand in the line one after the other, and something follows. -/
theorem title_split {line command sec date : Bytes}
    (h : checkTitle line = .title command sec date) :
    ∃ gap₁ gap₂ behind, cstr (line.drop 4) = gap₁ ++ (command ++ (gap₂ ++ (sec ++ behind))) ∧
      behind ≠ [] := by
  unfold checkTitle at h
  split at h
  · cases h
  split at h
  · cases h
  simp only at h
  rcases strtokNext_cases (· == 32) (cstr (line.drop 4)) with
    ⟨-, hcommand⟩ | ⟨gap₁, w₁, behind₁, hrest, -, hne₁, -, -, hcommand⟩
  · rw [hcommand] at h
    cases h
  rw [hcommand] at h
  rcases strtokNext_cases (· == 32) behind₁.tail with
    ⟨-, hsec⟩ | ⟨gap₂, w₂, behind₂, htail₁, -, hne₂, -, -, hsec⟩
  · rw [hsec] at h
    cases h
  rw [hsec] at h
  rcases strtokNext_cases (fun b => b == 32 || b == 10) behind₂.tail with
    ⟨-, hdate⟩ | ⟨gap₃, w₃, behind₃, htail₂, -, hne₃, -, -, hdate⟩
  · rw [hdate] at h
    cases h
  rw [hdate] at h
  simp only at h
  split at h
  · cases h
  split at h
  · cases h
  cases h
  have hbehind₂ : behind₂ ≠ [] := by
    rintro rfl
    exact hne₃ (List.append_eq_nil_iff.mp (List.append_eq_nil_iff.mp htail₂.symm).2).1
  obtain ⟨c, t, rfl⟩ : ∃ c t, behind₁ = c :: t := List.exists_cons_of_ne_nil (by
    rintro rfl
    exact hne₂ (List.append_eq_nil_iff.mp (List.append_eq_nil_iff.mp htail₁.symm).2).1)
  rw [List.tail_cons] at htail₁
  exact ⟨gap₁, c :: gap₂, behind₂, by rw [hrest, htail₁, List.cons_append], hbehind₂⟩

/-- A line end is the last byte that `fgets` stores. -/
theorem newline_notMem_dropLast (input : Bytes) : (10 : UInt8) ∉ (firstRead input).dropLast := by
  have hlength : (firstRead input).length - 1 ≤ (firstLine input).length := by
    simp only [firstRead, List.length_take, List.length_append]
    omega
  intro h
  rw [List.dropLast_eq_take, firstRead, List.take_take,
    List.take_append_of_le_length (by rw [← firstRead]; omega)] at h
  have hline := List.mem_takeWhile_imp (List.mem_of_mem_take h)
  simp at hline

/-- The names of a title stand in the line that was read, and something follows. -/
theorem title_within {input command sec date : Bytes}
    (h : readTitle input = some (.title command sec date)) : ∃ front gap behind,
      firstRead input = front ++ (command ++ (gap ++ sec)) ++ behind ∧ behind ≠ [] := by
  obtain ⟨-, hcheck⟩ := checkTitle_of_readTitle h
  obtain ⟨gap₁, gap₂, behind, hsplit, hbehind⟩ := title_split hcheck
  have hdrop : (firstRead input ++ [0]).drop 4 = (firstRead input).drop 4 ++ ([0] : Bytes).drop
      (4 - (firstRead input).length) := List.drop_append
  have hbegins : cstr ((firstRead input ++ [0]).drop 4) <+: (firstRead input).drop 4 := by
    by_cases hshort : (firstRead input).length < 4
    · rw [hdrop, List.drop_of_length_le (show ([0] : Bytes).length ≤ _ by simp; omega),
        List.append_nil]
      exact List.takeWhile_prefix _
    · rw [hdrop, Nat.sub_eq_zero_of_le (by omega), List.drop_zero, cstr_append_terminator]
      exact List.takeWhile_prefix _
  rw [hsplit] at hbegins
  obtain ⟨z, hz⟩ := hbegins
  refine ⟨(firstRead input).take 4 ++ gap₁, gap₂, behind ++ z, ?_, by simp [hbehind]⟩
  conv_lhs => rw [← List.take_append_drop 4 (firstRead input), ← hz]
  simp

/-- There is no line end in them. -/
theorem newline_notMem_title {input command sec date : Bytes}
    (h : readTitle input = some (.title command sec date)) :
    (10 : UInt8) ∉ command ∧ (10 : UInt8) ∉ sec := by
  obtain ⟨front, gap, behind, hparts, hbehind⟩ := title_within h
  have hlast := newline_notMem_dropLast input
  rw [hparts, List.dropLast_append_of_ne_nil hbehind] at hlast
  simp only [List.mem_append, not_or] at hlast
  exact ⟨hlast.1.2.1, hlast.1.2.2.2⟩

theorem length_title_le {input command sec date : Bytes}
    (h : readTitle input = some (.title command sec date)) :
    command.length + sec.length ≤ 1023 := by
  obtain ⟨front, gap, behind, hparts, -⟩ := title_within h
  have hread : (firstRead input).length ≤ 1023 := List.length_take_le _ _
  rw [hparts] at hread
  simp only [List.length_append] at hread
  omega

/-- The loop writes as many blanks as its bound says, if the counter gets there. -/
theorem pad_eq {bound i : Int} {n : Nat} (h0 : 0 ≤ i) (hbound : 0 ≤ bound) (hle : bound ≤ i + n)
    (hsize : i + n < 2 ^ 64) : pad bound n i = .ok (List.replicate (bound - i).toNat 32) := by
  induction n generalizing i with
  | zero =>
    rw [pad, u64_of_mem h0 (by omega), if_neg (by omega), show (bound - i).toNat = 0 by omega]
    rfl
  | succ n ih =>
    rw [pad, u64_of_mem h0 (by omega)]
    by_cases hlt : i < bound
    · rw [if_pos hlt, ih (by omega) (by omega) (by omega),
        show (bound - i).toNat = (bound - (i + 1)).toNat + 1 by omega]
      rfl
    · rw [if_neg hlt, show (bound - i).toNat = 0 by omega]
      rfl

/-- The counter overflows on the way to a bound that is too large. -/
theorem pad_overflow {bound i : Int} {n : Nat} (h0 : 0 ≤ i) (hlt : i + n < bound)
    (hbound : bound ≤ 2 ^ 64) : pad bound n i = .error .overflow := by
  induction n generalizing i with
  | zero => rw [pad, u64_of_mem h0 (by omega), if_pos (by omega)]
  | succ n ih =>
    rw [pad, u64_of_mem h0 (by omega), if_pos (by omega), ih (by omega) (by omega)]
    rfl

/-- The title line with `n` blanks between the names. -/
def titleLine (command sec : Bytes) (n : Nat) : Bytes :=
  Main.titleName command sec ++ (List.replicate n 32 ++ Main.titleName command sec)

/-- What `main` has done after the title has been accepted: the loop that pads it has come to its
end, and the first line of the output is the title, 80 characters wide. -/
def PutsTitle (fopen : Bytes → Bool) (input command sec : Bytes) : Prop :=
  ∃ s written, Main.readLine fopen ⟨0, none, none⟩ (firstRead input ++ [0]) = .ok s ∧
    s.outputFile = some written ∧ firstLine written ++ [10] = written ∧
    (firstLine written).length = 80 ∧ ∃ n, firstLine written = titleLine command sec n

theorem length_titleName (command sec : Bytes) :
    (Main.titleName command sec).length = command.length + sec.length + 2 := by
  simp only [Main.titleName, List.length_append, List.length_cons, List.length_nil]
  omega

/-- The state after the title, in terms of the padding. -/
theorem readLine_title {fopen : Bytes → Bool} {line command sec date : Bytes}
    (h : checkTitle line = .title command sec date)
    (hopen : fopen ((command ++ 46 :: sec).take 1023) = true) :
    Main.readLine fopen ⟨0, none, none⟩ line =
      Main.putTitle ⟨1, some [], some date⟩ command sec := by
  have hhead : line.headD 0 ≠ 35 := by
    intro hcomment
    rw [checkTitle, if_pos hcomment] at h
    cases h
  rw [Main.readLine_first hhead, Main.readHeader, h]
  simp only
  rw [if_pos hopen]

/-- If there is no room for both names, the padding does not end before its counter overflows. -/
theorem title_overflows {fopen : Bytes → Bool} {input command sec date : Bytes}
    (h : readTitle input = some (.title command sec date))
    (hopen : fopen ((command ++ 46 :: sec).take 1023) = true)
    (hlong : 38 < command.length + sec.length) :
    Main.readLine fopen ⟨0, none, none⟩ (firstRead input ++ [0]) = .error .overflow := by
  obtain ⟨-, hcheck⟩ := checkTitle_of_readTitle h
  have hlength := length_title_le h
  have hbound : padBound command sec =
      2 ^ 64 + (80 - 2 * ((command.length : Int) + sec.length + 2)) := by
    unfold padBound u64
    omega
  rw [readLine_title hcheck hopen, Main.putTitle_error rfl]
  exact pad_overflow (Int.le_refl 0) (by omega) (by omega)

theorem length_titleLine (command sec : Bytes) (n : Nat) :
    (titleLine command sec n).length = 2 * (command.length + sec.length + 2) + n := by
  simp only [titleLine, List.length_append, length_titleName, List.length_replicate]
  omega

/-- If there is room, the file holds a line of 80 characters after the title has been read. -/
theorem readLine_room {fopen : Bytes → Bool} {input command sec date : Bytes}
    (h : readTitle input = some (.title command sec date))
    (hopen : fopen ((command ++ 46 :: sec).take 1023) = true)
    (hroom : command.length + sec.length ≤ 38) : ∃ n, (titleLine command sec n).length = 80 ∧
      Main.readLine fopen ⟨0, none, none⟩ (firstRead input ++ [0]) =
        .ok ⟨1, some (titleLine command sec n ++ [10]), some date⟩ := by
  obtain ⟨-, hcheck⟩ := checkTitle_of_readTitle h
  have hbound : padBound command sec = 80 - 2 * ((command.length : Int) + sec.length + 2) :=
    u64_of_mem (by omega) (by omega)
  have hpad : pad (padBound command sec) (2 ^ 31 - 1) 0 =
      .ok (List.replicate (padBound command sec - 0).toNat 32) :=
    pad_eq (Int.le_refl 0) (by omega) (by omega) (by omega)
  refine ⟨(padBound command sec - 0).toNat, ?_, ?_⟩
  · rw [length_titleLine]
    omega
  · rw [readLine_title hcheck hopen, Main.putTitle_eq rfl hpad, List.nil_append, titleLine]
    simp only [List.append_assoc]

/-- The title line is the first line of a file that begins with it. -/
theorem firstLine_titleLine {input command sec date : Bytes}
    (h : readTitle input = some (.title command sec date)) (n : Nat) (more : Bytes) :
    firstLine (titleLine command sec n ++ 10 :: more) = titleLine command sec n := by
  obtain ⟨hcommand, hsec⟩ := newline_notMem_title h
  have hname : (10 : UInt8) ∉ Main.titleName command sec := by
    simp [Main.titleName, hcommand, hsec]
  have hfree : ∀ b ∈ titleLine command sec n, decide (b ≠ 10) = true := by
    intro b hb
    rw [decide_eq_true_eq]
    rintro rfl
    simp [titleLine, hname] at hb
  rw [firstLine, List.takeWhile_append_of_pos hfree, List.takeWhile_cons_of_neg (by simp),
    List.append_nil]

/-- The title line is 80 characters wide exactly if there is room for both names. -/
theorem putsTitle_iff {fopen : Bytes → Bool} {input command sec date : Bytes}
    (h : readTitle input = some (.title command sec date))
    (hopen : fopen ((command ++ 46 :: sec).take 1023) = true) :
    PutsTitle fopen input command sec ↔ command.length + sec.length ≤ 38 := by
  constructor
  · rintro ⟨s, written, -, -, -, hlength, n, hline⟩
    have hwidth := length_titleLine command sec n
    rw [← hline, hlength] at hwidth
    omega
  · intro hroom
    obtain ⟨n, hlength, hread⟩ := readLine_room h hopen hroom
    have hline := firstLine_titleLine h n []
    exact ⟨_, _, hread, rfl, by rw [hline], by rw [hline, hlength], n, hline⟩

/-- A run that comes to its end leaves the title line in front of everything else. -/
theorem wgroff_firstLine {fopen : Bytes → Bool} {input command sec date : Bytes} {s : Main}
    (h : readTitle input = some (.title command sec date))
    (hopen : fopen ((command ++ 46 :: sec).take 1023) = true)
    (hroom : command.length + sec.length ≤ 38) (hrun : wgroff fopen input = .ok s) :
    ∃ out n, s.outputFile = some out ∧ firstLine out = titleLine command sec n ∧
      (firstLine out).length = 80 := by
  obtain ⟨hne, -⟩ := checkTitle_of_readTitle h
  obtain ⟨n, hlength, hread⟩ := readLine_room h hopen hroom
  obtain ⟨lines, hwhole⟩ := wgroff_eq fopen hne
  have hstart : Main.Holding (titleLine command sec n ++ [10])
      ⟨1, some (titleLine command sec n ++ [10]), some date⟩ :=
    ⟨Nat.le_refl 1, ⟨[], by rw [List.append_nil]⟩, ⟨date, rfl⟩⟩
  have hholds : Yields _ Main.Orderly (lines.foldlM (Main.readLine fopen) _ >>= Main.footer) :=
    hstart.rest lines
  rw [hread] at hwhole
  change wgroff fopen input = (lines.foldlM (Main.readLine fopen) _ >>= Main.footer) at hwhole
  rw [← hwhole, hrun] at hholds
  obtain ⟨more, hfile⟩ := hholds.file
  have hline := firstLine_titleLine h n more
  rw [List.append_assoc, List.singleton_append] at hfile
  exact ⟨_, n, hfile, hline, by rw [hline, hlength]⟩

/-- The theorem at a title. -/
theorem putsTitle_iff_wman :
    PutsTitle (fun _ => true) (ascii ".TH wman 1 2023-10-10\n.SH NAME\n") (ascii "wman")
      (ascii "1") := by
  have hread : readTitle (ascii ".TH wman 1 2023-10-10\n.SH NAME\n") =
      some (.title (ascii "wman") (ascii "1") (ascii "2023-10-10")) := by decide
  exact (putsTitle_iff hread rfl).mpr (by decide)

/-- A first line with a command of 40 letters. -/
def longTitle : Bytes := ascii ".TH " ++ (List.replicate 40 97 ++ ascii " 1 2023-10-10\n")

/-- It is accepted, but the padding does not end. -/
theorem long_title_overflows :
    readTitle longTitle = some (.title (List.replicate 40 97) (ascii "1") (ascii "2023-10-10")) ∧
      Main.readLine (fun _ => true) ⟨0, none, none⟩ (firstRead longTitle ++ [0]) =
        .error .overflow ∧
      ¬ PutsTitle (fun _ => true) longTitle (List.replicate 40 97) (ascii "1") := by
  have hread : readTitle longTitle =
      some (.title (List.replicate 40 97) (ascii "1") (ascii "2023-10-10")) := by decide
  have hover : Main.readLine (fun _ => true) ⟨0, none, none⟩ (firstRead longTitle ++ [0]) =
      .error .overflow := title_overflows hread rfl (by decide)
  refine ⟨hread, hover, ?_⟩
  rintro ⟨s, written, hok, -⟩
  rw [hover] at hok
  cases hok

end Cs537.P1
