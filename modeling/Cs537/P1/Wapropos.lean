import Cs537.Lib.Splice
import Cs537.Lib.Tokens

/-!
# `wapropos.c`

`main` goes through the files of nine directories and searches each for the keyword, line by line,
while `inName` or `inDescription` says that the line is in one of the two sections. `liner` counts
lines of the section `NAME`; the line for which it is 1 is taken apart with `strtok`, which writes
into the line before it is searched. A page is reported once, since the loop over its lines ends
there. The structure `manual` is a local variable, so its buffers hold anything at first.
-/

namespace Cs537.P1.Wapropos

open Cs537.Lib

/-- `struct Manual` (`wapropos.c:12-17`), with the memory of its two buffers. -/
structure Manual where
  name : Bytes
  sec : UInt8
  nameOneLiner : Bytes
  deriving DecidableEq

namespace Manual

/-- The structure in front of the first line of the file `dName` (`wapropos.c:45-48`). -/
def init (stack : Manual) (dName : Bytes) : Manual where
  name := splice stack.name 0 [0]
  sec := (cstr dName).getLastD 0
  nameOneLiner := splice stack.nameOneLiner 0 [0]

/-- `strcpy(dst, token)`, if there is a token. -/
def strcpy (dst : Bytes) : Option Bytes → Bytes
  | none => dst
  | some token => splice dst 0 (token ++ [0])

/-- What is printed for a page (`wapropos.c:85`). -/
def text (m : Manual) : Bytes :=
  cstr (m.name.drop 7) ++ 40 :: m.sec :: 41 :: (ascii " -" ++ cstr m.nameOneLiner)

end Manual

/-- The line in front of the section `NAME` (`wapropos.c:57`). -/
def nameHeader : Bytes := 27 :: (ascii "[1mNAME" ++ 27 :: ascii "[0m\n")

/-- The line in front of the section `DESCRIPTION` (`wapropos.c:60`). -/
def descriptionHeader : Bytes := 27 :: (ascii "[1mDESCRIPTION" ++ 27 :: ascii "[0m\n")

/-- How the line in front of a section begins (`wapropos.c:63`). -/
def headerMark : Bytes := 27 :: ascii "[1m"

/-- The variables of the loop over the lines of a file (`wapropos.c:45-53`). -/
structure Scan where
  manual : Manual
  inName : Bool
  liner : Int
  inDescription : Bool
  deriving DecidableEq

namespace Scan

/-- What a header changes (`wapropos.c:57-67`). -/
def enter (s : Scan) (line : Bytes) : Scan :=
  if cstr line = nameHeader then { s with inName := true }
  else if cstr line = descriptionHeader then { s with inDescription := true }
  else if strncmp line headerMark 4 = 0 then
    { s with inName := false, liner := 0, inDescription := false }
  else s

/-- Lines of the section `NAME` are counted (`wapropos.c:69-71`). -/
def count (s : Scan) : Scan := if s.inName then { s with liner := s.liner + 1 } else s

/-- The line is taken apart at its dashes if it is the first one (`wapropos.c:72-81`). -/
def tokens (s : Scan) (line : Bytes) : Scan × Bytes :=
  if s.liner = 1 then
    let name := strtokNext (· == 45) (cstr line)
    let oneLiner := strtokNext (· == 45) name.2
    ({ s with manual := { s.manual with
        name := Manual.strcpy s.manual.name name.1
        nameOneLiner := Manual.strcpy s.manual.nameOneLiner oneLiner.1 } },
      strtokLeft (· == 45) (cstr line) ++ [0])
  else (s, line)

/-- A round up to the search: the variables and the line that is searched. -/
def read (s : Scan) (line : Bytes) : Scan × Bytes := (s.enter line).count.tokens line

/-- The lines of the two sections are searched. -/
def searches (s : Scan) : Bool := s.inDescription || s.inName

end Scan

/-- The loop over the lines of a file (`wapropos.c:56-90`): what it reports. -/
def scanLines (keyword : Bytes) : List Bytes → Scan → List Manual
  | [], _ => []
  | line :: lines, s =>
    let r := s.read line
    if r.1.searches && strstrFinds r.2 keyword then [r.1.manual]
    else scanLines keyword lines r.1

/-- What is reported about the file `dName` with the given contents (`wapropos.c:45-91`); `stack` is
what the structure holds before. -/
def reports (stack : Manual) (keyword dName file : Bytes) : List Manual :=
  scanLines keyword ((fgetsAll 512 file).map (· ++ [0]))
    ⟨Manual.init stack dName, false, -1, false⟩

/-! ## The directories -/

/-- An entry of a directory, with the contents of the file if it can be opened. -/
structure Entry where
  name : Bytes
  contents : Option Bytes

/-- What has been printed, and how many pages were found. -/
structure Found where
  printed : Bytes
  found : Nat

/-- The entries that are skipped (`wapropos.c:35-37`). -/
def Entry.isSkipped (e : Entry) : Bool :=
  e.name = ascii "." || e.name = ascii ".." || e.name = ascii ".gitignore"

/-- A round of the loop over a directory (`wapropos.c:33-92`); an error is what has been printed
when the program exits, and its status. -/
def readEntry (stack : Bytes → Manual) (keyword : Bytes) (s : Found) (e : Entry) :
    Except (Bytes × Nat) Found :=
  if e.isSkipped then .ok s
  else
    match e.contents with
    | none => .error (s.printed ++ ascii "can't open file\n", 1)
    | some file =>
      let rs := reports (stack e.name) keyword e.name file
      .ok ⟨s.printed ++ rs.flatMap Manual.text, s.found + rs.length⟩

/-- A round of the loop over the directories (`wapropos.c:27-94`). -/
def readDirectory (stack : Bytes → Manual) (keyword : Bytes) (s : Found) :
    Option (List Entry) → Except (Bytes × Nat) Found
  | none => .error (s.printed ++ ascii "Can't open directory\n", 1)
  | some entries => entries.foldlM (readEntry stack keyword) s

/-- `main` (`wapropos.c:6-99`): what is printed, and the status. A directory is `none` if it cannot
be opened. -/
def wapropos (stack : Bytes → Manual) (dirs : Fin 9 → Option (List Entry))
    (keyword : Option Bytes) : Bytes × Nat :=
  match keyword with
  | none => (ascii "wapropos what?\n", 0)
  | some keyword =>
    match (List.ofFn dirs).foldlM (readDirectory stack keyword) ⟨[], 0⟩ with
    | .error stopped => stopped
    | .ok s => (if s.found = 0 then s.printed ++ ascii "nothing appropriate\n" else s.printed, 0)

end Cs537.P1.Wapropos
