import Mathlib.Logic.Relation
import Cs537.Lib.CInt
import Cs537.Lib.Decimal
import Cs537.Lib.Search
import Cs537.Lib.Splice
import Cs537.Lib.Tokens

/-!
# `wgroff.c`

`main` reads the input line by line into `line[1024]`. The first line is to be the title. The text
of other lines goes through `convert_line`, five loops that each replace one formatting mark by an
ANSI sequence, from the beginning of the line again after every replacement. `line` is the memory
from the pointer on; a replacement that makes the string longer takes bytes behind it. A run of
`main` ends with the output file, or it stops: the program exits, or the language does not say what
happens.
-/

namespace Cs537.P1

open Cs537.Lib

/-! ## `convert_line` -/

/-- A formatting mark `ori` and the text `sub` that replaces it. Replacing it takes a slash away and
makes the line longer by one byte at most. -/
structure Mark extends Replacement UInt8 where
  ori_ne_nil : ori ≠ []
  zero_notMem_ori : (0 : UInt8) ∉ ori
  zero_notMem_sub : (0 : UInt8) ∉ sub
  length_sub_le : sub.length ≤ ori.length + 1
  fewer : sub.count 47 < ori.count 47

/-- `/fB` (`wgroff.c:12-20`). -/
def bold : Mark :=
  ⟨⟨ascii "/fB", 27 :: ascii "[1m"⟩, by decide, by decide, by decide, by decide, by decide⟩

/-- `/fI` (`wgroff.c:22-30`). -/
def italic : Mark :=
  ⟨⟨ascii "/fI", 27 :: ascii "[3m"⟩, by decide, by decide, by decide, by decide, by decide⟩

/-- `/fU` (`wgroff.c:32-40`). -/
def underline : Mark :=
  ⟨⟨ascii "/fU", 27 :: ascii "[4m"⟩, by decide, by decide, by decide, by decide, by decide⟩

/-- `/fP` (`wgroff.c:42-50`). -/
def normal : Mark :=
  ⟨⟨ascii "/fP", 27 :: ascii "[0m"⟩, by decide, by decide, by decide, by decide, by decide⟩

/-- `//` (`wgroff.c:52-60`). -/
def slashes : Mark :=
  ⟨⟨ascii "//", ascii "/"⟩, by decide, by decide, by decide, by decide, by decide⟩

/-- The marks in the order of the loops of `convert_line`. -/
def marks : List Mark := [bold, italic, underline, normal, slashes]

/-- `memmove(mem + dst, mem + src, n)`. -/
def memmove (mem : Bytes) (dst src n : Nat) : Bytes := splice mem dst ((mem.drop src).take n)

/-- The line after the first `memmove` of a round, which moves what is behind the mark. -/
def Mark.makeRoom (m : Mark) (line : Bytes) (pos : Nat) : Bytes :=
  memmove line (pos + m.sub.length) (pos + m.ori.length)
    ((cstr (line.drop (pos + m.ori.length))).length + 1)

/-- The line after a round (`wgroff.c:17-18`). -/
def Mark.round (m : Mark) (line : Bytes) (pos : Nat) : Bytes :=
  splice (m.makeRoom line pos) pos m.sub

/-- Where `convert_line` is: the loops that have not ended, and the line. -/
structure Converting where
  left : List Mark
  line : Bytes

namespace Converting

/-- One test of a loop's condition, and the round behind it (`wgroff.c:10-61`). -/
def next (s : Converting) : Option Converting :=
  match s.left with
  | [] => none
  | m :: left =>
    match strstr s.line m.ori with
    | none => some ⟨left, s.line⟩
    | some pos => some ⟨m :: left, m.round s.line pos⟩

/-- The line as it is before a step and between the two `memmove`s of its round. -/
def held (s : Converting) : List Bytes :=
  s.line :: match s.left with
    | [] => []
    | m :: _ => ((strstr s.line m.ori).map (m.makeRoom s.line)).toList

/-- What `convert_line` goes through. -/
abbrev Reaches : Converting → Converting → Prop :=
  Relation.ReflTransGen fun s t => s.next = some t

end Converting

/-- `convert_line(line)` returns, and the line then holds `out`. -/
def Converts (line out : Bytes) : Prop :=
  ∃ line', Converting.Reaches ⟨marks, line⟩ ⟨[], line'⟩ ∧ cstr line' = out

/-- Up to `n` steps. -/
def Converting.run : Nat → Converting → Converting
  | 0, s => s
  | n + 1, s =>
    match s.next with
    | none => s
    | some t => run n t

/-- The steps that are left at most: every round takes a slash away, and every loop has a last test
of its condition. -/
def Converting.stepsLeft (s : Converting) : Nat := s.left.length + (cstr s.line).count 47

/-- The string that `convert_line` leaves in the line. -/
def convertLine (line : Bytes) : Bytes :=
  let start : Converting := ⟨marks, line⟩
  cstr (start.run start.stepsLeft).line

/-! ## The title -/

/-- The pattern of `wgroff.c:66`. -/
def isDate : Bytes → Bool
  | [y₁, y₂, y₃, y₄, s₁, m₁, m₂, s₂, d₁, d₂] =>
    [y₁, y₂, y₃, y₄, m₁, m₂, d₁, d₂].all isdigit && s₁ == 45 && s₂ == 45
  | _ => false

/-- What `main` makes of a line that is to be the title. -/
inductive Header where
  | ignored
  | improper (lineNumber : Nat)
  | title (command sec date : Bytes)
  deriving DecidableEq

/-- The checks of a line whose number is 1 (`wgroff.c:97-125`). -/
def checkTitle (line : Bytes) : Header :=
  if line.headD 0 = 35 then .ignored
  else if strncmp line (ascii ".TH ") 4 ≠ 0 then .improper 1
  else
    let command := strtokNext (· == 32) (cstr (line.drop 4))
    let sec := strtokNext (· == 32) command.2
    let date := strtokNext (fun b => b == 32 || b == 10) sec.2
    match command.1, sec.1, date.1 with
    | some command, some sec, some date =>
      if atoi sec < 1 ∨ 9 < atoi sec then .improper 1
      else if !isDate date then .improper 1
      else .title command sec date
    | _, _, _ => .improper 1

namespace Header

/-- What is printed before the program exits (`wgroff.c:104`). -/
def printed : Header → Bytes
  | improper lineNumber =>
    ascii "Improper formatting on line " ++ ascii (toString lineNumber) ++ ascii "\n"
  | _ => []

/-- The file that is opened for the output (`wgroff.c:129-131`). -/
def outputFile : Header → Option Bytes
  | title command sec _ => some ((command ++ 46 :: sec).take 1023)
  | _ => none

end Header

/-- What is done with the first line of the input (`wgroff.c:95-131`), which `fgets` reads up to its
end or 1023 bytes of it. -/
def readTitle (input : Bytes) : Option Header :=
  (fgets 1024 input).map fun r => checkTitle (r.1 ++ [0])

/-! ## `main` -/

/-- Why a run does not come to its end: the program exits and has printed a message, it passes the
null pointer `output_file` or the pointer `date_copy` without a value to a function, or an `int` is
counted up beyond its range. -/
inductive Stop where
  | exit (status : Nat) (printed : Bytes)
  | nullFile
  | noDate
  | overflow
  deriving DecidableEq

/-- The variables of `main` (`wgroff.c:88-91`). `output_file` is null, or the file that has been
opened with what was written to it; `date_copy` has no value at first. -/
structure Main where
  lineNumber : Nat
  outputFile : Option Bytes
  dateCopy : Option Bytes
  deriving DecidableEq

/-- The bound of the loop that pads the title, a `size_t` (`wgroff.c:139`). -/
def padBound (command sec : Bytes) : Int :=
  u64 (80 - 2 * ((command.length : Int) + sec.length + 2))

/-- The loop that pads the title (`wgroff.c:139-141`), `n` values of `i` left in the range of `int`:
what it writes. The comparison converts `i` to `size_t`. -/
def pad (bound : Int) : Nat → Int → Except Stop Bytes
  | 0, i => if u64 i < bound then .error .overflow else .ok []
  | n + 1, i =>
    if u64 i < bound then do
      let rest ← pad bound n (i + 1)
      return 32 :: rest
    else .ok []

/-- `toupper` of a byte of the section name. -/
def toupper (b : UInt8) : UInt8 := if 97 ≤ b ∧ b ≤ 122 then b - 32 else b

namespace Main

variable (fopen : Bytes → Bool)

/-- A `fputs`, `fputc` or `fprintf` to `output_file`. -/
def put (s : Main) (text : Bytes) : Except Stop Main :=
  match s.outputFile with
  | none => .error .nullFile
  | some written => .ok { s with outputFile := some (written ++ text) }

/-- `<command>(<section>)` (`wgroff.c:137`). -/
def titleName (command sec : Bytes) : Bytes := command ++ 40 :: (sec ++ [41])

/-- The title line of the output (`wgroff.c:137-142`). -/
def putTitle (s : Main) (command sec : Bytes) : Except Stop Main := do
  let s ← s.put (titleName command sec)
  let blanks ← pad (padBound command sec) (2 ^ 31 - 1) 0
  let s ← s.put blanks
  s.put (titleName command sec ++ [10])

/-- A first line that is no comment (`wgroff.c:100-143`). `fopen` says which files can be opened for
writing. -/
def readHeader (s : Main) (line : Bytes) : Except Stop Main :=
  match checkTitle line with
  | .ignored => .ok s
  | .improper n => .error (.exit 0 (Header.improper n).printed)
  | .title command sec date =>
    let s := { s with dateCopy := some date }
    if fopen ((command ++ 46 :: sec).take 1023) then
      putTitle { s with outputFile := some [] } command sec
    else .error (.exit 1 (ascii "error creating output file\n"))

/-- A section header (`wgroff.c:147-159`). -/
def readSection (s : Main) (line : Bytes) : Except Stop Main := do
  let s ← s.put (ascii "\n")
  let name := cstr (line.drop 4)
  if name = ascii "\n" then
    throw (.exit 0 (Header.improper s.lineNumber).printed)
  -- the last byte of the name is the end of the line
  s.put (27 :: (ascii "[1m" ++ (name.dropLast.map toupper ++ 27 :: ascii "[0m\n")))

/-- Any other line (`wgroff.c:161-165`). -/
def readText (s : Main) (line : Bytes) : Except Stop Main := do
  let s ← s.put (ascii "       ")
  s.put (convertLine line)

/-- A round of the loop over the lines (`wgroff.c:94-166`). -/
def readLine (s : Main) (line : Bytes) : Except Stop Main :=
  let s := { s with lineNumber := s.lineNumber + 1 }
  if line.headD 0 = 35 then .ok s
  else if s.lineNumber = 1 then s.readHeader fopen line
  else if strncmp line (ascii ".SH ") 4 = 0 then s.readSection line
  else s.readText line

/-- What follows the loop (`wgroff.c:167-177`). -/
def footer (s : Main) : Except Stop Main := do
  let s ← s.put (List.replicate 35 32)
  let date ← match s.dateCopy with
    | none => throw .noDate
    | some date => pure date
  let s ← s.put date
  let s ← s.put (List.replicate 35 32)
  s.put [10]

end Main

/-- `main`, for a file that is there and can be read (`wgroff.c:86-182`). -/
def wgroff (fopen : Bytes → Bool) (input : Bytes) : Except Stop Main := do
  let lines := (fgetsAll 1024 input).map (· ++ [0])
  let s ← lines.foldlM (Main.readLine fopen) ⟨0, none, none⟩
  s.footer

end Cs537.P1
