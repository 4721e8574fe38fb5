import Cs537.Lib.Tokens

/-!
# The parsing of a line

`main` copies a line, cuts it into tokens with `strsep` and counts the pipes among them;
`pipe_dealer` goes over the tokens again and cuts them into commands. Both agree for every mix of
blanks and pipes, as long as `args` has room for the tokens and `input_bkup` for the copy. A store
outside of an array or a block is undefined.
-/

namespace Cs537.P3

open Cs537.Lib

/-- The delimiters of `strsep` (`wsh.c:355`). -/
def isBlank (b : UInt8) : Bool := b == 32 || b == 9 || b == 10

def bar : Bytes := ascii "|"

def ampersand : Bytes := ascii "&"

/-! ## The copy of a line -/

/-- `input_size`, and so the size of the block that `main` allocates for `input_bkup`
(`wsh.c:342`). For a line that needs more `getline` makes `input_size` larger, but that is after
the block was allocated. -/
def inputSize : Nat := 256

/-- `strcpy(input_bkup, input)`, which stores a NUL behind the text, and the store of a NUL over its
last byte (`wsh.c:347-348`). -/
def backup (input : Bytes) : Option Bytes :=
  let text := cstr input
  if text ≠ [] ∧ text.length + 1 ≤ inputSize then some text.dropLast else none

/-! ## Cutting a line -/

/-- What `main` makes of a line: `args[0]` to `args[num_arg - 1]`, with a `NULL` behind them, the
indicators and `num_cmd`. -/
structure Line where
  args : List (Option Bytes)
  pipeIndicator : Bool
  bgIndicator : Bool
  numCmd : Nat
  deriving DecidableEq

namespace Line

/-- The variables in front of the loop (`wsh.c:333-336`). -/
def start : Line := ⟨[], false, false, 0⟩

/-- A round of the loop (`wsh.c:356-365`); undefined where `args` is full. -/
def read (l : Line) (token : Bytes) : Option Line :=
  if token = [] then some l
  else if l.args.length < 256 then
    some { l with
      args := l.args ++ [some token]
      pipeIndicator := l.pipeIndicator || token = bar
      numCmd := if token = bar then l.numCmd + 1 else l.numCmd }
  else none

/-- The copy, the loop, and what ends the array (`wsh.c:347-368`). -/
def split (input : Bytes) : Option Line :=
  (backup input).bind fun _ =>
    ((strsepAll isBlank (cstr input)).foldlM read start).bind fun l =>
      if l.args.length < 256 then some { l with numCmd := l.numCmd + 1 } else none

/-- The test for a background line (`wsh.c:369-372`); undefined for a line without tokens. -/
def background (l : Line) : Option Line :=
  match l.args.getLast? with
  | some (some token) =>
    if token = ampersand then
      some { l with args := l.args.dropLast ++ [none], bgIndicator := true }
    else some l
  | _ => none

/-- What `remove_jobs` and `exec_cmds` are called for (`wsh.c:347-372`). -/
def parse (input : Bytes) : Option Line := (split input).bind background

end Line

/-! ## Cutting a pipeline -/

/-- The array `cmds[num_cmd][256]` of `pipe_dealer`, of which a part has been written, and where the
next value goes. -/
structure Grouping where
  cmds : Nat → Nat → Option (Option Bytes)
  cmdI : Nat
  j : Nat

namespace Grouping

def start : Grouping := ⟨fun _ _ => none, 0, 0⟩

/-- `cmds[cmd_i][j] = arg`. -/
def store (numCmd : Nat) (g : Grouping) (arg : Option Bytes) : Option Grouping :=
  if g.cmdI < numCmd ∧ g.j < 256 then
    some { g with cmds := fun r k => if r = g.cmdI ∧ k = g.j then some arg else g.cmds r k }
  else none

/-- A round of the loop (`wsh.c:133-142`); `strcmp` is undefined for `NULL`. -/
def read (numCmd : Nat) (g : Grouping) (arg : Option Bytes) : Option Grouping :=
  match arg with
  | none => none
  | some token =>
    if token ≠ bar then (g.store numCmd (some token)).map fun g => { g with j := g.j + 1 }
    else (g.store numCmd none).map fun g => { g with cmdI := g.cmdI + 1, j := 0 }

end Grouping

/-- The commands that `pipe_dealer` makes of its arguments (`wsh.c:125-144`). -/
def pipeDealer (args : List (Option Bytes)) (numCmd : Nat) :
    Option (Nat → Nat → Option (Option Bytes)) :=
  (args.foldlM (Grouping.read numCmd) Grouping.start).bind fun g =>
    (g.store numCmd none).map Grouping.cmds

/-- A row of the array holds these tokens and a `NULL` behind them. -/
def Holds (cmds : Nat → Nat → Option (Option Bytes)) (r : Nat) (tokens : List Bytes) : Prop :=
  ∀ k ≤ tokens.length, cmds r k = some tokens[k]?

/-! ## The tokens -/

namespace Line

end Line

/-! ## The commands -/

/-- The array while `pipe_dealer` fills it: the commands that are complete, and the one that is not.
-/
structure Grouped (g : Grouping) (parts : List (List Bytes)) (part : List Bytes) : Prop where
  row : g.cmdI = parts.length
  column : g.j = part.length
  complete : ∀ r tokens, parts[r]? = some tokens → Holds g.cmds r tokens
  current : ∀ k < part.length, g.cmds parts.length k = some part[k]?

namespace Grouped

variable {numCmd : Nat} {g : Grouping} {parts : List (List Bytes)} {part : List Bytes}

/-- The next cell is written. -/
theorem store (h : Grouped g parts part) (hrow : parts.length < numCmd)
    (hcolumn : part.length < 256) (arg : Option Bytes) :
    ∃ cmds, g.store numCmd arg = some { g with cmds := cmds } ∧
      (∀ r tokens, parts[r]? = some tokens → Holds cmds r tokens) ∧
      (∀ k < part.length, cmds parts.length k = some part[k]?) ∧
      cmds parts.length part.length = some arg := by
  refine ⟨_, by rw [Grouping.store, h.row, h.column, if_pos ⟨hrow, hcolumn⟩], ?_, ?_, ?_⟩
  · intro r tokens hr k hk
    have hlt : r < parts.length := (List.getElem?_eq_some_iff.mp hr).1
    exact (if_neg (by omega)).trans (h.complete r tokens hr k hk)
  · intro k hk
    exact (if_neg (by omega)).trans (h.current k hk)
  · exact if_pos ⟨rfl, rfl⟩

/-- The `NULL` that ends a command makes it one of the complete ones. -/
theorem close {cmds : Nat → Nat → Option (Option Bytes)}
    (hcomplete : ∀ r tokens, parts[r]? = some tokens → Holds cmds r tokens)
    (hcurrent : ∀ k < part.length, cmds parts.length k = some part[k]?)
    (hnew : cmds parts.length part.length = some none) :
    ∀ r tokens, (parts ++ [part])[r]? = some tokens → Holds cmds r tokens := by
  intro r tokens hr
  by_cases hlast : r = parts.length
  · rw [hlast, List.getElem?_concat_length, Option.some.injEq] at hr
    subst hlast hr
    intro k hk
    by_cases hend : k = part.length
    · rw [hend, hnew]
      simp
    · exact hcurrent k (by omega)
  · have hlt := (List.getElem?_eq_some_iff.mp hr).1
    rw [List.length_append, List.length_singleton] at hlt
    rw [List.getElem?_append_left (by omega)] at hr
    exact hcomplete r tokens hr

end Grouped

end Cs537.P3
