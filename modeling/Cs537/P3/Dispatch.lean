import Mathlib.Data.List.ReduceOption
import Cs537.P3.Parsing

/-!
# What a line dispatches

`exec_cmds` chooses between the built-in commands, a pipeline and a single program. A `&` at the end
of the line is replaced by `NULL` in `args` but still counted by `num_arg`: the test of `execvp` for
the end of its arguments sees it gone, the built-in commands and `pipe_dealer` do not.
-/

namespace Cs537.P3

open Cs537.Lib

/-! ## `exec_cmds` -/

/-- The commands that the shell runs itself. -/
inductive Builtin where
  | exit
  | cd
  | jobs
  | fg
  | bg
  deriving DecidableEq

/-- The comparisons with `args[0]` (`wsh.c:191-255`). -/
def builtin (name : Bytes) : Option Builtin :=
  if name = ascii "exit" then some .exit
  else if name = ascii "cd" then some .cd
  else if name = ascii "jobs" then some .jobs
  else if name = ascii "fg" then some .fg
  else if name = ascii "bg" then some .bg
  else none

/-- What `exec_cmds` runs: a built-in command, which looks at `num_arg`, a program with its
arguments, or a pipeline with the array that `pipe_dealer` makes. -/
inductive Dispatched where
  | builtin (b : Builtin) (numArg : Nat)
  | program (argv : List Bytes)
  | pipeline (numCmd : Nat) (cmds : Nat → Nat → Option (Option Bytes))

/-- The arguments that `execvp` finds in front of the first `NULL`. -/
def argv (args : List (Option Bytes)) : List Bytes := (args.takeWhile Option.isSome).reduceOption

namespace Line

/-- The array `path` has room for `/bin/`, the name of a program and a NUL (`wsh.c:280`). -/
def PathOk (name : Bytes) : Prop := 5 + name.length + 1 ≤ 256

instance (name : Bytes) : Decidable (PathOk name) := inferInstanceAs (Decidable (_ ≤ _))

/-- `exec_cmds` (`wsh.c:188-318`) up to what it runs; undefined if a `NULL` is compared or the name
of a program does not fit into `path`. -/
def execCmds (l : Line) : Option Dispatched :=
  match l.args with
  | some name :: _ =>
    match builtin name with
    | some b => some (.builtin b l.args.length)
    | none =>
      if l.pipeIndicator then (pipeDealer l.args l.numCmd).map (.pipeline l.numCmd)
      else if PathOk name then some (.program (argv l.args))
      else none
  | _ => none

variable {l : Line} {name : Bytes} {args : List (Option Bytes)}

end Line

/-- What a line dispatches, and its `background_indicator`. -/
def dispatch (input : Bytes) : Option (Dispatched × Bool) :=
  (Line.parse input).bind fun l => l.execCmds.map fun d => (d, l.bgIndicator)

section

variable {name : Bytes} {t : List Bytes} {input : Bytes}

end

end Cs537.P3
