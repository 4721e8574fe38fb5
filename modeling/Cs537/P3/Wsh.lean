import Cs537.Lib.Slots
import Mathlib.Data.List.AList

/-!
# The jobs of `wsh.c`

The shell keeps `job_arr[256]` and `ids[256]`, where `ids[i]` is 1 if `i + 1` is taken, and the id
of the foreground job in `curr_fg_id`. Children are waited for in four places: in `exec_cmds` after
a command was started, in `put_foreground`, in `pipe_dealer`, and in the handler of `SIGCHLD`, which
is `fg_remove`. A step of the shell is one round of the loop of `remove_jobs` or what `exec_cmds`
does up to the next system call; a handler, and whatever happens to a child, comes between two
steps. The arrays are functions from indices, since `setjobid` returns 0 when all ids are taken.
Parsing, output, the terminal and the text of a command are left out; `pgid` of a job is its `pid`.
-/

namespace Cs537.P3

open Cs537.Lib

/-! ## Children -/

/-- What `waitpid` reports. -/
inductive Status where
  | exited
  | signaled
  | stopped
  deriving DecidableEq

/-- A child that has not been reaped. A stop is reported once. -/
inductive Child where
  | running
  | stopped (reported : Bool)
  | zombie (exited : Bool)
  deriving DecidableEq

/-- The children that have not been reaped, by pid. -/
abbrev Children := AList fun _ : Int => Child

/-- What a call of `waitpid` comes to. -/
inductive Waited where
  | blocks
  | failed
  | nothing
  | reports (status : Status)
  deriving DecidableEq

/-- `waitpid` for one child, with `WNOHANG` and `WUNTRACED` or without. -/
def waitpid (cs : Children) (pid : Int) (nohang untraced : Bool) : Waited × Children :=
  match cs.lookup pid with
  | none => (.failed, cs)
  | some (.zombie exited) => (.reports (if exited then .exited else .signaled), cs.erase pid)
  | some (.stopped false) =>
    if untraced then (.reports .stopped, cs.insert pid (.stopped true))
    else if nohang then (.nothing, cs)
    else (.blocks, cs)
  | some _ => if nohang then (.nothing, cs) else (.blocks, cs)

/-- The value of `status` after a call that did not block; if the call wrote none, it is what the
memory held. -/
def Waited.status (garbage : Status) : Waited → Status
  | .reports status => status
  | _ => garbage

/-- `SIGCONT`. -/
def cont (cs : Children) (pid : Int) : Children :=
  match cs.lookup pid with
  | some (.stopped _) => cs.insert pid .running
  | _ => cs

/-- `SIGSTOP`. -/
def stop (cs : Children) (pid : Int) : Children :=
  match cs.lookup pid with
  | some .running => cs.insert pid (.stopped false)
  | _ => cs

/-- `SIGKILL`, or any other signal that kills. -/
def kill (cs : Children) (pid : Int) : Children :=
  match cs.lookup pid with
  | some (.zombie _) | none => cs
  | some _ => cs.insert pid (.zombie false)

/-- A child that runs to its end. -/
def terminate (cs : Children) (pid : Int) : Children :=
  match cs.lookup pid with
  | some .running => cs.insert pid (.zombie true)
  | _ => cs

/-! ## The state of the shell -/

/-- `job_status` (`wsh.c:19`). -/
inductive JobStatus where
  | fg
  | bg
  | stopped
  deriving DecidableEq

/-- `struct Job` (`wsh.c:16-22`). -/
structure Job where
  id : Int
  jobStatus : JobStatus
  pid : Int
  deriving DecidableEq

/-- A line: `exit` or a line that makes the shell exit, the other built-in commands with their
argument, a command, or a pipeline. -/
inductive Command where
  | exit
  | cd
  | jobs
  | fg (id : Option Int)
  | bg (id : Option Int)
  | run (background : Bool)
  | pipe (numCmd : Nat)
  deriving DecidableEq

/-- Where the shell is. -/
inductive Pc where
  | prompt
  | removing (i : Nat) (c : Command)
  | ready (c : Command)
  | forked (pid : Int) (background : Bool)
  | numbered (pid : Int) (background : Bool) (id : Int)
  | added (pid id : Int)
  | waiting (pid id : Int)
  | polling (pid : Int)
  | fgWait (id : Int)
  | fgSet (id : Int)
  | fgRemove
  | piping (left : Nat)
  | pipeWait
  | exited
  deriving DecidableEq

structure Shell where
  ids : Int → Int
  jobArr : Int → Option Job
  currFgId : Int
  children : Children
  pc : Pc

/-- The shell when it starts. -/
def Shell.start : Shell where
  ids _ := 0
  jobArr _ := none
  currFgId := -1
  children := ∅
  pc := .prompt

namespace Shell

/-- `job_arr[i]->job_status = status`. -/
def setStatus (s : Shell) (i : Int) (status : JobStatus) : Shell :=
  let job := (s.jobArr i).map fun job => { job with jobStatus := status }
  { s with jobArr := Function.update s.jobArr i job }

/-- `job_arr[i] = NULL` and `ids[i] = 0`. -/
def clear (s : Shell) (i : Int) : Shell :=
  { s with jobArr := Function.update s.jobArr i none, ids := Function.update s.ids i 0 }

/-- One round of `remove_jobs` (`wsh.c:35-47`). -/
def removeJob (s : Shell) (i : Int) : Option Shell :=
  if s.ids i = 1 then
    match s.jobArr i with
    | none => none
    | some job =>
      match waitpid s.children job.pid true true with
      | (.reports _, children) => some ({ s with children := children }.clear i)
      | (_, children) => some { s with children := children }
  else some s

/-- `fg_remove` (`wsh.c:49-64`); undefined while it blocks. -/
def fgRemove (s : Shell) (garbage : Status) : Option Shell :=
  if s.currFgId = -1 then some s
  else
    match s.jobArr (s.currFgId - 1) with
    | none => some { s with currFgId := -1 }
    | some job =>
      if job.jobStatus = .fg then
        match waitpid s.children job.pid false true with
        | (.blocks, _) => none
        | (r, children) =>
          let t := { s with children := children, currFgId := -1 }
          some (if r.status garbage = .exited then t.clear (s.currFgId - 1) else t)
      else some { s with currFgId := -1 }

/-- `setjobid` (`wsh.c:66-76`). -/
def setjobid (ids : Int → Int) : Int × (Int → Int) :=
  match findFrom (fun i => ids i = 0) 256 0 with
  | none => (0, ids)
  | some i => (i + 1, Function.update ids i 1)

/-- `add_job` (`wsh.c:26-33`). -/
def addJob (s : Shell) (id : Int) (status : JobStatus) (pid : Int) : Shell :=
  { s with jobArr := Function.update s.jobArr (id - 1) (some ⟨id, status, pid⟩) }

/-- `put_background` (`wsh.c:77-86`). -/
def putBackground (s : Shell) (id : Int) : Shell :=
  match s.jobArr (id - 1) with
  | none => s
  | some job =>
    if job.jobStatus = .stopped then
      { s.setStatus (id - 1) .bg with children := cont s.children job.pid }
    else s

/-- `put_foreground` up to its `waitpid` (`wsh.c:88-93`). -/
def putForeground (s : Shell) (id : Int) : Shell :=
  match s.jobArr (id - 1) with
  | none => { s with pc := .fgSet id }
  | some job =>
    { s.setStatus (id - 1) .fg with children := cont s.children job.pid, pc := .fgWait id }

/-- The rest of `put_foreground` (`wsh.c:94-100`). -/
def waitForeground (s : Shell) (id : Int) (garbage : Status) : Option Shell :=
  match s.jobArr (id - 1) with
  | none => none
  | some job =>
    match waitpid s.children job.pid false true with
    | (.blocks, _) => none
    | (r, children) =>
      let t := { s with children := children, pc := .fgSet id }
      some (if r.status garbage = .stopped then t.setStatus (id - 1) .stopped else t)

/-- The last job that the loops of `fg` and `bg` find (`wsh.c:235-241` and `258-264`). -/
def lastJob (s : Shell) (p : JobStatus → Bool) : Option Int :=
  ((List.range 256).reverse.findSome? fun (i : Nat) =>
    if s.ids i = 1 then
      (s.jobArr i).bind fun job => if p job.jobStatus then some job.id else none
    else none)

/-- `fork`, whose result is a pid that no child has. -/
def fork (s : Shell) (pid : Int) : Option Shell :=
  if 1 < pid ∧ (s.children.lookup pid).isNone then
    some { s with children := s.children.insert pid .running }
  else none

/-- `exec_cmds` (`wsh.c:188-318`) up to its first wait. `jobs` reads every entry whose id is
taken. -/
def execCmds (s : Shell) (pid : Int) : Command → Option Shell
  | .exit => some { s with pc := .exited }
  | .cd => some { s with pc := .prompt }
  | .jobs =>
    if (List.range 256).all fun (i : Nat) => s.ids i ≠ 1 || (s.jobArr i).isSome then
      some { s with pc := .prompt }
    else none
  | .fg (some id) => some (s.putForeground id)
  | .fg none =>
    match s.lastJob (· ≠ .fg) with
    | some id => some (s.putForeground id)
    | none => some { s with pc := .fgSet (-1) }
  | .bg (some id) => some { s.putBackground id with pc := .prompt }
  | .bg none =>
    match s.lastJob (· = .stopped) with
    | some id => some { s.putBackground id with pc := .prompt }
    | none => some { s with pc := .prompt }
  | .run background => (s.fork pid).map ({ · with pc := .forked pid background })
  | .pipe numCmd => some { s with pc := .piping numCmd }

/-- The next step of the shell. `pid` is what `fork` or `wait` returns, `garbage` what an
uninitialised `status` holds. -/
def next (s : Shell) (pid : Int) (garbage : Status) : Option Shell :=
  match s.pc with
  | .prompt => none
  | .removing i c =>
    if i < 256 then (s.removeJob i).map ({ · with pc := .removing (i + 1) c })
    else some { s with pc := .ready c }
  | .ready c => s.execCmds pid c
  | .forked child background =>
    let r := setjobid s.ids
    some { s with ids := r.2, pc := .numbered child background r.1 }
  | .numbered child true id => some { s.addJob id .bg child with pc := .polling child }
  | .numbered child false id => some { s.addJob id .fg child with pc := .added child id }
  | .added child id => some { s with currFgId := id, pc := .waiting child id }
  | .waiting child _ =>
    match waitpid s.children child false true with
    | (.blocks, _) => none
    | (.failed, _) => some { s with pc := .exited }
    | (_, children) => some { s with children := children, pc := .prompt }
  | .polling child =>
    some { s with children := (waitpid s.children child true false).2, pc := .prompt }
  | .fgWait id => s.waitForeground id garbage
  | .fgSet id => some { s with currFgId := id, pc := .fgRemove }
  | .fgRemove => (s.fgRemove garbage).map ({ · with pc := .prompt })
  | .piping 0 => some { s with pc := .pipeWait }
  | .piping (left + 1) => (s.fork pid).map ({ · with pc := .piping left })
  | .pipeWait =>
    -- `wait(NULL)` reaps any child that has ended, and fails when there is none left
    match s.children.lookup pid with
    | some (.zombie _) => some { s with children := s.children.erase pid }
    | _ => if s.children.entries.isEmpty then some { s with pc := .prompt } else none
  | .exited => none

/-! ## Events -/

/-- What happens: a line is read, the shell takes a step, a handler runs, or something happens to a
child. -/
inductive Event where
  | read (c : Command)
  | shell (pid : Int) (garbage : Status)
  | sigchld (garbage : Status)
  | sigint
  | sigtstp
  | exits (pid : Int)
  | killed (pid : Int)
  | stops (pid : Int)
  | continues (pid : Int)

/-- `sigint_handler` (`wsh.c:102-112`); what `SIGINT` does to the child is an event of its own. -/
def sigintHandler (s : Shell) : Shell :=
  if s.currFgId ≠ -1 then s.setStatus (s.currFgId - 1) .fg else s

/-- `sigtstp_handler` (`wsh.c:113-122`). -/
def sigtstpHandler (s : Shell) : Shell :=
  if s.currFgId ≠ -1 then
    match s.jobArr (s.currFgId - 1) with
    | none => s
    | some job =>
      { s.setStatus (s.currFgId - 1) .stopped with children := stop s.children job.pid }
  else s

/-- The state after an event. A handler does not run in a shell that has exited. -/
def step (s : Shell) : Event → Option Shell
  | .read c => if s.pc = .prompt then some { s with pc := .removing 0 c } else none
  | .shell pid garbage => s.next pid garbage
  | .sigchld garbage => if s.pc = .exited then none else s.fgRemove garbage
  | .sigint => if s.pc = .exited then none else some s.sigintHandler
  | .sigtstp => if s.pc = .exited then none else some s.sigtstpHandler
  | .exits pid => some { s with children := terminate s.children pid }
  | .killed pid => some { s with children := kill s.children pid }
  | .stops pid => some { s with children := stop s.children pid }
  | .continues pid => some { s with children := cont s.children pid }

/-! ## The property -/

/-- An id is taken exactly if there is a job with it, and no process of a job has been reaped. -/
structure Tracks (s : Shell) : Prop where
  agree : ∀ i, 0 ≤ i → i < 256 → (s.ids i = 1 ↔ s.jobArr i ≠ none)
  live : ∀ i job, 0 ≤ i → i < 256 → s.jobArr i = some job → s.children.lookup job.pid ≠ none

/-- The id that `setjobid` returns is the smallest one that no job has, unless all are taken. -/
def SmallestId (s : Shell) : Prop :=
  (∃ i, 0 ≤ i ∧ i < 256 ∧ s.jobArr i = none) →
    ∃ i, 0 ≤ i ∧ i < 256 ∧ (setjobid s.ids).1 = i + 1 ∧ s.jobArr i = none ∧
      ∀ j, 0 ≤ j → j < i → s.jobArr j ≠ none

end Shell

end Cs537.P3
