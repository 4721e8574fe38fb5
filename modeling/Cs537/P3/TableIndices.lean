import Cs537.Lib.Decimal
import Cs537.P3.Dispatch
import Cs537.P3.Removing

/-!
# Indices into the tables of the shell

`args`, `ids` and `job_arr` have 256 elements each. The index into `args` is the number of tokens of
a line, the others are ids of jobs minus one; an id comes from `setjobid`, from the table, from
the argument of `fg` or `bg`, or from `curr_fg_id`. The handlers and `fg_remove` read `curr_fg_id`
anew for every access, and each of them can be interrupted by the handler of another signal, so here
they go from access to access. An access outside of its array may have any effect, so a step with
one may lead to any state.
-/

namespace Cs537.P3

open Cs537.Lib

/-! ## Lines -/

/-- The command of a line (`wsh.c:188-318`) whose program, if it has one, fits into `path`;
`chdirOk` says whether `chdir` succeeds. A `NULL` that is read ends the shell as well. -/
def Line.command (l : Line) (chdirOk : Bool) : Command :=
  match l.execCmds with
  | none | some (.builtin .exit _) => .exit
  | some (.builtin .cd numArg) => if numArg = 2 ∧ chdirOk then .cd else .exit
  | some (.builtin .jobs numArg) => if numArg = 1 then .jobs else .exit
  | some (.builtin .fg numArg) =>
    if numArg = 1 then .fg none
    else if numArg = 2 then
      match l.args[1]? with
      | some (some token) => .fg (some (atoi token))
      | _ => .exit
    else .exit
  | some (.builtin .bg numArg) =>
    if numArg = 1 then .bg none
    else if numArg = 2 then
      match l.args[1]? with
      | some (some token) => .bg (some (atoi token))
      | _ => .exit
    else .exit
  | some (.program _) => .run l.bgIndicator
  | some (.pipeline numCmd _) => .pipe numCmd

/-- The number of tokens of a line. -/
def numArg (input : Bytes) : Nat := (words isBlank (cstr input)).length

/-- The name of a program does not fit into `path` (`wsh.c:280`). -/
def Line.longName (l : Line) : Bool :=
  match l.args with
  | some name :: _ => (builtin name).isNone && !l.pipeIndicator && !decide (PathOk name)
  | _ => false

/-- A line is stored outside of `input_bkup`, or the name of its program outside of `path`. -/
def overruns (input : Bytes) : Bool :=
  (backup input).isNone || (Line.parse input).any Line.longName

/-! ## Uses of `curr_fg_id` -/

inductive Handler where
  | sigint
  | sigtstp
  | sigchld
  deriving DecidableEq

/-- What comes next in `sigint_handler`, `sigtstp_handler` or `fg_remove` after the test of
`curr_fg_id` (`wsh.c:49-64` and `102-122`). -/
inductive Use where
  | intTest
  | intKill
  | intStatus
  | tstpTest
  | tstpKill
  | tstpStatus
  | fgTest
  | fgStatus
  | fgPgid
  | fgWait (pid : Int)
  | fgNull
  | fgFree
  | fgIds
  | fgReset
  deriving DecidableEq

/-- An access to an element with the index `curr_fg_id - 1`. -/
def Use.accesses : Use → Bool
  | .fgWait _ | .fgReset => false
  | _ => true

namespace Shell

/-- A handler, or `fg_remove` called by `exec_cmds`, up to its test of `curr_fg_id`. -/
def firstUse (s : Shell) : Option Handler → Option Use
  | some .sigint => if s.currFgId ≠ -1 then some .intTest else none
  | some .sigtstp => if s.currFgId ≠ -1 then some .tstpTest else none
  | some .sigchld | none => some (if s.currFgId ≠ -1 then .fgTest else .fgReset)

/-- One more access, and what comes behind it; undefined for a `NULL` that is followed, and while
`waitpid` blocks. -/
def use (s : Shell) (garbage : Status) : Use → Option (Shell × Option Use)
  | .intTest => some (s, (s.jobArr (s.currFgId - 1)).map fun _ => .intKill)
  | .intKill => (s.jobArr (s.currFgId - 1)).map fun _ => (s, some .intStatus)
  | .intStatus =>
    (s.jobArr (s.currFgId - 1)).map fun _ => (s.setStatus (s.currFgId - 1) .fg, none)
  | .tstpTest => some (s, (s.jobArr (s.currFgId - 1)).map fun _ => .tstpKill)
  | .tstpKill =>
    (s.jobArr (s.currFgId - 1)).map fun job =>
      ({ s with children := stop s.children job.pid }, some .tstpStatus)
  | .tstpStatus =>
    (s.jobArr (s.currFgId - 1)).map fun _ => (s.setStatus (s.currFgId - 1) .stopped, none)
  | .fgTest => some (s, some (if (s.jobArr (s.currFgId - 1)).isSome then .fgStatus else .fgReset))
  | .fgStatus =>
    (s.jobArr (s.currFgId - 1)).map fun job =>
      (s, some (if job.jobStatus = .fg then .fgPgid else .fgReset))
  | .fgPgid => (s.jobArr (s.currFgId - 1)).map fun job => (s, some (.fgWait job.pid))
  | .fgWait pid =>
    match waitpid s.children pid false true with
    | (.blocks, _) => none
    | (r, children) =>
      some ({ s with children := children },
        some (if r.status garbage = .exited then .fgNull else .fgReset))
  | .fgNull =>
    some ({ s with jobArr := Function.update s.jobArr (s.currFgId - 1) none }, some .fgFree)
  | .fgFree => some (s, some .fgIds)
  | .fgIds => some ({ s with ids := Function.update s.ids (s.currFgId - 1) 0 }, some .fgReset)
  | .fgReset => some ({ s with currFgId := -1 }, none)

end Shell

/-- The shell in the middle of handlers, the innermost first; `none` is the `fg_remove` that
`exec_cmds` has called. -/
structure Session where
  shell : Shell
  inside : List (Option Handler × Use)

/-- What happens: a line of text is read, the shell takes a step or something happens to a child, a
signal arrives, or the innermost handler goes on. -/
inductive Input where
  | line (input : Bytes) (chdirOk : Bool)
  | event (e : Shell.Event)
  | signal (h : Handler)
  | resume (garbage : Status)

namespace Session

def start : Session := ⟨Shell.start, []⟩

def enter (m : Session) (h : Option Handler) : Session :=
  { m with inside := ((m.shell.firstUse h).map fun u => (h, u)).toList ++ m.inside }

/-- The innermost handler goes on behind an access, or returns. -/
def proceed (h : Option Handler) (inside : List (Option Handler × Use)) :
    Shell × Option Use → Session
  | (s, some u) => ⟨s, (h, u) :: inside⟩
  | (s, none) => ⟨if h = none then { s with pc := .prompt } else s, inside⟩

/-- The state after an input. The shell goes on when no handler runs, and a signal waits while its
own handler does. -/
def take (m : Session) : Input → Option Session
  | .line input chdirOk =>
    if m.inside = [] then
      (Line.parse input).bind fun l =>
        (m.shell.step (.read (l.command chdirOk))).map ({ m with shell := · })
    else none
  | .event (.shell pid garbage) =>
    if m.inside = [] then
      if m.shell.pc = .fgRemove then some (m.enter none)
      else (m.shell.next pid garbage).map ({ m with shell := · })
    else none
  | .event (.exits pid) => (m.shell.step (.exits pid)).map ({ m with shell := · })
  | .event (.killed pid) => (m.shell.step (.killed pid)).map ({ m with shell := · })
  | .event (.stops pid) => (m.shell.step (.stops pid)).map ({ m with shell := · })
  | .event (.continues pid) => (m.shell.step (.continues pid)).map ({ m with shell := · })
  | .event (.read _) | .event (.sigchld _) | .event .sigint | .event .sigtstp => none
  | .signal h =>
    if m.shell.pc ≠ .exited ∧ (m.inside.all fun f => f.1 ≠ some h) = true then
      some (m.enter (some h))
    else none
  | .resume garbage =>
    match m.inside with
    | [] => none
    | (h, u) :: inside => (m.shell.use garbage u).map (proceed h inside)

end Session

/-! ## Accesses -/

/-- Every element of an array of 256. -/
def allIndices : List Int := (List.range 256).map Int.ofNat

/-- The tokens are stored, a `NULL` behind them, and the last one is compared (`wsh.c:363-369`). -/
def argIndices (numArg : Nat) : List Int :=
  (List.range (numArg + 1)).map Int.ofNat ++ [(numArg : Int) - 1]

namespace Shell

/-- What `exec_cmds` looks at up to its first wait (`wsh.c:188-318`). -/
def execIndices (s : Shell) : Command → List Int
  | .jobs => allIndices
  | .fg (some id) | .bg (some id) => [id - 1]
  | .fg none => allIndices ++ ((s.lastJob (· ≠ .fg)).map (· - 1)).toList
  | .bg none => allIndices ++ ((s.lastJob (· = .stopped)).map (· - 1)).toList
  | .exit | .cd | .run _ | .pipe _ => []

/-- What a step of the shell looks at. -/
def nextIndices (s : Shell) : List Int :=
  match s.pc with
  | .removing i _ => if i < 256 then [(i : Int)] else []
  | .ready c => s.execIndices c
  | .forked _ _ => allIndices
  | .numbered _ _ id => [id - 1]
  | .fgWait id => [id - 1]
  | _ => []

end Shell

namespace Session

/-- The indices that are used when an input is dealt with. -/
def indices (m : Session) : Input → List Int
  | .line input _ =>
    if m.shell.pc = .prompt ∧ m.inside = [] then argIndices (numArg input) else []
  | .event (.shell _ _) => if m.inside = [] then m.shell.nextIndices else []
  | .event _ | .signal _ => []
  | .resume _ =>
    match m.inside with
    | [] => []
    | (_, u) :: _ => if u.accesses then [m.shell.currFgId - 1] else []

/-- An access that is made, or may be made after a store outside of `input_bkup` or `path`. -/
def Accesses (m : Session) (e : Input) (i : Int) : Prop :=
  i ∈ m.indices e ∨
    ∃ input chdirOk, e = .line input chdirOk ∧ m.shell.pc = .prompt ∧ m.inside = [] ∧
      overruns input = true

/-- All of them are indices of an array of 256. -/
def InRange (m : Session) (e : Input) : Prop := ∀ i, m.Accesses e i → 0 ≤ i ∧ i < 256

/-- A step: what the program does, or anything after an access out of range. -/
def Takes (m : Session) (e : Input) (m' : Session) : Prop := m.InRange e → m.take e = some m'

end Session

namespace Shell

/-! ## The invariant -/

/-- The entries of the table have the ids of their places. -/
def IdsRight (jobArr : Int → Option Job) : Prop :=
  ∀ i job, jobArr i = some job → 0 ≤ i ∧ i < 256 ∧ job.id = i + 1

/-- An id that there can be. -/
def IsId (id : Int) : Prop := 1 ≤ id ∧ id ≤ 256

/-- The ids that the shell holds where it is. -/
def HeldOk : Pc → Prop
  | .numbered _ _ id => 0 ≤ id ∧ id ≤ 256
  | .added _ id | .waiting _ id | .fgWait id => IsId id
  | .fgSet id => id = -1 ∨ IsId id
  | _ => True

/-- The ids in the table and in the variables are right. -/
structure InTable (s : Shell) : Prop where
  jobs : IdsRight s.jobArr
  curr : s.currFgId = -1 ∨ IsId s.currFgId
  held : HeldOk s.pc

variable {s t : Shell}

theorem IdsRight.update_none {jobArr : Int → Option Job} (h : IdsRight jobArr) (i : Int) :
    IdsRight (Function.update jobArr i none) := by
  intro j job hj
  exact h j job (update_none_eq_some.mp hj).2

/-- An entry is cleared, or none. -/
theorem IdsRight.cleared {jobArr jobArr' : Int → Option Job} (h : IdsRight jobArr) {i : Int}
    (hjobs : jobArr' = jobArr ∨ jobArr' = Function.update jobArr i none) : IdsRight jobArr' := by
  rcases hjobs with rfl | rfl
  · exact h
  · exact h.update_none i

/-- `job_status` of an entry changes. -/
theorem IdsRight.setStatus (h : IdsRight s.jobArr) (i : Int) (status : JobStatus) :
    IdsRight (s.setStatus i status).jobArr := by
  intro j job hj
  by_cases hji : j = i
  · simp only [hji, Shell.setStatus, Function.update_self] at hj
    obtain ⟨job', hjob', rfl⟩ := Option.map_eq_some_iff.mp hj
    rw [hji]
    exact h i job' hjob'
  · exact h j job ((Function.update_of_ne hji ..).symm.trans hj)

/-- The entry of a new job. -/
theorem IdsRight.addJob (h : IdsRight s.jobArr) {id : Int} (hid : IsId id) (status : JobStatus)
    (pid : Int) : IdsRight (s.addJob id status pid).jobArr := by
  obtain ⟨h1, h256⟩ := hid
  intro j job hj
  by_cases hji : j = id - 1
  · simp only [hji, Shell.addJob, Function.update_self, Option.some.injEq] at hj
    subst hj
    refine ⟨by omega, by omega, ?_⟩
    show id = j + 1
    omega
  · exact h j job ((Function.update_of_ne hji ..).symm.trans hj)

/-! ## What the functions do to ids -/

theorem setjobid_range (ids : Int → Int) : 0 ≤ (setjobid ids).1 ∧ (setjobid ids).1 ≤ 256 := by
  cases hfind : findFrom (fun i => ids i = 0) 256 0 with
  | none =>
    rw [setjobid, hfind]
    exact ⟨Int.le_refl 0, show (0 : Int) ≤ 256 by decide⟩
  | some i =>
    obtain ⟨h0, h1, -⟩ := findFrom_eq_some hfind
    rw [setjobid_some hfind]
    exact ⟨by simp only; omega, by simp only; omega⟩

/-- A new job gets no id exactly if all of them are taken. -/
theorem setjobid_eq_zero_iff (ids : Int → Int) :
    (setjobid ids).1 = 0 ↔ ∀ i, 0 ≤ i → i < 256 → ids i ≠ 0 := by
  cases hfind : findFrom (fun i => ids i = 0) 256 0 with
  | none =>
    rw [setjobid, hfind]
    exact iff_of_true rfl fun i h0 h1 => by simpa using findFrom_eq_none hfind i h0 (by omega)
  | some i =>
    obtain ⟨h0, h1, hfree, -⟩ := findFrom_eq_some hfind
    rw [setjobid_some hfind]
    refine iff_of_false (by simp only; omega) fun htaken => ?_
    exact htaken i h0 (by omega) (by simpa using hfree)

/-- The job that `fg` or `bg` finds has the id of its place. -/
theorem isId_of_lastJob (h : IdsRight s.jobArr) {p : JobStatus → Bool} {id : Int}
    (hid : s.lastJob p = some id) : IsId id := by
  obtain ⟨i, -, hi⟩ := List.exists_of_findSome?_eq_some hid
  obtain ⟨-, hi⟩ := Option.ite_none_right_eq_some.mp hi
  obtain ⟨job, hjob, hi⟩ := Option.bind_eq_some_iff.mp hi
  obtain ⟨-, hi⟩ := Option.ite_none_right_eq_some.mp hi
  obtain ⟨h0, h1, hjobId⟩ := h i job hjob
  obtain rfl := Option.some.inj hi
  exact ⟨by omega, by omega⟩

/-- A round of `remove_jobs` clears an entry or none. -/
theorem removeJob_table {i : Int} (hrun : s.removeJob i = some t) :
    t.currFgId = s.currFgId ∧
      (t.jobArr = s.jobArr ∨ t.jobArr = Function.update s.jobArr i none) := by
  rcases removeJob_cases s i with ⟨-, heq⟩ | ⟨-, -, heq⟩ | ⟨job, cs, -, -, heq⟩
  · obtain rfl := Option.some.inj (heq.symm.trans hrun)
    exact ⟨rfl, .inl rfl⟩
  · rw [heq] at hrun
    cases hrun
  · obtain rfl := Option.some.inj (heq.symm.trans hrun)
    split
    · exact ⟨rfl, .inr rfl⟩
    · exact ⟨rfl, .inl rfl⟩

/-- `put_foreground` up to its wait. -/
theorem InTable.putForeground (h : s.InTable) {id : Int} (hid : IsId id) :
    (s.putForeground id).InTable := by
  unfold Shell.putForeground
  cases s.jobArr (id - 1) with
  | none => exact ⟨h.jobs, h.curr, .inr hid⟩
  | some job => exact ⟨h.jobs.setStatus (id - 1) .fg, h.curr, hid⟩

theorem InTable.putBackground (h : s.InTable) (id : Int) :
    ({ s.putBackground id with pc := .prompt } : Shell).InTable := by
  unfold Shell.putBackground
  cases s.jobArr (id - 1) with
  | none => exact ⟨h.jobs, h.curr, trivial⟩
  | some job =>
    simp only
    split
    · exact ⟨h.jobs.setStatus (id - 1) .bg, h.curr, trivial⟩
    · exact ⟨h.jobs, h.curr, trivial⟩

/-- Nothing but the children and where the shell is has changed. -/
theorem InTable.move (h : s.InTable) (hjobs : t.jobArr = s.jobArr)
    (hcurr : t.currFgId = s.currFgId) (hheld : HeldOk t.pc) : t.InTable :=
  ⟨by rw [hjobs]; exact h.jobs, by rw [hcurr]; exact h.curr, hheld⟩

theorem fork_table {pid : Int} (hrun : s.fork pid = some t) :
    t.jobArr = s.jobArr ∧ t.currFgId = s.currFgId := by
  obtain ⟨-, hrun⟩ := Option.ite_none_right_eq_some.mp hrun
  obtain rfl := Option.some.inj hrun
  exact ⟨rfl, rfl⟩

/-- `exec_cmds` up to its first wait. -/
theorem InTable.execCmds (h : s.InTable) {pid : Int} {c : Command}
    (hrange : ∀ i ∈ s.execIndices c, 0 ≤ i ∧ i < 256) (hrun : s.execCmds pid c = some t) :
    t.InTable := by
  cases c with
  | exit | cd | pipe numCmd =>
    obtain rfl := Option.some.inj hrun
    exact h.move rfl rfl trivial
  | jobs =>
    obtain ⟨-, hrun⟩ := Option.ite_none_right_eq_some.mp hrun
    obtain rfl := Option.some.inj hrun
    exact h.move rfl rfl trivial
  | fg target =>
    cases target with
    | some id =>
      obtain rfl := Option.some.inj hrun
      have hid := hrange (id - 1) List.mem_cons_self
      exact h.putForeground ⟨by omega, by omega⟩
    | none =>
      rw [Shell.execCmds] at hrun
      cases hlast : s.lastJob (· ≠ .fg) with
      | none =>
        rw [hlast] at hrun
        obtain rfl := Option.some.inj hrun
        exact h.move rfl rfl (.inl rfl)
      | some id =>
        rw [hlast] at hrun
        obtain rfl := Option.some.inj hrun
        exact h.putForeground (isId_of_lastJob h.jobs hlast)
  | bg target =>
    cases target with
    | some id =>
      obtain rfl := Option.some.inj hrun
      exact h.putBackground id
    | none =>
      rw [Shell.execCmds] at hrun
      cases hlast : s.lastJob (· = .stopped) with
      | none =>
        rw [hlast] at hrun
        obtain rfl := Option.some.inj hrun
        exact h.move rfl rfl trivial
      | some id =>
        rw [hlast] at hrun
        obtain rfl := Option.some.inj hrun
        exact h.putBackground id
  | run background =>
    obtain ⟨u, hfork, rfl⟩ := Option.map_eq_some_iff.mp hrun
    obtain ⟨hjobs, hcurr⟩ := fork_table hfork
    exact h.move hjobs hcurr trivial

/-- The rest of `put_foreground`. -/
theorem InTable.waitForeground (h : s.InTable) {id : Int} {garbage : Status} (hid : IsId id)
    (hrun : s.waitForeground id garbage = some t) : t.InTable := by
  unfold Shell.waitForeground at hrun
  cases hjob : s.jobArr (id - 1) with
  | none =>
    rw [hjob] at hrun
    cases hrun
  | some job =>
    simp only [hjob] at hrun
    generalize waitpid s.children job.pid false true = w at hrun
    obtain ⟨r, cs⟩ := w
    have hset {status : Status} (hrun : some (if status = .stopped then
        ({ s with children := cs, pc := .fgSet id } : Shell).setStatus (id - 1) .stopped
        else { s with children := cs, pc := .fgSet id }) = some t) : t.InTable := by
      obtain rfl := Option.some.inj hrun
      split
      · exact ⟨h.jobs.setStatus (id - 1) .stopped, h.curr, .inr hid⟩
      · exact ⟨h.jobs, h.curr, .inr hid⟩
    cases r with
    | blocks => cases hrun
    | failed | nothing | reports status => exact hset hrun

/-- A step of the shell that stays in the tables. -/
theorem InTable.next (h : s.InTable) {pid : Int} {garbage : Status} (hmain : s.pc ≠ .fgRemove)
    (hrange : ∀ i ∈ s.nextIndices, 0 ≤ i ∧ i < 256) (hrun : s.next pid garbage = some t) :
    t.InTable := by
  have hheld := h.held
  unfold Shell.next at hrun
  unfold nextIndices at hrange
  cases hpc : s.pc with
  | prompt | exited =>
    simp only [hpc] at hrun
    cases hrun
  | removing i c =>
    simp only [hpc] at hrun
    split at hrun
    · obtain ⟨u, hremove, rfl⟩ := Option.map_eq_some_iff.mp hrun
      obtain ⟨hcurr, hjobs⟩ := removeJob_table hremove
      exact ⟨h.jobs.cleared hjobs, by simp only [hcurr]; exact h.curr, trivial⟩
    · obtain rfl := Option.some.inj hrun
      exact h.move rfl rfl trivial
  | ready c =>
    simp only [hpc] at hrun hrange
    exact h.execCmds hrange hrun
  | forked child background =>
    simp only [hpc] at hrun
    obtain rfl := Option.some.inj hrun
    exact h.move rfl rfl (setjobid_range s.ids)
  | numbered child background id =>
    simp only [hpc] at hrun hrange
    have hid := hrange (id - 1) List.mem_cons_self
    have hisId : IsId id := ⟨by omega, by omega⟩
    cases background with
    | true =>
      obtain rfl := Option.some.inj hrun
      exact ⟨h.jobs.addJob hisId .bg child, h.curr, trivial⟩
    | false =>
      obtain rfl := Option.some.inj hrun
      exact ⟨h.jobs.addJob hisId .fg child, h.curr, hisId⟩
  | added child id =>
    rw [hpc] at hheld
    simp only [hpc] at hrun
    obtain rfl := Option.some.inj hrun
    exact ⟨h.jobs, .inr hheld, hheld⟩
  | waiting child id =>
    simp only [hpc] at hrun
    generalize waitpid s.children child false true = w at hrun
    obtain ⟨r, cs⟩ := w
    cases r with
    | blocks => cases hrun
    | failed | nothing | reports status =>
      obtain rfl := Option.some.inj hrun
      exact h.move rfl rfl trivial
  | polling child =>
    simp only [hpc] at hrun
    obtain rfl := Option.some.inj hrun
    exact h.move rfl rfl trivial
  | fgWait id =>
    rw [hpc] at hheld
    simp only [hpc] at hrun
    exact h.waitForeground hheld hrun
  | fgSet id =>
    rw [hpc] at hheld
    simp only [hpc] at hrun
    obtain rfl := Option.some.inj hrun
    exact ⟨h.jobs, hheld, trivial⟩
  | fgRemove => exact absurd hpc hmain
  | piping left =>
    cases left with
    | zero =>
      simp only [hpc] at hrun
      obtain rfl := Option.some.inj hrun
      exact h.move rfl rfl trivial
    | succ left =>
      simp only [hpc] at hrun
      obtain ⟨u, hfork, rfl⟩ := Option.map_eq_some_iff.mp hrun
      obtain ⟨hjobs, hcurr⟩ := fork_table hfork
      exact h.move hjobs hcurr trivial
  | pipeWait =>
    simp only [hpc] at hrun
    split at hrun
    · obtain rfl := Option.some.inj hrun
      exact h.move rfl rfl trivial
    · obtain ⟨-, hrun⟩ := Option.ite_none_right_eq_some.mp hrun
      obtain rfl := Option.some.inj hrun
      exact h.move rfl rfl trivial

/-- A use of `curr_fg_id` keeps the ids right, and does not move the shell. -/
theorem InTable.use (h : s.InTable) {garbage : Status} {u : Use} {next : Option Use}
    (hrun : s.use garbage u = some (t, next)) : t.InTable := by
  have hset (status : JobStatus) (cs : Children) :
      ({ s.setStatus (s.currFgId - 1) status with children := cs } : Shell).InTable :=
    ⟨h.jobs.setStatus _ status, h.curr, h.held⟩
  cases u with
  | intTest | tstpTest | fgTest | fgFree =>
    obtain ⟨rfl, -⟩ := Prod.mk.inj (Option.some.inj hrun)
    exact h
  | intKill | fgStatus | fgPgid =>
    obtain ⟨job, -, hrun⟩ := Option.map_eq_some_iff.mp hrun
    obtain ⟨rfl, -⟩ := Prod.mk.inj hrun
    exact h
  | intStatus | tstpStatus =>
    obtain ⟨job, -, hrun⟩ := Option.map_eq_some_iff.mp hrun
    obtain ⟨rfl, -⟩ := Prod.mk.inj hrun
    exact hset _ s.children
  | tstpKill =>
    obtain ⟨job, -, hrun⟩ := Option.map_eq_some_iff.mp hrun
    obtain ⟨rfl, -⟩ := Prod.mk.inj hrun
    exact h.move rfl rfl h.held
  | fgWait pid =>
    unfold Shell.use at hrun
    dsimp only at hrun
    generalize waitpid s.children pid false true = w at hrun
    obtain ⟨r, cs⟩ := w
    cases r with
    | blocks => cases hrun
    | failed | nothing | reports status =>
      obtain ⟨rfl, -⟩ := Prod.mk.inj (Option.some.inj hrun)
      exact h.move rfl rfl h.held
  | fgNull =>
    obtain ⟨rfl, -⟩ := Prod.mk.inj (Option.some.inj hrun)
    exact ⟨h.jobs.update_none _, h.curr, h.held⟩
  | fgIds =>
    obtain ⟨rfl, -⟩ := Prod.mk.inj (Option.some.inj hrun)
    exact h.move rfl rfl h.held
  | fgReset =>
    obtain ⟨rfl, -⟩ := Prod.mk.inj (Option.some.inj hrun)
    exact ⟨h.jobs, .inl rfl, h.held⟩

end Shell

namespace Session

variable {m m' : Session}

end Session

/-! ## The condition -/

namespace Session

variable {m : Session}

section

variable {s t : Shell} {garbage : Status} {h : Option Handler} {u v : Use}

theorem resumed (garbage : Status) (huse : s.use garbage u = some (t, some v)) {es : List Input}
    {m : Session} (hrest : runOf take ⟨t, [(h, v)]⟩ es = some m) :
    runOf take ⟨s, [(h, u)]⟩ (.resume garbage :: es) = some m := by
  change ((s.use garbage u).map (proceed h [])).bind (fun m => runOf take m es) = some m
  rw [huse, Option.map_some, Option.bind_some]
  exact hrest

theorem returned (garbage : Status) (huse : s.use garbage u = some (t, none)) :
    runOf take ⟨s, [(h, u)]⟩ [.resume garbage] = some (proceed h [] (t, none)) := by
  change ((s.use garbage u).map (proceed h [])).bind (fun m => some m) = some _
  rw [huse, Option.map_some, Option.bind_some]

/-- `fg_remove` from access to access. -/
theorem fgRemove_whole
    (hfirst : s.firstUse h = some (if s.currFgId ≠ -1 then .fgTest else .fgReset))
    (hrun : s.fgRemove garbage = some t) :
    ∃ es, runOf take (enter ⟨s, []⟩ h) es = some (proceed h [] (t, none)) := by
  rw [enter, hfirst]
  unfold Shell.fgRemove at hrun
  by_cases hidle : s.currFgId = -1
  · rw [if_pos hidle] at hrun
    obtain rfl := Option.some.inj hrun
    rw [if_neg (not_not.mpr hidle)]
    refine ⟨_, returned garbage ?_⟩
    rw [Shell.use, ← hidle]
  rw [if_neg hidle] at hrun
  rw [if_pos hidle]
  cases hjob : s.jobArr (s.currFgId - 1) with
  | none =>
    simp only [hjob] at hrun
    obtain rfl := Option.some.inj hrun
    exact ⟨_, resumed garbage (v := .fgReset) (by simp [Shell.use, hjob]) (returned garbage rfl)⟩
  | some job =>
    simp only [hjob] at hrun
    have htest : s.use garbage .fgTest = some (s, some .fgStatus) := by simp [Shell.use, hjob]
    by_cases hfg : job.jobStatus = .fg
    · have hstatus : s.use garbage .fgStatus = some (s, some .fgPgid) := by
        simp [Shell.use, hjob, hfg]
      have hpgid : s.use garbage .fgPgid = some (s, some (.fgWait job.pid)) := by
        simp [Shell.use, hjob]
      rw [if_pos hfg] at hrun
      generalize hwait : waitpid s.children job.pid false true = w at hrun
      obtain ⟨r, cs⟩ := w
      have hreports (hr : r ≠ .blocks) (hrun : some (if r.status garbage = .exited then
          ({ s with children := cs, currFgId := -1 } : Shell).clear (s.currFgId - 1)
          else { s with children := cs, currFgId := -1 }) = some t) :
          ∃ es, runOf take ⟨s, [(h, .fgTest)]⟩ es = some (proceed h [] (t, none)) := by
        have hwaits : s.use garbage (.fgWait job.pid) = some ({ s with children := cs },
            some (if r.status garbage = .exited then .fgNull else .fgReset)) := by
          unfold Shell.use
          dsimp only
          rw [hwait]
          cases r with
          | blocks => exact absurd rfl hr
          | failed | nothing | reports status => rfl
        have hbefore {es : List Input} {m : Session}
            (hrest : runOf take ⟨s, [(h, .fgWait job.pid)]⟩ es = some m) :
            runOf take ⟨s, [(h, .fgTest)]⟩ (List.replicate 3 (.resume garbage) ++ es) = some m :=
          resumed garbage htest (resumed garbage hstatus (resumed garbage hpgid hrest))
        obtain rfl := Option.some.inj hrun
        split at hwaits
        · rename_i hexited
          rw [if_pos hexited]
          exact ⟨_, hbefore (resumed garbage hwaits (resumed garbage (v := .fgFree) rfl
            (resumed garbage (v := .fgIds) rfl
              (resumed garbage (v := .fgReset) rfl (returned garbage rfl)))))⟩
        · rename_i hexited
          rw [if_neg hexited]
          exact ⟨_, hbefore (resumed garbage hwaits (returned garbage rfl))⟩
      cases r with
      | blocks => cases hrun
      | failed | nothing | reports status => exact hreports (by simp) hrun
    · rw [if_neg hfg] at hrun
      obtain rfl := Option.some.inj hrun
      have hstatus : s.use garbage .fgStatus = some (s, some .fgReset) := by
        simp [Shell.use, hjob, hfg]
      exact ⟨_, resumed garbage htest (resumed garbage hstatus (returned garbage rfl))⟩

theorem sigint_whole (s : Shell) :
    ∃ es, runOf take (enter ⟨s, []⟩ (some .sigint)) es = some ⟨s.sigintHandler, []⟩ := by
  unfold Shell.sigintHandler
  by_cases hidle : s.currFgId = -1
  · exact ⟨[], by simp [enter, Shell.firstUse, hidle, runOf]⟩
  rw [if_pos hidle, enter, Shell.firstUse, if_pos hidle]
  cases hjob : s.jobArr (s.currFgId - 1) with
  | none =>
    have hsame : s.setStatus (s.currFgId - 1) .fg = s := by
      rw [Shell.setStatus, hjob, Option.map_none, ← hjob, Function.update_eq_self]
    rw [hsame]
    exact ⟨_, returned .exited (by simp [Shell.use, hjob])⟩
  | some job =>
    have htest : s.use .exited .intTest = some (s, some .intKill) := by simp [Shell.use, hjob]
    have hkill : s.use .exited .intKill = some (s, some .intStatus) := by simp [Shell.use, hjob]
    have hstatus : s.use .exited .intStatus = some (s.setStatus (s.currFgId - 1) .fg, none) := by
      simp [Shell.use, hjob]
    exact ⟨_, resumed .exited htest (resumed .exited hkill (returned .exited hstatus))⟩

theorem sigtstp_whole (s : Shell) :
    ∃ es, runOf take (enter ⟨s, []⟩ (some .sigtstp)) es = some ⟨s.sigtstpHandler, []⟩ := by
  unfold Shell.sigtstpHandler
  by_cases hidle : s.currFgId = -1
  · exact ⟨[], by simp [enter, Shell.firstUse, hidle, runOf]⟩
  rw [if_pos hidle, enter, Shell.firstUse, if_pos hidle]
  cases hjob : s.jobArr (s.currFgId - 1) with
  | none => exact ⟨_, returned .exited (by simp [Shell.use, hjob])⟩
  | some job =>
    let u : Shell := { s with children := stop s.children job.pid }
    have htest : s.use .exited .tstpTest = some (s, some .tstpKill) := by simp [Shell.use, hjob]
    have hkill : s.use .exited .tstpKill = some (u, some .tstpStatus) := by
      simp [Shell.use, hjob, u]
    have hstatus : u.use .exited .tstpStatus = some (u.setStatus (u.currFgId - 1) .stopped, none) :=
      by simp [Shell.use, hjob, u]
    exact ⟨_, resumed .exited htest (resumed .exited hkill (returned .exited hstatus))⟩

/-- A step of the shell in which every handler and `fg_remove` is one step is made of inputs here.
-/
theorem step_whole {e : Shell.Event} (hread : ∀ c, e ≠ .read c) (hstep : s.step e = some t) :
    ∃ es, runOf take ⟨s, []⟩ es = some ⟨t, []⟩ := by
  have hone {e : Input} (htake : take ⟨s, []⟩ e = some ⟨t, []⟩) :
      ∃ es, runOf take ⟨s, []⟩ es = some ⟨t, []⟩ := ⟨[e], by rw [runOf, htake]; rfl⟩
  have hsignal {sig : Handler} (hrunning : s.pc ≠ .exited) {m : Session}
      (hrest : ∃ es, runOf take (enter ⟨s, []⟩ (some sig)) es = some m) :
      ∃ es, runOf take ⟨s, []⟩ es = some m := by
    obtain ⟨es, hes⟩ := hrest
    refine ⟨.signal sig :: es, ?_⟩
    rw [runOf, take, if_pos ⟨hrunning, rfl⟩]
    exact hes
  cases e with
  | read c => exact absurd rfl (hread c)
  | shell pid garbage =>
    by_cases hpc : s.pc = .fgRemove
    · have hnext : s.next pid garbage = (s.fgRemove garbage).map ({ · with pc := .prompt }) := by
        rw [Shell.next, hpc]
      obtain ⟨u, hremove, rfl⟩ := Option.map_eq_some_iff.mp (hnext.symm.trans hstep)
      obtain ⟨es, hes⟩ := fgRemove_whole (h := none) rfl hremove
      refine ⟨.event (.shell pid garbage) :: es, ?_⟩
      rw [runOf, take, if_pos rfl, if_pos hpc]
      exact hes
    · refine hone (e := .event (.shell pid garbage)) ?_
      rw [take, if_pos rfl, if_neg hpc, show s.next pid garbage = some t from hstep]
      rfl
  | sigchld garbage =>
    obtain ⟨hrunning, hremove⟩ := Option.ite_none_left_eq_some.mp hstep
    exact hsignal hrunning (fgRemove_whole (h := some .sigchld) rfl hremove)
  | sigint =>
    obtain ⟨hrunning, hhandler⟩ := Option.ite_none_left_eq_some.mp hstep
    obtain rfl := Option.some.inj hhandler
    exact hsignal hrunning (sigint_whole s)
  | sigtstp =>
    obtain ⟨hrunning, hhandler⟩ := Option.ite_none_left_eq_some.mp hstep
    obtain rfl := Option.some.inj hhandler
    exact hsignal hrunning (sigtstp_whole s)
  | exits pid =>
    obtain rfl := Option.some.inj hstep
    exact hone (e := .event (.exits pid)) rfl
  | killed pid =>
    obtain rfl := Option.some.inj hstep
    exact hone (e := .event (.killed pid)) rfl
  | stops pid =>
    obtain rfl := Option.some.inj hstep
    exact hone (e := .event (.stops pid)) rfl
  | continues pid =>
    obtain rfl := Option.some.inj hstep
    exact hone (e := .event (.continues pid)) rfl

end

/-! ## Runs -/

end Session

end Cs537.P3
