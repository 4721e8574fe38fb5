import Mathlib.Algebra.Group.Int.Defs
import Mathlib.Algebra.GroupWithZero.Nat
import Mathlib.Logic.Function.Basic
import Mathlib.Data.List.FinRange
import Mathlib.Data.Int.Order.Basic
import Cs537.Lib.CInt

/-!
# The process table of xv6 and the operations on it

`ptable` and the parts of `proc.c`, `sysproc.c` and `trap.c` that move a process between
`SLEEPING`, `RUNNABLE` and `RUNNING`. Every operation below runs with `ptable.lock` held
over its whole length, so each is one function on the kernel state. The table has any
number of slots. Two components are history variables that no C code reads: `wakeups`
counts the calls of `wakeup1`, and `ticks` counts the timer interrupts without wrapping
round; the C variable `ticks` is its value modulo `2 ^ 32`.
-/

namespace Cs537.P4

/-- `enum procstate` (`proc.h:35`). -/
inductive ProcState where
  | unused
  | embryo
  | sleeping
  | runnable
  | running
  | zombie
  deriving DecidableEq, Repr

/-- The states of a process that can be in a system call. -/
def ProcState.live : ProcState → Bool
  | .sleeping | .runnable | .running => true
  | _ => false

/-- The addresses processes sleep on: `&ticks`, a slot of the process table (`wait`), or any
other kernel object (pipe ends, buffers, the log, sleep locks). -/
inductive Chan (nproc : Nat) where
  | ticks
  | proc (p : Fin nproc)
  | other (addr : Nat)
  deriving DecidableEq, Repr

/-- `struct proc` (`proc.h:38-56`), the fields the operations below use. A null pointer is
`none`. -/
structure Proc (nproc : Nat) where
  state : ProcState
  pid : Int
  parent : Option (Fin nproc)
  chan : Option (Chan nproc)
  killed : Bool
  sleeptime : Int
  deriving DecidableEq, Repr

/-- A call of `sys_sleep` whose loop has begun: its argument, and the values of `wakeups` when
`sleeptime` was stored and of `ticks` when `ticks0` was read. -/
structure SleepCall where
  n : Int
  wakeups0 : Nat
  ticks0 : Nat
  deriving DecidableEq, Repr

/-- Where a process is in `sys_sleep` (`sysproc.c:61-83`). -/
inductive Pc where
  /-- In user code, or anywhere in the kernel outside `sys_sleep`. -/
  | elsewhere
  /-- After line 70, waiting for `tickslock`. -/
  | stored (n : Int) (wakeups0 : Nat)
  /-- At line 78 with `tickslock` held: the loop goes on and the process was not killed. -/
  | looping (c : SleepCall)
  /-- Inside `sleep(&ticks, &tickslock)`, from `SLEEPING` until `tickslock` is retaken. -/
  | asleep (c : SleepCall)
  deriving DecidableEq, Repr

/-- The kernel state: the process table, `nextpid`, `ticks`, the holder of `tickslock`, the
position of each process, and the number of `wakeup1` calls so far. -/
structure Kernel (nproc : Nat) where
  proc : Fin nproc → Proc nproc
  nextpid : Int
  ticks : Nat
  tickslock : Option (Fin nproc)
  pc : Fin nproc → Pc
  wakeups : Nat

namespace Kernel

variable {nproc : Nat}

/-- Overwriting one slot of the process table. -/
def setProc (k : Kernel nproc) (i : Fin nproc) (p : Proc nproc) : Kernel nproc :=
  { k with proc := Function.update k.proc i p }

/-- Moving one process to another position. -/
def setPc (k : Kernel nproc) (i : Fin nproc) (pc : Pc) : Kernel nproc :=
  { k with pc := Function.update k.pc i pc }

theorem setProc_proc (k : Kernel nproc) (i j : Fin nproc) (p : Proc nproc) :
    (k.setProc i p).proc j = if j = i then p else k.proc j := by
  simp only [setProc, Function.update_apply]

theorem setPc_pc (k : Kernel nproc) (i j : Fin nproc) (pc : Pc) :
    (k.setPc i pc).pc j = if j = i then pc else k.pc j := by
  simp only [setPc, Function.update_apply]

/-- One round of the loop of `wakeup1` (`proc.c:519-527`): the body of the `if` and of its
`else if` on one slot. -/
def wakeup1Slot (chan : Option (Chan nproc)) (p : Proc nproc) : Proc nproc :=
  if p.state = .sleeping ∧ p.chan = chan ∧ p.sleeptime ≤ 0 then
    { p with state := .runnable }
  else if p.sleeptime > 0 then
    { p with sleeptime := p.sleeptime - 1 }
  else p

/-- `wakeup1` (`proc.c:514-528`). The rounds of its loop touch different slots. -/
def wakeup1 (chan : Option (Chan nproc)) (k : Kernel nproc) : Kernel nproc :=
  { k with
    proc := fun i => wakeup1Slot chan (k.proc i)
    wakeups := k.wakeups + 1 }

/-- `kill` (`proc.c:542-560`): the first slot with this pid, used or not. -/
def kill (pid : Int) (k : Kernel nproc) : Kernel nproc :=
  match (List.finRange nproc).find? (fun i => (k.proc i).pid = pid) with
  | none => k
  | some i =>
    let p := { k.proc i with killed := true }
    k.setProc i (if p.state = .sleeping then { p with state := .runnable } else p)

/-- One round of the loop of `exit` that passes abandoned children to init
(`proc.c:263-269`). -/
def reparent (initproc curproc : Fin nproc) (k : Kernel nproc) (i : Fin nproc) :
    Kernel nproc :=
  if (k.proc i).parent = some curproc then
    let k := k.setProc i { k.proc i with parent := some initproc }
    if (k.proc i).state = .zombie then wakeup1 (some (.proc initproc)) k else k
  else k

/-- `exit` from its acquisition of `ptable.lock` on (`proc.c:257-274`). Closing files and
releasing the working directory come before it, as wakeups on other channels. -/
def exit (initproc curproc : Fin nproc) (k : Kernel nproc) : Kernel nproc :=
  let k := wakeup1 ((k.proc curproc).parent.map .proc) k
  let k := (List.finRange nproc).foldl (reparent initproc curproc) k
  k.setProc curproc { k.proc curproc with state := .zombie }

/-- `sleep` (`proc.c:474-507`) up to its call of `sched`. -/
def sleep (chan : Chan nproc) (curproc : Fin nproc) (k : Kernel nproc) : Kernel nproc :=
  k.setProc curproc { k.proc curproc with chan := some chan, state := .sleeping }

/-- One pass of the loop of `wait` (`proc.c:288-318`): free the first zombie child, or give up
without children or when killed, or sleep on the own slot. -/
def wait (curproc : Fin nproc) (k : Kernel nproc) : Kernel nproc :=
  match (List.finRange nproc).find? fun i =>
      (k.proc i).parent = some curproc ∧ (k.proc i).state = .zombie with
  | some i =>
    k.setProc i
      { k.proc i with pid := 0, parent := none, killed := false, state := .unused }
  | none =>
    if (∀ i, (k.proc i).parent ≠ some curproc) ∨ (k.proc curproc).killed = true then k
    else sleep (.proc curproc) curproc k

/-- How a call of `fork` that found a slot ends. -/
inductive ForkEnd where
  /-- `allocproc` finds no memory for the kernel stack (`proc.c:96-99`). -/
  | kallocFails
  /-- `copyuvm` fails (`proc.c:191-196`), after `allocproc` has reset `sleeptime`. -/
  | copyuvmFails
  /-- The child is ready to run (`proc.c:197-219`). -/
  | returns
  deriving DecidableEq, Repr

/-- `fork` with `allocproc` (`proc.c:76-123`, `181-222`): the first unused slot, if any. In
between the slot is `EMBRYO`, which no other operation tells from any state but `SLEEPING`. -/
def fork (curproc : Fin nproc) (result : ForkEnd) (k : Kernel nproc) : Kernel nproc :=
  match (List.finRange nproc).find? (fun i => (k.proc i).state = .unused) with
  | none => k
  | some i =>
    let p := { k.proc i with pid := k.nextpid }
    let p := match result with
      | .kallocFails => p
      | .copyuvmFails => { p with sleeptime := 0 }
      | .returns =>
        { p with sleeptime := 0, parent := some curproc, state := .runnable }
    { k.setProc i p with nextpid := Lib.i32 (k.nextpid + 1) }

/-- What a pass of the loop of `wait` does. -/
theorem wait_cases (curproc : Fin nproc) (k : Kernel nproc) :
    (∃ i, (k.proc i).state = .zombie ∧ wait curproc k = k.setProc i
      { k.proc i with pid := 0, parent := none, killed := false, state := .unused }) ∨
    wait curproc k = k ∨ wait curproc k = sleep (.proc curproc) curproc k := by
  unfold Kernel.wait
  split
  · rename_i i hi
    have hz := List.find?_some hi
    simp only [decide_eq_true_eq] at hz
    exact .inl ⟨i, hz.2, rfl⟩
  · split
    · exact .inr (.inl rfl)
    · exact .inr (.inr rfl)

/-- What `fork` does: nothing without a free slot; otherwise the slot stays free, or it gets a child
that can run. -/
theorem fork_cases (curproc : Fin nproc) (result : ForkEnd) (k : Kernel nproc) :
    fork curproc result k = k ∨
    ∃ i q, (k.proc i).state = .unused ∧
      (q.state = .unused ∨ q.state = .runnable ∧ q.sleeptime = 0) ∧
      fork curproc result k = { k.setProc i q with nextpid := Lib.i32 (k.nextpid + 1) } := by
  unfold Kernel.fork
  split
  · exact .inl rfl
  · rename_i i hi
    have hu := List.find?_some hi
    simp only [decide_eq_true_eq] at hu
    refine .inr ⟨i, _, hu, ?_, rfl⟩
    cases result with
    | kallocFails | copyuvmFails => exact .inl hu
    | returns => exact .inr ⟨rfl, rfl⟩

/-- The test of the loop of `sys_sleep` (`sysproc.c:73`), `ticks - ticks0 < n`: the `int` `n`
is converted to `uint` and the subtraction is one of `uint`. -/
def sleepsOn (n : Int) (ticks ticks0 : Nat) : Bool :=
  ((ticks : Int) - ticks0) % 2 ^ 32 < n % 2 ^ 32

/-- From the head of the loop of `sys_sleep` with `tickslock` held to its call of `sleep`, or
out of the function (`sysproc.c:73-82`). -/
def sleepLoop (c : SleepCall) (curproc : Fin nproc) (k : Kernel nproc) : Kernel nproc :=
  if sleepsOn c.n k.ticks c.ticks0 = true ∧ (k.proc curproc).killed = false then
    { k.setPc curproc (.looping c) with tickslock := some curproc }
  else
    { k.setPc curproc .elsewhere with tickslock := none }

/-- The timer interrupt on the first processor (`trap.c:51-56`). -/
def timer (k : Kernel nproc) : Kernel nproc :=
  wakeup1 (some .ticks) { k with ticks := k.ticks + 1 }

/-- What can happen next. -/
inductive Event (nproc : Nat) where
  /-- A timer interrupt. -/
  | tick
  /-- `wakeup(chan)` on a channel other than `&ticks`, by any process or interrupt. -/
  | wakeup (chan : Chan nproc)
  /-- `kill(pid)`. -/
  | kill (pid : Int)
  /-- An unexpected trap in user space (`trap.c:97`). -/
  | trapKill (p : Fin nproc)
  | exit (p : Fin nproc)
  /-- The scheduler switches to `p`, which resumes in `sleep`, `yield` or `forkret`. -/
  | schedule (p : Fin nproc)
  | yield (p : Fin nproc)
  /-- `sleep` on a channel other than `&ticks`. -/
  | sleep (p : Fin nproc) (chan : Chan nproc)
  | wait (p : Fin nproc)
  | fork (p : Fin nproc) (result : ForkEnd)
  /-- `sys_sleep` with argument `n`, up to the store of `sleeptime` (`sysproc.c:70`). -/
  | sysSleep (p : Fin nproc) (n : Int)
  /-- `sys_sleep` acquires `tickslock` and reads `ticks0` (`sysproc.c:71-72`). -/
  | acquireTickslock (p : Fin nproc)
  /-- `sleep(&ticks, &tickslock)` goes to `SLEEPING` and releases `tickslock`. -/
  | sleepTicks (p : Fin nproc)
  /-- `sleep` has returned in `sys_sleep`: `tickslock` is retaken and the loop goes on. -/
  | wakeTicks (p : Fin nproc)
  deriving DecidableEq, Repr

/-- One step of the kernel; `none` where the event cannot happen. A process acts while it is
`RUNNING`, and an acquisition of `tickslock` waits until it is free. -/
def next (initproc : Fin nproc) (k : Kernel nproc) : Event nproc → Option (Kernel nproc)
  | .tick => if k.tickslock = none then some (timer k) else none
  | .wakeup chan => if chan ≠ .ticks then some (wakeup1 (some chan) k) else none
  | .kill pid => some (kill pid k)
  | .trapKill p =>
    if (k.proc p).state = .running ∧ k.pc p = .elsewhere then
      some (k.setProc p { k.proc p with killed := true })
    else none
  | .exit p =>
    -- `exit` of the first process is a panic (`proc.c:241-242`)
    if (k.proc p).state = .running ∧ k.pc p = .elsewhere ∧ p ≠ initproc then
      some (exit initproc p k)
    else none
  | .schedule p =>
    -- `sleep` clears `chan` before `ptable.lock` is released (`proc.c:500`); elsewhere it is
    -- already clear
    if (k.proc p).state = .runnable then
      some (k.setProc p { k.proc p with state := .running, chan := none })
    else none
  | .yield p =>
    if (k.proc p).state = .running ∧ k.tickslock ≠ some p then
      some (k.setProc p { k.proc p with state := .runnable })
    else none
  | .sleep p chan =>
    if (k.proc p).state = .running ∧ k.pc p = .elsewhere ∧ chan ≠ .ticks then
      some (sleep chan p k)
    else none
  | .wait p =>
    if (k.proc p).state = .running ∧ k.pc p = .elsewhere then some (wait p k) else none
  | .fork p result =>
    if (k.proc p).state = .running ∧ k.pc p = .elsewhere then some (fork p result k) else none
  | .sysSleep p n =>
    if (k.proc p).state = .running ∧ k.pc p = .elsewhere ∧ -2 ^ 31 ≤ n ∧ n < 2 ^ 31 then
      some ((k.setProc p { k.proc p with sleeptime := n }).setPc p (.stored n k.wakeups))
    else none
  | .acquireTickslock p =>
    match k.pc p with
    | .stored n wakeups0 =>
      if (k.proc p).state = .running ∧ k.tickslock = none then
        some (sleepLoop ⟨n, wakeups0, k.ticks⟩ p k)
      else none
    | _ => none
  | .sleepTicks p =>
    match k.pc p with
    | .looping c =>
      if (k.proc p).state = .running then
        some { (sleep .ticks p k).setPc p (.asleep c) with tickslock := none }
      else none
    | _ => none
  | .wakeTicks p =>
    match k.pc p with
    | .asleep c =>
      if (k.proc p).state = .running ∧ k.tickslock = none then
        some (sleepLoop c p k)
      else none
    | _ => none

/-- The steps of the kernel as a relation: what each event needs, and what it leaves. -/
inductive Steps (initproc : Fin nproc) (k : Kernel nproc) : Event nproc → Kernel nproc → Prop where
  | tick (hfree : k.tickslock = none) : Steps initproc k .tick (timer k)
  | wakeup {chan : Chan nproc} (hchan : chan ≠ .ticks) :
      Steps initproc k (.wakeup chan) (wakeup1 (some chan) k)
  | kill (pid : Int) : Steps initproc k (.kill pid) (kill pid k)
  | trapKill {p : Fin nproc} (hrun : (k.proc p).state = .running) (hpc : k.pc p = .elsewhere) :
      Steps initproc k (.trapKill p) (k.setProc p { k.proc p with killed := true })
  | exit {p : Fin nproc} (hrun : (k.proc p).state = .running) (hpc : k.pc p = .elsewhere)
      (hinit : p ≠ initproc) : Steps initproc k (.exit p) (exit initproc p k)
  | schedule {p : Fin nproc} (hready : (k.proc p).state = .runnable) :
      Steps initproc k (.schedule p)
        (k.setProc p { k.proc p with state := .running, chan := none })
  | yield {p : Fin nproc} (hrun : (k.proc p).state = .running) (hfree : k.tickslock ≠ some p) :
      Steps initproc k (.yield p) (k.setProc p { k.proc p with state := .runnable })
  | sleep {p : Fin nproc} {chan : Chan nproc} (hrun : (k.proc p).state = .running)
      (hpc : k.pc p = .elsewhere) (hchan : chan ≠ .ticks) :
      Steps initproc k (.sleep p chan) (sleep chan p k)
  | wait {p : Fin nproc} (hrun : (k.proc p).state = .running) (hpc : k.pc p = .elsewhere) :
      Steps initproc k (.wait p) (wait p k)
  | fork {p : Fin nproc} (result : ForkEnd) (hrun : (k.proc p).state = .running)
      (hpc : k.pc p = .elsewhere) : Steps initproc k (.fork p result) (fork p result k)
  | sysSleep {p : Fin nproc} {n : Int} (hrun : (k.proc p).state = .running)
      (hpc : k.pc p = .elsewhere) (hmin : -2 ^ 31 ≤ n) (hmax : n < 2 ^ 31) :
      Steps initproc k (.sysSleep p n)
        ((k.setProc p { k.proc p with sleeptime := n }).setPc p (.stored n k.wakeups))
  | acquireTickslock {p : Fin nproc} {n : Int} {wakeups0 : Nat} (hpc : k.pc p = .stored n wakeups0)
      (hrun : (k.proc p).state = .running) (hfree : k.tickslock = none) :
      Steps initproc k (.acquireTickslock p) (sleepLoop ⟨n, wakeups0, k.ticks⟩ p k)
  | sleepTicks {p : Fin nproc} {c : SleepCall} (hpc : k.pc p = .looping c)
      (hrun : (k.proc p).state = .running) :
      Steps initproc k (.sleepTicks p)
        { (Kernel.sleep .ticks p k).setPc p (.asleep c) with tickslock := none }
  | wakeTicks {p : Fin nproc} {c : SleepCall} (hpc : k.pc p = .asleep c)
      (hrun : (k.proc p).state = .running) (hfree : k.tickslock = none) :
      Steps initproc k (.wakeTicks p) (sleepLoop c p k)

theorem steps_of_next {initproc : Fin nproc} {k k' : Kernel nproc} {e : Event nproc}
    (hnext : next initproc k e = some k') : Steps initproc k e k' := by
  cases e with
  | tick =>
    simp only [next, Option.ite_none_right_eq_some, Option.some.injEq] at hnext
    obtain ⟨hfree, rfl⟩ := hnext
    exact .tick hfree
  | wakeup chan =>
    simp only [next, Option.ite_none_right_eq_some, Option.some.injEq] at hnext
    obtain ⟨hchan, rfl⟩ := hnext
    exact .wakeup hchan
  | kill pid =>
    cases hnext
    exact .kill pid
  | trapKill p =>
    simp only [next, Option.ite_none_right_eq_some, Option.some.injEq] at hnext
    obtain ⟨⟨hrun, hpc⟩, rfl⟩ := hnext
    exact .trapKill hrun hpc
  | exit p =>
    simp only [next, Option.ite_none_right_eq_some, Option.some.injEq] at hnext
    obtain ⟨⟨hrun, hpc, hinit⟩, rfl⟩ := hnext
    exact .exit hrun hpc hinit
  | schedule p =>
    simp only [next, Option.ite_none_right_eq_some, Option.some.injEq] at hnext
    obtain ⟨hready, rfl⟩ := hnext
    exact .schedule hready
  | yield p =>
    simp only [next, Option.ite_none_right_eq_some, Option.some.injEq] at hnext
    obtain ⟨⟨hrun, hfree⟩, rfl⟩ := hnext
    exact .yield hrun hfree
  | sleep p chan =>
    simp only [next, Option.ite_none_right_eq_some, Option.some.injEq] at hnext
    obtain ⟨⟨hrun, hpc, hchan⟩, rfl⟩ := hnext
    exact .sleep hrun hpc hchan
  | wait p =>
    simp only [next, Option.ite_none_right_eq_some, Option.some.injEq] at hnext
    obtain ⟨⟨hrun, hpc⟩, rfl⟩ := hnext
    exact .wait hrun hpc
  | fork p result =>
    simp only [next, Option.ite_none_right_eq_some, Option.some.injEq] at hnext
    obtain ⟨⟨hrun, hpc⟩, rfl⟩ := hnext
    exact .fork result hrun hpc
  | sysSleep p n =>
    simp only [next, Option.ite_none_right_eq_some, Option.some.injEq] at hnext
    obtain ⟨⟨hrun, hpc, hmin, hmax⟩, rfl⟩ := hnext
    exact .sysSleep hrun hpc hmin hmax
  | acquireTickslock p =>
    cases hpc : k.pc p with
    | stored n w =>
      simp only [next, hpc, Option.ite_none_right_eq_some, Option.some.injEq] at hnext
      obtain ⟨⟨hrun, hfree⟩, rfl⟩ := hnext
      exact .acquireTickslock hpc hrun hfree
    | elsewhere | looping _ | asleep _ => simp [next, hpc] at hnext
  | sleepTicks p =>
    cases hpc : k.pc p with
    | looping c =>
      simp only [next, hpc, Option.ite_none_right_eq_some, Option.some.injEq] at hnext
      obtain ⟨hrun, rfl⟩ := hnext
      exact .sleepTicks hpc hrun
    | elsewhere | stored _ _ | asleep _ => simp [next, hpc] at hnext
  | wakeTicks p =>
    cases hpc : k.pc p with
    | asleep c =>
      simp only [next, hpc, Option.ite_none_right_eq_some, Option.some.injEq] at hnext
      obtain ⟨⟨hrun, hfree⟩, rfl⟩ := hnext
      exact .wakeTicks hpc hrun hfree
    | elsewhere | stored _ _ | looping _ => simp [next, hpc] at hnext

end Kernel

end Cs537.P4
