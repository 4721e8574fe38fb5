import Mathlib.Data.Fintype.Card
import Cs537.P4.Families

/-!
# The scheduler

Every processor runs the loop of `scheduler` (`proc.c:634-673`) over the process table, with
`ptable.lock` held except while it runs a process. A process is on one processor while it runs.
-/

namespace Cs537.P4

open Cs537.Lib

variable {ncpu nproc : Nat}

namespace Kernel

/-- The process that takes the step, if one does. -/
def Event.actor : Event nproc → Option (Fin nproc)
  | .tick | .wakeup _ | .kill _ | .schedule _ => none
  | .trapKill p | .exit p | .yield p | .sleep p _ | .wait p | .fork p _ | .sysSleep p _
  | .acquireTickslock p | .sleepTicks p | .wakeTicks p => some p

/-- Steps that need `ptable.lock`. -/
def Event.locks : Event nproc → Bool
  | .trapKill _ | .sysSleep _ _ | .acquireTickslock _ | .wakeTicks _ => false
  | .tick | .wakeup _ | .kill _ | .schedule _ | .exit _ | .yield _ | .sleep _ _ | .wait _
  | .fork _ _ | .sleepTicks _ => true

/-- How the state of a process can change that does nothing itself. -/
inductive Drift (s : ProcState) : ProcState → Prop where
  | same : Drift s s
  | woken (h : s = .sleeping) : Drift s .runnable
  | reaped (h : s = .zombie) : Drift s .unused
  | born (h : s = .unused) : Drift s .runnable

variable {initproc p q : Fin nproc} {k k' : Kernel nproc} {e : Event nproc} {s s' : ProcState}

theorem Drift.running_iff (h : Drift s s') : s' = .running ↔ s = .running := by
  cases h with
  | same => exact Iff.rfl
  | woken h | reaped h | born h =>
    subst h
    decide

theorem Drift.runnable (h : Drift s s') (hready : s = .runnable) : s' = .runnable := by
  cases h with
  | same => exact hready
  | woken _ | born _ => rfl
  | reaped h =>
    rw [hready] at h
    cases h

/-- Sleeping or woken. -/
def WokenFrom (k k' : Kernel nproc) : Prop :=
  ∀ q, (k'.proc q).state = (k.proc q).state ∨
    (k.proc q).state = .sleeping ∧ (k'.proc q).state = .runnable

theorem WokenFrom.refl (k : Kernel nproc) : WokenFrom k k := fun _ => .inl rfl

theorem WokenFrom.trans {k'' : Kernel nproc} (h : WokenFrom k k') (h' : WokenFrom k' k'') :
    WokenFrom k k'' := by
  intro q
  rcases h q with hq | ⟨hq, hq'⟩
  · rw [← hq]
    exact h' q
  · rcases h' q with hq'' | ⟨hq'', -⟩
    · exact .inr ⟨hq, hq''.trans hq'⟩
    · rw [hq'] at hq''
      cases hq''

theorem WokenFrom.drift (h : WokenFrom k k') (q : Fin nproc) :
    Drift (k.proc q).state (k'.proc q).state := by
  rcases h q with hq | ⟨hq, hq'⟩
  · rw [hq]
    exact .same
  · rw [hq']
    exact .woken hq

theorem wokenFrom_wakeup1 (chan : Option (Chan nproc)) (k : Kernel nproc) :
    WokenFrom k (wakeup1 chan k) := by
  intro q
  unfold wakeup1 wakeup1Slot
  dsimp only
  split
  · rename_i h
    exact .inr ⟨h.1, rfl⟩
  · split
    · exact .inl rfl
    · exact .inl rfl

theorem wokenFrom_reparent (k : Kernel nproc) (i : Fin nproc) :
    WokenFrom k (reparent initproc p k i) := by
  unfold Kernel.reparent
  split
  · have hset : WokenFrom k (k.setProc i { k.proc i with parent := some initproc }) := by
      intro q
      rw [setProc_proc]
      split
      · rename_i hq
        exact .inl (by rw [hq])
      · exact .inl rfl
    dsimp only
    split
    · exact hset.trans (wokenFrom_wakeup1 _ _)
    · exact hset
  · exact .refl k

theorem wokenFrom_foldl_reparent (l : List (Fin nproc)) :
    ∀ k : Kernel nproc, WokenFrom k (l.foldl (reparent initproc p) k) := by
  induction l with
  | nil => exact fun k => .refl k
  | cons i l ih => exact fun k => (wokenFrom_reparent k i).trans (ih _)

theorem wokenFrom_kill (pid : Int) (k : Kernel nproc) : WokenFrom k (Kernel.kill pid k) := by
  unfold Kernel.kill
  split
  · exact .refl k
  · rename_i i _
    intro q
    dsimp only
    rw [setProc_proc]
    split
    · rename_i hq
      rw [hq]
      split
      · rename_i hsleeping
        exact .inr ⟨hsleeping, rfl⟩
      · exact .inl rfl
    · exact .inl rfl

theorem setProc_of_ne (k : Kernel nproc) {i j : Fin nproc} (hj : j ≠ i) (q : Proc nproc) :
    (k.setProc i q).proc j = k.proc j := (setProc_proc k i j q).trans (if_neg hj)

theorem drift_setProc (k : Kernel nproc) (hq : q ≠ p) (r : Proc nproc) :
    Drift (k.proc q).state ((k.setProc p r).proc q).state := by
  rw [setProc_of_ne _ hq]
  exact .same

theorem drift_exit (hq : q ≠ p) (k : Kernel nproc) :
    Drift (k.proc q).state ((Kernel.exit initproc p k).proc q).state := by
  unfold Kernel.exit
  dsimp only
  rw [setProc_of_ne _ hq]
  exact ((wokenFrom_wakeup1 _ k).trans (wokenFrom_foldl_reparent _ _)).drift q

theorem drift_wait (hq : q ≠ p) (k : Kernel nproc) :
    Drift (k.proc q).state ((Kernel.wait p k).proc q).state := by
  rcases wait_cases p k with ⟨i, hzombie, heq⟩ | heq | heq
  · rw [heq]
    by_cases hi : q = i
    · rw [setProc_proc, if_pos hi, hi]
      exact .reaped hzombie
    · exact drift_setProc k hi _
  · rw [heq]
    exact .same
  · rw [heq]
    exact drift_setProc k hq _

theorem drift_fork (result : ForkEnd) (k : Kernel nproc) (q : Fin nproc) :
    Drift (k.proc q).state ((Kernel.fork p result k).proc q).state := by
  rcases fork_cases p result k with heq | ⟨i, c, hunused, hc, heq⟩
  · rw [heq]
    exact .same
  · rw [heq]
    dsimp only
    by_cases hi : q = i
    · rw [setProc_proc, if_pos hi, hi, hunused]
      rcases hc with hc | ⟨hc, -⟩
      · rw [hc]
        exact .same
      · rw [hc]
        exact .born rfl
    · exact drift_setProc k hi _

theorem sleepLoop_proc (c : SleepCall) (p : Fin nproc) (k : Kernel nproc) :
    (sleepLoop c p k).proc = k.proc := by
  unfold sleepLoop
  split
  · rfl
  · rfl

/-- What a step does to the processes that do not take it. -/
theorem drift_of_next (hnext : next initproc k e = some k') (hactor : e.actor ≠ some q)
    (hother : e ≠ .schedule q) : Drift (k.proc q).state (k'.proc q).state := by
  have hne : ∀ {p : Fin nproc}, some p ≠ some q → q ≠ p := fun h heq => h (congrArg some heq.symm)
  cases steps_of_next hnext with
  | tick _ => exact (wokenFrom_wakeup1 _ _).drift q
  | wakeup _ => exact (wokenFrom_wakeup1 _ _).drift q
  | kill pid => exact (wokenFrom_kill pid k).drift q
  | exit _ _ _ => exact drift_exit (hne hactor) k
  | schedule _ => exact drift_setProc k (fun heq => hother (congrArg Event.schedule heq.symm)) _
  | trapKill _ _ | yield _ _ | sysSleep _ _ _ _ | sleep _ _ _ | sleepTicks _ _ =>
    exact drift_setProc k (hne hactor) _
  | wait _ _ => exact drift_wait (hne hactor) k
  | fork result _ _ => exact drift_fork result k q
  | acquireTickslock _ _ _ | wakeTicks _ _ _ =>
    rw [sleepLoop_proc]
    exact .same

/-- Who takes a step runs. -/
theorem running_of_actor (hnext : next initproc k e = some k') (hactor : e.actor = some p) :
    (k.proc p).state = .running := by
  cases steps_of_next hnext with
  | tick _ | wakeup _ | kill _ | schedule _ => cases hactor
  | trapKill hrun _ | exit hrun _ _ | yield hrun _ | sleep hrun _ _ | wait hrun _
  | fork _ hrun _ | sysSleep hrun _ _ _ | acquireTickslock _ hrun _ | sleepTicks _ hrun
  | wakeTicks _ hrun _ =>
    cases hactor
    exact hrun

/-- Without `ptable.lock` nobody stops running. -/
theorem running_of_free (hnext : next initproc k e = some k') (hactor : e.actor = some p)
    (hlocks : e.locks = false) : (k'.proc p).state = .running := by
  have hrun := running_of_actor hnext hactor
  cases steps_of_next hnext with
  | tick _ | wakeup _ | kill _ | schedule _ | exit _ _ _ | yield _ _ | sleep _ _ _ | wait _ _
  | fork _ _ _ | sleepTicks _ _ => cases hlocks
  | trapKill _ _ | sysSleep _ _ _ _ =>
    cases hactor
    exact (congrArg Proc.state ((setProc_proc k p p _).trans (if_pos rfl))).trans hrun
  | acquireTickslock _ _ _ | wakeTicks _ _ _ =>
    rw [sleepLoop_proc]
    exact hrun

end Kernel

/-! ## Processors -/

/-- What the scheduler and `nice` keep of a process. -/
structure SchedInfo where
  priority : Int
  nice : Int
  ticks : Int
  deriving DecidableEq, Repr

/-- A processor: the slot at which its loop goes on, and the process that it runs. -/
structure Cpu (nproc : Nat) where
  cursor : Nat
  proc : Option (Fin nproc)

/-- The kernel on its processors. `lock` is the processor whose scheduler has `ptable.lock`, and
`switches` a record of all switches to a process. -/
structure Machine (ncpu nproc : Nat) where
  kernel : Kernel nproc
  info : Fin nproc → SchedInfo
  cpu : Fin ncpu → Cpu nproc
  lock : Option (Fin ncpu)
  switches : List (Fin ncpu × Fin nproc)

/-- Steps that are not a process's own. -/
def Kernel.Event.isInterrupt : Kernel.Event nproc → Bool
  | .tick | .wakeup _ | .kill _ => true
  | _ => false

namespace Machine

inductive Event (ncpu nproc : Nat) where
  | interrupt (e : Kernel.Event nproc)
  /-- A step of the process on processor `c`. -/
  | call (c : Fin ncpu) (e : Kernel.Event nproc)
  | nice (c : Fin ncpu) (newnice : Int)
  /-- The scheduler on `c` begins with the first slot. -/
  | acquire (c : Fin ncpu)
  /-- It looks at the next slot, and switches to the process there if it can run. -/
  | look (c : Fin ncpu)
  | release (c : Fin ncpu)
  deriving DecidableEq, Repr

/-- `nice` (`proc.c:599-609`). -/
def setNice (newnice : Int) (curr : SchedInfo) : Int × SchedInfo :=
  if newnice < 0 ∨ 20 < newnice then (-1, curr) else (curr.nice, { curr with nice := newnice })

/-- The slot that `allocproc` takes. -/
def freeSlot (k : Kernel nproc) : Option (Fin nproc) :=
  (List.finRange nproc).find? fun i => (k.proc i).state = .unused

/-- What `allocproc` resets, unless there is no kernel stack (`proc.c:117-120`). -/
def allocInfo (k : Kernel nproc) (e : Kernel.Event nproc) (info : Fin nproc → SchedInfo) :
    Fin nproc → SchedInfo :=
  match e with
  | .fork _ .copyuvmFails | .fork _ .returns =>
    match freeSlot k with
    | some i => Function.update info i ⟨0, 0, 0⟩
    | none => info
  | _ => info

/-- A process that does not run any more has called `sched`, and with `ptable.lock` the processor is
in its scheduler again. -/
def back (m : Machine ncpu nproc) (c : Fin ncpu) (p : Fin nproc) : Machine ncpu nproc :=
  if (m.kernel.proc p).state = .running then m
  else
    { m with cpu := Function.update m.cpu c { m.cpu c with proc := none }, lock := some c }

def next (initproc : Fin nproc) (m : Machine ncpu nproc) :
    Event ncpu nproc → Option (Machine ncpu nproc)
  | .interrupt e =>
    if e.isInterrupt = true ∧ m.lock = none then
      (Kernel.next initproc m.kernel e).map fun k => { m with kernel := k }
    else none
  | .call c e =>
    match (m.cpu c).proc with
    | some p =>
      if e.actor = some p ∧ (e.locks = true → m.lock = none) then
        (Kernel.next initproc m.kernel e).map fun k =>
          back { m with kernel := k, info := allocInfo m.kernel e m.info } c p
      else none
    | none => none
  | .nice c newnice =>
    match (m.cpu c).proc with
    | some p =>
      if m.kernel.pc p = .elsewhere then
        some { m with info := Function.update m.info p (setNice newnice (m.info p)).2 }
      else none
    | none => none
  | .acquire c =>
    if (m.cpu c).proc = none ∧ m.lock = none then
      some { m with cpu := Function.update m.cpu c ⟨0, none⟩, lock := some c }
    else none
  | .look c =>
    if h : m.lock = some c ∧ (m.cpu c).cursor < nproc then
      let p : Fin nproc := ⟨(m.cpu c).cursor, h.2⟩
      if (m.kernel.proc p).state = .runnable then
        (Kernel.next initproc m.kernel (.schedule p)).map fun k =>
          { kernel := k
            info := Function.update m.info p { m.info p with ticks := i32 ((m.info p).ticks + 1) }
            cpu := Function.update m.cpu c ⟨(m.cpu c).cursor + 1, some p⟩
            lock := none
            switches := m.switches ++ [(c, p)] }
      else
        some { m with
          cpu := Function.update m.cpu c { m.cpu c with cursor := (m.cpu c).cursor + 1 } }
    else none
  | .release c =>
    if m.lock = some c ∧ (m.cpu c).cursor = nproc then some { m with lock := none } else none

variable {initproc p q : Fin nproc} {m m' s t : Machine ncpu nproc} {e : Event ncpu nproc}
  {c d : Fin ncpu} {es : List (Event ncpu nproc)} {k : Kernel nproc}

/-- The steps of the machine: the kernel's, or the scheduler's. -/
inductive Steps (initproc : Fin nproc) (m : Machine ncpu nproc) :
    Event ncpu nproc → Machine ncpu nproc → Prop where
  | interrupt {e : Kernel.Event nproc} {k : Kernel nproc} (hintr : e.isInterrupt = true)
      (hlock : m.lock = none) (hnext : Kernel.next initproc m.kernel e = some k) :
      Steps initproc m (.interrupt e) { m with kernel := k }
  | call {c : Fin ncpu} {p : Fin nproc} {e : Kernel.Event nproc} {k : Kernel nproc}
      (hproc : (m.cpu c).proc = some p) (hactor : e.actor = some p)
      (hlocks : e.locks = true → m.lock = none)
      (hnext : Kernel.next initproc m.kernel e = some k) :
      Steps initproc m (.call c e)
        (back { m with kernel := k, info := allocInfo m.kernel e m.info } c p)
  | nice {c : Fin ncpu} {p : Fin nproc} (newnice : Int) (hproc : (m.cpu c).proc = some p) :
      Steps initproc m (.nice c newnice)
        { m with info := Function.update m.info p (setNice newnice (m.info p)).2 }
  | acquire {c : Fin ncpu} (hproc : (m.cpu c).proc = none) (hlock : m.lock = none) :
      Steps initproc m (.acquire c)
        { m with cpu := Function.update m.cpu c ⟨0, none⟩, lock := some c }
  | switch {c : Fin ncpu} {p : Fin nproc} {k : Kernel nproc} (hlock : m.lock = some c)
      (hcursor : (m.cpu c).cursor = p) (hready : (m.kernel.proc p).state = .runnable)
      (hnext : Kernel.next initproc m.kernel (.schedule p) = some k) :
      Steps initproc m (.look c)
        { kernel := k
          info := Function.update m.info p { m.info p with ticks := i32 ((m.info p).ticks + 1) }
          cpu := Function.update m.cpu c ⟨(m.cpu c).cursor + 1, some p⟩
          lock := none
          switches := m.switches ++ [(c, p)] }
  | pass {c : Fin ncpu} (hlock : m.lock = some c) (hcursor : (m.cpu c).cursor < nproc)
      (hready : (m.kernel.proc ⟨_, hcursor⟩).state ≠ .runnable) :
      Steps initproc m (.look c)
        { m with cpu := Function.update m.cpu c { m.cpu c with cursor := (m.cpu c).cursor + 1 } }
  | release {c : Fin ncpu} (hlock : m.lock = some c) (hcursor : (m.cpu c).cursor = nproc) :
      Steps initproc m (.release c) { m with lock := none }

theorem steps_of_next (hnext : next initproc m e = some m') : Steps initproc m e m' := by
  cases e with
  | interrupt e =>
    simp only [next, Option.ite_none_right_eq_some, Option.map_eq_some_iff] at hnext
    obtain ⟨⟨hintr, hlock⟩, k, hk, rfl⟩ := hnext
    exact .interrupt hintr hlock hk
  | call c e =>
    cases hproc : (m.cpu c).proc with
    | none => simp [next, hproc] at hnext
    | some p =>
      simp only [next, hproc, Option.ite_none_right_eq_some, Option.map_eq_some_iff] at hnext
      obtain ⟨⟨hactor, hlocks⟩, k, hk, rfl⟩ := hnext
      exact .call hproc hactor hlocks hk
  | nice c newnice =>
    cases hproc : (m.cpu c).proc with
    | none => simp [next, hproc] at hnext
    | some p =>
      simp only [next, hproc, Option.ite_none_right_eq_some, Option.some.injEq] at hnext
      obtain ⟨-, rfl⟩ := hnext
      exact .nice newnice hproc
  | acquire c =>
    simp only [next, Option.ite_none_right_eq_some, Option.some.injEq] at hnext
    obtain ⟨⟨hproc, hlock⟩, rfl⟩ := hnext
    exact .acquire hproc hlock
  | look c =>
    unfold next at hnext
    dsimp only at hnext
    by_cases h : m.lock = some c ∧ (m.cpu c).cursor < nproc
    · rw [dif_pos h] at hnext
      by_cases hready : (m.kernel.proc ⟨(m.cpu c).cursor, h.2⟩).state = .runnable
      · rw [if_pos hready] at hnext
        obtain ⟨k, hk, rfl⟩ := Option.map_eq_some_iff.mp hnext
        exact .switch h.1 rfl hready hk
      · rw [if_neg hready] at hnext
        cases hnext
        exact .pass h.1 h.2 hready
    · rw [dif_neg h] at hnext
      cases hnext
  | release c =>
    simp only [next, Option.ite_none_right_eq_some, Option.some.injEq] at hnext
    obtain ⟨⟨hlock, hcursor⟩, rfl⟩ := hnext
    exact .release hlock hcursor

theorem back_cursor (m : Machine ncpu nproc) (c d : Fin ncpu) (p : Fin nproc) :
    ((back m c p).cpu d).cursor = (m.cpu d).cursor := by
  unfold back
  split
  · rfl
  · dsimp only
    rw [Function.update_apply]
    split
    · rename_i hd
      rw [hd]
    · rfl

theorem back_kernel (m : Machine ncpu nproc) (c : Fin ncpu) (p : Fin nproc) :
    (back m c p).kernel = m.kernel ∧ (back m c p).switches = m.switches ∧
      (back m c p).info = m.info := by
  unfold back
  split
  · exact ⟨rfl, rfl, rfl⟩
  · exact ⟨rfl, rfl, rfl⟩

/-! ## One processor for each process that runs -/

/-- The processors and the process table agree, and a processor without a process is in its loop or
between two of them. -/
structure Sound (m : Machine ncpu nproc) : Prop where
  runs : ∀ c p, (m.cpu c).proc = some p → (m.kernel.proc p).state = .running
  only : ∀ c d p, (m.cpu c).proc = some p → (m.cpu d).proc = some p → c = d
  processor : ∀ p, (m.kernel.proc p).state = .running → ∃ c, (m.cpu c).proc = some p
  idle : ∀ c, m.lock = some c → (m.cpu c).proc = none
  cursor : ∀ c, (m.cpu c).cursor ≤ nproc
  between : ∀ c, (m.cpu c).proc = none → m.lock ≠ some c →
    (m.cpu c).cursor = 0 ∨ (m.cpu c).cursor = nproc

theorem Sound.kernel (h : m.Sound) {info : Fin nproc → SchedInfo}
    (hsame : ∀ q, (k.proc q).state = .running ↔ (m.kernel.proc q).state = .running) :
    Sound { m with kernel := k, info := info } where
  runs c p hp := (hsame p).mpr (h.runs c p hp)
  only := h.only
  processor p hp := h.processor p ((hsame p).mp hp)
  idle := h.idle
  cursor := h.cursor
  between := h.between

/-- The process on a processor has called `sched`. -/
theorem Sound.back (h : m.Sound) {info : Fin nproc → SchedInfo} (hproc : (m.cpu c).proc = some p)
    (hlock : m.lock = none) (hstopped : (k.proc p).state ≠ .running)
    (hsame : ∀ q, q ≠ p → ((k.proc q).state = .running ↔ (m.kernel.proc q).state = .running)) :
    Sound { m with
      kernel := k
      info := info
      cpu := Function.update m.cpu c { m.cpu c with proc := none }
      lock := some c } := by
  have hself : (Function.update m.cpu c { m.cpu c with proc := none } c).proc = none := by
    rw [Function.update_self]
  have hcpu : ∀ d q, (Function.update m.cpu c { m.cpu c with proc := none } d).proc = some q →
      (m.cpu d).proc = some q ∧ d ≠ c := by
    intro d q hd
    by_cases hdc : d = c
    · rw [hdc, hself] at hd
      cases hd
    · rw [Function.update_of_ne hdc] at hd
      exact ⟨hd, hdc⟩
  have hne : ∀ d q, (m.cpu d).proc = some q → d ≠ c → q ≠ p := by
    rintro d q hd hdc rfl
    exact hdc (h.only d c q hd hproc)
  refine ⟨fun d q hd => ?_, fun d d' q hd hd' => ?_, fun q hq => ?_, fun d hd => ?_, fun d => ?_,
    fun d hd hother => ?_⟩
  · obtain ⟨hd, hdc⟩ := hcpu d q hd
    exact (hsame q (hne d q hd hdc)).mpr (h.runs d q hd)
  · exact h.only d d' q (hcpu d q hd).1 (hcpu d' q hd').1
  · have hqp : q ≠ p := by
      rintro rfl
      exact hstopped hq
    obtain ⟨d, hd⟩ := h.processor q ((hsame q hqp).mp hq)
    refine ⟨d, ?_⟩
    have hdc : d ≠ c := by
      rintro rfl
      rw [hproc] at hd
      exact hqp (Option.some.inj hd).symm
    dsimp only
    rw [Function.update_of_ne hdc]
    exact hd
  · cases hd
    exact hself
  · dsimp only
    rw [Function.update_apply]
    split
    · exact h.cursor c
    · exact h.cursor d
  · have hdc : d ≠ c := fun heq => hother (congrArg some heq.symm)
    dsimp only at hd ⊢
    rw [Function.update_of_ne hdc] at hd ⊢
    exact h.between d hd (by rw [hlock]; nofun)

theorem drift_interrupt {e : Kernel.Event nproc} (hintr : e.isInterrupt = true)
    (hnext : Kernel.next initproc m.kernel e = some k) (q : Fin nproc) :
    Kernel.Drift (m.kernel.proc q).state (k.proc q).state := by
  cases e with
  | tick | wakeup chan | kill pid => exact Kernel.drift_of_next hnext nofun nofun
  | _ => cases hintr

theorem drift_call {e : Kernel.Event nproc} (hactor : e.actor = some p)
    (hnext : Kernel.next initproc m.kernel e = some k) (hq : q ≠ p) :
    Kernel.Drift (m.kernel.proc q).state (k.proc q).state := by
  refine Kernel.drift_of_next hnext ?_ ?_
  · rw [hactor]
    exact fun heq => hq (Option.some.inj heq).symm
  · rintro rfl
    cases hactor

/-- After a switch the process runs. -/
theorem switched (hnext : Kernel.next initproc m.kernel (.schedule p) = some k) :
    (k.proc p).state = .running ∧
      ∀ q, q ≠ p → Kernel.Drift (m.kernel.proc q).state (k.proc q).state := by
  refine ⟨?_, fun q hq => Kernel.drift_of_next hnext nofun fun heq => ?_⟩
  · cases Kernel.steps_of_next hnext with
    | schedule _ => exact congrArg Proc.state ((Kernel.setProc_proc _ p p _).trans (if_pos rfl))
  · exact hq (Kernel.Event.schedule.inj heq).symm

theorem Sound.switch (h : m.Sound) {info : Fin nproc → SchedInfo}
    {switches : List (Fin ncpu × Fin nproc)} (hlock : m.lock = some c) (hcursor : (m.cpu c).cursor = p)
    (hready : (m.kernel.proc p).state = .runnable)
    (hnext : Kernel.next initproc m.kernel (.schedule p) = some k) :
    Machine.Sound (⟨k, info, Function.update m.cpu c ⟨(m.cpu c).cursor + 1, some p⟩, none,
      switches⟩ : Machine ncpu nproc) := by
  obtain ⟨hrun, hdrift⟩ := switched hnext
  have hnobody : ∀ d, (m.cpu d).proc ≠ some p := by
    intro d hd
    have hruns := h.runs d p hd
    rw [hready] at hruns
    cases hruns
  have hcpu : ∀ d q, (Function.update m.cpu c ⟨(m.cpu c).cursor + 1, some p⟩ d).proc = some q →
      (d = c ∧ q = p) ∨ (d ≠ c ∧ (m.cpu d).proc = some q) := by
    intro d q hd
    by_cases hdc : d = c
    · rw [hdc, Function.update_self] at hd
      exact .inl ⟨hdc, (Option.some.inj hd).symm⟩
    · rw [Function.update_of_ne hdc] at hd
      exact .inr ⟨hdc, hd⟩
  have hne : ∀ d q, (m.cpu d).proc = some q → q ≠ p := by
    rintro d q hd rfl
    exact hnobody d hd
  refine ⟨fun d q hd => ?_, fun d d' q hd hd' => ?_, fun q hq => ?_, nofun, fun d => ?_,
    fun d hd _ => ?_⟩
  · rcases hcpu d q hd with ⟨-, rfl⟩ | ⟨-, hd⟩
    · exact hrun
    · exact (hdrift q (hne d q hd)).running_iff.mpr (h.runs d q hd)
  · rcases hcpu d q hd with ⟨hdc, hqp⟩ | ⟨-, hd⟩
    · rcases hcpu d' q hd' with ⟨hdc', -⟩ | ⟨-, hd'⟩
      · rw [hdc, hdc']
      · exact absurd hqp (hne d' q hd')
    · rcases hcpu d' q hd' with ⟨-, hqp⟩ | ⟨-, hd'⟩
      · exact absurd hqp (hne d q hd)
      · exact h.only d d' q hd hd'
  · by_cases hqp : q = p
    · refine ⟨c, ?_⟩
      dsimp only
      rw [Function.update_self, hqp]
    · obtain ⟨d, hd⟩ := h.processor q ((hdrift q hqp).running_iff.mp hq)
      have hdc : d ≠ c := by
        rintro rfl
        rw [h.idle d hlock] at hd
        cases hd
      refine ⟨d, ?_⟩
      dsimp only
      rw [Function.update_of_ne hdc]
      exact hd
  · dsimp only
    rw [Function.update_apply]
    split
    · rw [hcursor]
      exact p.isLt
    · exact h.cursor d
  · by_cases hdc : d = c
    · dsimp only at hd
      rw [hdc, Function.update_self] at hd
      cases hd
    · dsimp only at hd ⊢
      rw [Function.update_of_ne hdc] at hd ⊢
      refine h.between d hd fun heq => hdc ?_
      rw [hlock] at heq
      exact (Option.some.inj heq).symm

/-- A processor without a process moves in its loop. -/
theorem Sound.move (h : m.Sound) {cpu : Fin ncpu → Cpu nproc} {lock : Option (Fin ncpu)}
    (hproc : (m.cpu c).proc = none) (hidle : (cpu c).proc = none) (hcursor : (cpu c).cursor ≤ nproc)
    (hothers : ∀ d, d ≠ c → cpu d = m.cpu d)
    (hlock : ∀ d, lock = some d → d = c) (hlock' : ∀ d, m.lock = some d → d = c)
    (hbetween : lock ≠ some c → (cpu c).cursor = 0 ∨ (cpu c).cursor = nproc) :
    Sound { m with cpu := cpu, lock := lock } := by
  have hcpu : ∀ d, (cpu d).proc = (m.cpu d).proc := by
    intro d
    by_cases hdc : d = c
    · rw [hdc, hidle, hproc]
    · rw [hothers d hdc]
  refine ⟨fun d q hd => ?_, fun d d' q hd hd' => ?_, fun q hq => ?_, fun d hd => ?_, fun d => ?_,
    fun d hd hunlocked => ?_⟩
  · exact h.runs d q ((hcpu d).symm.trans hd)
  · exact h.only d d' q ((hcpu d).symm.trans hd) ((hcpu d').symm.trans hd')
  · obtain ⟨d, hd⟩ := h.processor q hq
    exact ⟨d, (hcpu d).trans hd⟩
  · rw [hlock d hd]
    exact hidle
  · by_cases hdc : d = c
    · rw [hdc]
      exact hcursor
    · dsimp only
      rw [hothers d hdc]
      exact h.cursor d
  · by_cases hdc : d = c
    · rw [hdc] at hunlocked ⊢
      exact hbetween hunlocked
    · dsimp only
      rw [hothers d hdc]
      exact h.between d ((hcpu d).symm.trans hd) fun heq => hdc (hlock' d heq)

theorem Sound.next (h : m.Sound) (hnext : next initproc m e = some m') : m'.Sound := by
  cases steps_of_next hnext with
  | interrupt hintr hlock hk =>
    exact h.kernel fun q => (drift_interrupt hintr hk q).running_iff
  | @call c p e k hproc hactor hlocks hk =>
    have hsame : ∀ q, q ≠ p →
        ((k.proc q).state = .running ↔ (m.kernel.proc q).state = .running) :=
      fun q hq => (drift_call hactor hk hq).running_iff
    unfold Machine.back
    by_cases hrun : (k.proc p).state = .running
    · rw [if_pos hrun]
      refine h.kernel fun q => ?_
      by_cases hq : q = p
      · rw [hq]
        exact iff_of_true hrun (h.runs c p hproc)
      · exact hsame q hq
    · rw [if_neg hrun]
      refine h.back hproc (hlocks ?_) hrun hsame
      by_contra hfree
      exact hrun (Kernel.running_of_free hk hactor (Bool.eq_false_of_not_eq_true hfree))
  | nice newnice hproc => exact h.kernel fun q => Iff.rfl
  | @acquire c hproc hlock =>
    have hself : (Function.update m.cpu c ⟨0, none⟩ : Fin ncpu → Cpu nproc) c = ⟨0, none⟩ :=
      Function.update_self ..
    refine h.move hproc (congrArg Cpu.proc hself) ?_ (fun d hd => Function.update_of_ne hd _ _)
      (fun d heq => (Option.some.inj heq).symm) (fun d heq => ?_) fun hne => absurd rfl hne
    · rw [hself]
      exact Nat.zero_le nproc
    · rw [hlock] at heq
      cases heq
  | switch hlock hcursor hready hk => exact h.switch hlock hcursor hready hk
  | @pass c hlock hcursor hready =>
    have hself : Function.update m.cpu c { m.cpu c with cursor := (m.cpu c).cursor + 1 } c =
        { m.cpu c with cursor := (m.cpu c).cursor + 1 } := Function.update_self ..
    have hmine : ∀ d, m.lock = some d → d = c := by
      intro d heq
      rw [hlock] at heq
      exact (Option.some.inj heq).symm
    refine h.move (h.idle c hlock) ?_ ?_ (fun d hd => Function.update_of_ne hd _ _) hmine hmine
      fun hne => absurd hlock hne
    · rw [hself]
      exact h.idle c hlock
    · rw [hself]
      exact hcursor
  | @release c hlock hcursor =>
    have hmine : ∀ d, m.lock = some d → d = c := by
      intro d heq
      rw [hlock] at heq
      exact (Option.some.inj heq).symm
    exact h.move (h.idle c hlock) (h.idle c hlock) (Nat.le_of_eq hcursor) (fun _ _ => rfl) nofun
      hmine fun _ => .inr hcursor

/-- The first process is there, and all processors are in their loops. -/
def boot (ncpu : Nat) (initproc : Fin nproc) : Machine ncpu nproc where
  kernel := .userinit initproc
  info _ := ⟨0, 0, 0⟩
  cpu _ := ⟨0, none⟩
  lock := none
  switches := []

theorem sound_boot (ncpu : Nat) (initproc : Fin nproc) : (boot ncpu initproc).Sound where
  runs _ _ := nofun
  only _ _ _ := nofun
  processor p hp := by
    unfold boot Kernel.userinit at hp
    dsimp only at hp
    split at hp
    · cases hp
    · cases hp
  idle _ := nofun
  cursor _ := Nat.zero_le nproc
  between _ _ _ := .inl rfl

theorem sound_of_run (run : Run (stepOf (next initproc)) (boot ncpu initproc) es m) : m.Sound :=
  run.invariant Sound (sound_boot ncpu initproc) fun _ _ _ h hstep => h.next hstep

/-- Two processors, of which one runs the first process and one its child. -/
def twoProcessors (c d : Fin ncpu) (first : Fin nproc) : List (Event ncpu nproc) :=
  [.acquire c, .look c, .call c (.fork first .returns), .acquire d, .look d, .look d]

/-- In every run each process that is `RUNNING` is on one processor, the processors run nothing
else, and so there are never more of these processes than processors. -/
theorem one_processor (run : Run (stepOf (next initproc)) (boot ncpu initproc) es m) :
    (∀ p, (m.kernel.proc p).state = .running ↔ ∃! c, (m.cpu c).proc = some p) ∧
    (Finset.univ.filter fun p => (m.kernel.proc p).state = .running).card ≤ ncpu := by
  have hsound := sound_of_run run
  have hunique : ∀ p, (m.kernel.proc p).state = .running ↔ ∃! c, (m.cpu c).proc = some p := by
    intro p
    constructor
    · intro hp
      obtain ⟨c, hc⟩ := hsound.processor p hp
      exact ⟨c, hc, fun d hd => hsound.only d c p hd hc⟩
    · rintro ⟨c, hc, -⟩
      exact hsound.runs c p hc
  refine ⟨hunique, ?_⟩
  -- the processors of these processes are different
  have hprocs : (Finset.univ.filter fun p => (m.kernel.proc p).state = .running).image some ⊆
      Finset.univ.image fun c => (m.cpu c).proc := by
    intro o ho
    obtain ⟨p, hp, rfl⟩ := Finset.mem_image.mp ho
    obtain ⟨c, hc⟩ := hsound.processor p (Finset.mem_filter.mp hp).2
    exact Finset.mem_image.mpr ⟨c, Finset.mem_univ c, hc⟩
  calc (Finset.univ.filter fun p => (m.kernel.proc p).state = .running).card
    _ = ((Finset.univ.filter fun p => (m.kernel.proc p).state = .running).image some).card :=
      (Finset.card_image_of_injective _ (Option.some_injective _)).symm
    _ ≤ (Finset.univ.image fun c => (m.cpu c).proc).card := Finset.card_le_card hprocs
    _ ≤ (Finset.univ : Finset (Fin ncpu)).card := Finset.card_image_le
    _ = ncpu := Finset.card_fin ncpu

theorem one_processor_two : ∃ m,
    runOf (next 0) (boot 2 0) (twoProcessors 0 1 (0 : Fin 3)) = some m ∧
    (m.cpu 0).proc = some 0 ∧ (m.cpu 1).proc = some 1 ∧
    (∀ p, (m.kernel.proc p).state = .running ↔ ∃! c, (m.cpu c).proc = some p) ∧
    (Finset.univ.filter fun p => (m.kernel.proc p).state = .running).card ≤ 2 := by
  obtain ⟨m, hm, hboth⟩ := (Option.any_eq_true _ _).mp
    (show (runOf (next 0) (boot 2 0) (twoProcessors 0 1 (0 : Fin 3))).any
      (fun m => (m.cpu 0).proc = some 0 ∧ (m.cpu 1).proc = some 1) = true by decide +kernel)
  obtain ⟨hfirst, hsecond⟩ := of_decide_eq_true hboth
  exact ⟨m, hm, hfirst, hsecond, one_processor (run_of_runOf hm)⟩

end Machine

end Cs537.P4
