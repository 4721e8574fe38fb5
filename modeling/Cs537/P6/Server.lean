import Mathlib.Algebra.GroupWithZero.Nat
import Mathlib.Data.Fintype.Basic
import Cs537.Lib.Run
import Cs537.P6.SafeQueue

/-!
# Threads of the proxy (`proxyserver.c`), lock regions taken as atomic

The proxy runs `numListener` listeners and `numWorkers` workers that share the job queue.
Every stretch of code between `pthread_mutex_lock(&lock)` and its unlock is one step here;
what a listener does without the lock (the test `queue_size == 0` of line 257, the signal
of line 292) is a step of its own. `pthread_cond_wait` returns after a signal, or
spuriously, and the rest of the worker's region runs when the lock is taken again. A region
that follows a NULL pointer ends the process (`crashed`).

The unlock of line 258, which a listener calls without the lock, is left out: `Lock` has it, and
`Regions` shows that the steps here are those of the statements as long as it only meets a free
lock. Under the same condition no other thread has the job that a thread is at work with
(`Holders`), so that what it does with it outside the regions (`serve_request`,
`send_error_response`, `handle_get_job`) only shows as the step that ends it.
-/

namespace Cs537.P6

open Cs537.Lib Queue

/-- `GETJOBCMD` (`proxyserver.h:20`), the string `/GetJob`. -/
def getJobCmd : Bytes := [0x2f, 0x47, 0x65, 0x74, 0x4a, 0x6f, 0x62]

/-- What a listener has read from a client: the buffer, the socket, the byte count. -/
structure Request where
  buffer : Bytes
  clientFd : Int
  bytesRead : Int
  deriving DecidableEq

/-- `strstr(buffer, GETJOBCMD) != NULL` (`proxyserver.c:256`). -/
def Request.isGetJob (r : Request) : Bool := strstrFinds r.buffer getJobCmd

/-- A request for `/3`, as read by a listener. -/
def fileRequest : Request := ⟨[0x47, 0x45, 0x54, 0x20, 0x2f, 0x33, 0], 4, 6⟩

/-- A request for `/GetJob`, as read by a listener. -/
def getJobRequest : Request :=
  ⟨[0x47, 0x45, 0x54, 0x20, 0x2f, 0x47, 0x65, 0x74, 0x4a, 0x6f, 0x62, 0], 5, 11⟩

/-- A cell as `malloc` may leave it. -/
def emptyCell : Job := ⟨[], 0, none, 0, 0⟩

/-- Where a listener is in its loop (`proxyserver.c:238-296`). -/
inductive ListenerPc where
  /-- in `accept` or `read` -/
  | idle
  /-- before the unlocked test of line 257 -/
  | testEmpty
  /-- the test saw jobs; before the region of lines 263-265 -/
  | takeJob
  /-- before the region of lines 281-290 -/
  | addWork (r : Request)
  /-- its job is in the list; before `pthread_cond_signal` -/
  | signal
  deriving DecidableEq

/-- Where a worker is in its loop (`proxyserver.c:303-337`). -/
inductive WorkerPc where
  /-- before `pthread_mutex_lock` -/
  | start
  /-- in `pthread_cond_wait` -/
  | waiting
  /-- `pthread_cond_wait` is about to return, with the lock still to be taken again -/
  | woken
  /-- in `serve_request` with the job it took -/
  | serving (job : Nat)
  deriving DecidableEq

/-- The shared state, the threads, and whether the process has died. -/
structure Server (numListener numWorkers : Nat) where
  queue : Queue
  listeners : Fin numListener → ListenerPc
  workers : Fin numWorkers → WorkerPc
  crashed : Bool

/-- The steps of the threads. -/
inductive Event (numListener numWorkers : Nat) where
  | accept (i : Fin numListener) (r : Request)
  | testEmpty (i : Fin numListener)
  | takeJob (i : Fin numListener)
  | addWork (i : Fin numListener)
  | signal (i : Fin numListener) (woken : List (Fin numWorkers))
  | lock (w : Fin numWorkers)
  | wakeup (w : Fin numWorkers)
  | resume (w : Fin numWorkers)
  | served (w : Fin numWorkers)

variable {numListener numWorkers : Nat}

namespace Server

/-- The process after `main` has started the threads (`proxyserver.c:416-429`). -/
def init (left : Job) : Server numListener numWorkers where
  queue := createQueue left
  listeners := fun _ => .idle
  workers := fun _ => .start
  crashed := false

def setListener (s : Server numListener numWorkers) (i : Fin numListener) (pc : ListenerPc) :
    Server numListener numWorkers :=
  { s with listeners := Function.update s.listeners i pc }

def setWorker (s : Server numListener numWorkers) (w : Fin numWorkers) (pc : WorkerPc) :
    Server numListener numWorkers :=
  { s with workers := Function.update s.workers w pc }

/-- The listener's unlocked test (`proxyserver.c:257`). -/
def testEmpty (s : Server numListener numWorkers) (i : Fin numListener) :
    Server numListener numWorkers :=
  if s.queue.queueSize = 0 then s.setListener i .idle else s.setListener i .takeJob

/-- The listener's removal region (`proxyserver.c:263-265`). -/
def takeJob (s : Server numListener numWorkers) (i : Fin numListener) :
    Server numListener numWorkers :=
  match getWorkNonblocking s.queue s.queue.jobQueueHead with
  | none => { s with crashed := true }
  | some (q, _) => { s.setListener i .idle with queue := q }

/-- The listener's insertion region (`proxyserver.c:281-290`). -/
def addWork (maxQueueSize : Int) (s : Server numListener numWorkers) (i : Fin numListener)
    (r : Request) : Server numListener numWorkers :=
  match P6.addWork s.queue s.queue.jobQueueHead r.buffer maxQueueSize r.clientFd r.bytesRead with
  | none => { s with crashed := true }
  | some (q, false) => { s.setListener i .idle with queue := q }
  | some (q, true) =>
    { s.setListener i .signal with queue := { q with queueSize := q.queueSize + 1 } }

/-- The worker's region from `get_work` on (`proxyserver.c:315-326`). -/
def getWork (s : Server numListener numWorkers) (w : Fin numWorkers) :
    Server numListener numWorkers :=
  match workerGetWork s.queue with
  | none => { s with crashed := true }
  | some (q, job) => { s.setWorker w (.serving job) with queue := q }

/-- The worker's region from the lock on (`proxyserver.c:305-326`): it waits, or goes on. -/
def lock (s : Server numListener numWorkers) (w : Fin numWorkers) :
    Server numListener numWorkers :=
  if s.queue.queueSize = 0 then s.setWorker w .waiting else s.getWork w

/-- `pthread_cond_signal` may wake these workers: all of them wait, and at least one is
    woken if any waits. -/
def MayWake (s : Server numListener numWorkers) (ws : List (Fin numWorkers)) : Prop :=
  (∀ w ∈ ws, s.workers w = .waiting) ∧ (ws = [] → ∀ w, s.workers w ≠ .waiting)

instance (s : Server numListener numWorkers) (ws : List (Fin numWorkers)) :
    Decidable (s.MayWake ws) :=
  inferInstanceAs (Decidable ((∀ w ∈ ws, s.workers w = .waiting) ∧
    (ws = [] → ∀ w, s.workers w ≠ .waiting)))

/-- `pthread_cond_signal(&cond1)` (`proxyserver.c:292`). -/
def signal (s : Server numListener numWorkers) (i : Fin numListener)
    (ws : List (Fin numWorkers)) : Server numListener numWorkers :=
  { s.setListener i .idle with
    workers := fun w => if w ∈ ws then .woken else s.workers w }

/-- The state after an event, if the event can happen in the state. -/
def next (maxQueueSize : Int) (s : Server numListener numWorkers) :
    Event numListener numWorkers → Option (Server numListener numWorkers)
  | .accept i r =>
    if s.crashed = false ∧ s.listeners i = .idle then
      some (s.setListener i (if r.isGetJob then .testEmpty else .addWork r))
    else none
  | .testEmpty i =>
    if s.crashed = false ∧ s.listeners i = .testEmpty then some (s.testEmpty i) else none
  | .takeJob i =>
    if s.crashed = false ∧ s.listeners i = .takeJob then some (s.takeJob i) else none
  | .addWork i =>
    match s.listeners i with
    | .addWork r => if s.crashed = false then some (s.addWork maxQueueSize i r) else none
    | _ => none
  | .signal i ws =>
    if s.crashed = false ∧ s.listeners i = .signal ∧ s.MayWake ws then some (s.signal i ws)
    else none
  | .lock w =>
    if s.crashed = false ∧ s.workers w = .start then some (s.lock w) else none
  | .wakeup w =>
    if s.crashed = false ∧ s.workers w = .waiting then some (s.setWorker w .woken) else none
  | .resume w =>
    if s.crashed = false ∧ s.workers w = .woken then some (s.getWork w) else none
  | .served w =>
    match s.workers w with
    | .serving _ => if s.crashed = false then some (s.setWorker w .start) else none
    | _ => none

/-- The list behind `job_queue_head` is `l`, and `queue_size` counts it. -/
structure Counts (s : Server numListener numWorkers) (l : List Nat) : Prop where
  holds : s.queue.Holds l
  size : s.queue.queueSize = l.length

/-- `queue_size` counts the list and stays within the limit. -/
def Accounted (maxQueueSize : Int) (s : Server numListener numWorkers) : Prop :=
  (∃ l, s.Counts l) ∧ 0 ≤ s.queue.queueSize ∧ s.queue.queueSize ≤ maxQueueSize

variable {s s' : Server numListener numWorkers} {l : List Nat} {maxQueueSize : Int}

theorem Counts.size_eq_zero (h : s.Counts l) : s.queue.queueSize = 0 ↔ l = [] := by
  rw [h.size]
  simp

theorem counts_init (left : Job) :
    (init left : Server numListener numWorkers).Counts [] :=
  ⟨createQueue_holds left, rfl⟩

/-- A removal leaves the rest of the list, counted. -/
theorem Counts.of_removed {a : Nat} {q : Queue} (h : s.Counts (a :: l))
    (hq : s.queue.Removed q l) (hs : s'.queue = q) : s'.Counts l := by
  subst hs
  refine ⟨hq.holds, ?_⟩
  rw [hq.size, h.size]
  simp

/-- The listener's removal crashes on an empty list and takes the first job otherwise. -/
theorem Counts.takeJob (h : s.Counts l) (i : Fin numListener) :
    (l = [] ∧ s.takeJob i = { s with crashed := true }) ∨
    ∃ a l', l = a :: l' ∧ (s.takeJob i).Counts l' ∧ (s.takeJob i).crashed = s.crashed ∧
      (s.takeJob i).listeners = Function.update s.listeners i .idle ∧
      (s.takeJob i).workers = s.workers := by
  cases l with
  | nil =>
    refine Or.inl ⟨rfl, ?_⟩
    simp [Server.takeJob, h.holds.removal_undefined.1]
  | cons a l =>
    obtain ⟨q, hq, hrem⟩ := h.holds.getWorkNonblocking
    refine Or.inr ⟨a, l, rfl, ?_⟩
    simp only [Server.takeJob, hq]
    exact ⟨h.of_removed hrem rfl, rfl, rfl, rfl⟩

/-- A worker's removal crashes on an empty list and takes the first job otherwise. -/
theorem Counts.getWork (h : s.Counts l) (w : Fin numWorkers) :
    (l = [] ∧ s.getWork w = { s with crashed := true }) ∨
    ∃ a l', l = a :: l' ∧ (s.getWork w).Counts l' ∧ (s.getWork w).crashed = s.crashed ∧
      (s.getWork w).listeners = s.listeners ∧
      (s.getWork w).workers = Function.update s.workers w (.serving a) := by
  cases l with
  | nil =>
    refine Or.inl ⟨rfl, ?_⟩
    simp [Server.getWork, h.holds.removal_undefined.2]
  | cons a l =>
    obtain ⟨q, hq, hrem⟩ := h.holds.workerGetWork
    refine Or.inr ⟨a, l, rfl, ?_⟩
    simp only [Server.getWork, hq]
    exact ⟨h.of_removed hrem rfl, rfl, rfl, rfl⟩

/-- The insertion region refuses the request when the queue is full, and otherwise leaves
one job more in the list and its listener before the signal. -/
theorem Counts.addWork (h : s.Counts l) (i : Fin numListener) (r : Request) :
    ((l.length : Int) = maxQueueSize ∧
      s.addWork maxQueueSize i r = s.setListener i .idle) ∨
    ((l.length : Int) ≠ maxQueueSize ∧
      ∃ l', l'.length = l.length + 1 ∧ (s.addWork maxQueueSize i r).Counts l' ∧
        (s.addWork maxQueueSize i r).crashed = s.crashed ∧
        (s.addWork maxQueueSize i r).listeners = Function.update s.listeners i .signal ∧
        (s.addWork maxQueueSize i r).workers = s.workers) := by
  by_cases hfull : (l.length : Int) = maxQueueSize
  · refine Or.inl ⟨hfull, ?_⟩
    have hadd : P6.addWork s.queue s.queue.jobQueueHead r.buffer maxQueueSize r.clientFd
        r.bytesRead = some (s.queue, false) := by
      simp [P6.addWork, addJob, h.size, hfull]
    simp [Server.addWork, hadd, setListener]
  · refine Or.inr ⟨hfull, ?_⟩
    have hsize : s.queue.queueSize ≠ maxQueueSize := by rwa [h.size]
    obtain ⟨q, hq, hholds, -, -, -, -, hqsize⟩ :=
      h.holds.addJob (newJobOf r.buffer r.clientFd r.bytesRead) hsize
    have hlen := List.orderedInsert_length (Outranks q.priorityOf) l s.queue.brk
    have hadd : P6.addWork s.queue s.queue.jobQueueHead r.buffer maxQueueSize r.clientFd
        r.bytesRead = some (q, true) := hq
    refine ⟨_, hlen, ?_⟩
    simp only [Server.addWork, hadd]
    refine ⟨⟨⟨hholds.chain, hholds.fresh⟩, ?_⟩, rfl, rfl, rfl⟩
    simp [hqsize, h.size, hlen]

theorem Counts.setListener (h : s.Counts l) (i : Fin numListener) (pc : ListenerPc) :
    (s.setListener i pc).Counts l := ⟨h.holds, h.size⟩

theorem Counts.setWorker (h : s.Counts l) (w : Fin numWorkers) (pc : WorkerPc) :
    (s.setWorker w pc).Counts l := ⟨h.holds, h.size⟩

/-- The steps as a relation: what each event needs of the living process, and what it leaves. -/
inductive Steps (maxQueueSize : Int) (s : Server numListener numWorkers) :
    Event numListener numWorkers → Server numListener numWorkers → Prop where
  | accept {i : Fin numListener} (r : Request) (hlive : s.crashed = false)
      (hpc : s.listeners i = .idle) :
      Steps maxQueueSize s (.accept i r)
        (s.setListener i (if r.isGetJob then .testEmpty else .addWork r))
  | testEmpty {i : Fin numListener} (hlive : s.crashed = false)
      (hpc : s.listeners i = .testEmpty) : Steps maxQueueSize s (.testEmpty i) (s.testEmpty i)
  | takeJob {i : Fin numListener} (hlive : s.crashed = false) (hpc : s.listeners i = .takeJob) :
      Steps maxQueueSize s (.takeJob i) (s.takeJob i)
  | addWork {i : Fin numListener} {r : Request} (hlive : s.crashed = false)
      (hpc : s.listeners i = .addWork r) :
      Steps maxQueueSize s (.addWork i) (s.addWork maxQueueSize i r)
  | signal {i : Fin numListener} {ws : List (Fin numWorkers)} (hlive : s.crashed = false)
      (hpc : s.listeners i = .signal) (hmay : s.MayWake ws) :
      Steps maxQueueSize s (.signal i ws) (s.signal i ws)
  | lock {w : Fin numWorkers} (hlive : s.crashed = false) (hpc : s.workers w = .start) :
      Steps maxQueueSize s (.lock w) (s.lock w)
  | wakeup {w : Fin numWorkers} (hlive : s.crashed = false) (hpc : s.workers w = .waiting) :
      Steps maxQueueSize s (.wakeup w) (s.setWorker w .woken)
  | resume {w : Fin numWorkers} (hlive : s.crashed = false) (hpc : s.workers w = .woken) :
      Steps maxQueueSize s (.resume w) (s.getWork w)
  | served {w : Fin numWorkers} {job : Nat} (hlive : s.crashed = false)
      (hpc : s.workers w = .serving job) :
      Steps maxQueueSize s (.served w) (s.setWorker w .start)

theorem steps_of_next {e : Event numListener numWorkers}
    (hnext : next maxQueueSize s e = some s') : Steps maxQueueSize s e s' := by
  cases e with
  | accept i r =>
    simp only [next, Option.ite_none_right_eq_some, Option.some.injEq] at hnext
    obtain ⟨⟨hlive, hpc⟩, rfl⟩ := hnext
    exact .accept r hlive hpc
  | testEmpty i =>
    simp only [next, Option.ite_none_right_eq_some, Option.some.injEq] at hnext
    obtain ⟨⟨hlive, hpc⟩, rfl⟩ := hnext
    exact .testEmpty hlive hpc
  | takeJob i =>
    simp only [next, Option.ite_none_right_eq_some, Option.some.injEq] at hnext
    obtain ⟨⟨hlive, hpc⟩, rfl⟩ := hnext
    exact .takeJob hlive hpc
  | addWork i =>
    simp only [next] at hnext
    split at hnext
    · rename_i r hpc
      simp only [Option.ite_none_right_eq_some, Option.some.injEq] at hnext
      obtain ⟨hlive, rfl⟩ := hnext
      exact .addWork hlive hpc
    · cases hnext
  | signal i ws =>
    simp only [next, Option.ite_none_right_eq_some, Option.some.injEq] at hnext
    obtain ⟨⟨hlive, hpc, hmay⟩, rfl⟩ := hnext
    exact .signal hlive hpc hmay
  | lock w =>
    simp only [next, Option.ite_none_right_eq_some, Option.some.injEq] at hnext
    obtain ⟨⟨hlive, hpc⟩, rfl⟩ := hnext
    exact .lock hlive hpc
  | wakeup w =>
    simp only [next, Option.ite_none_right_eq_some, Option.some.injEq] at hnext
    obtain ⟨⟨hlive, hpc⟩, rfl⟩ := hnext
    exact .wakeup hlive hpc
  | resume w =>
    simp only [next, Option.ite_none_right_eq_some, Option.some.injEq] at hnext
    obtain ⟨⟨hlive, hpc⟩, rfl⟩ := hnext
    exact .resume hlive hpc
  | served w =>
    simp only [next] at hnext
    split at hnext
    · rename_i job hpc
      simp only [Option.ite_none_right_eq_some, Option.some.injEq] at hnext
      obtain ⟨hlive, rfl⟩ := hnext
      exact .served hlive hpc
    · cases hnext

/-- The two regions that take a job without having tested `queue_size` under the lock they
hold: the listener's removal, and the worker's after `pthread_cond_wait`. -/
def takesUntested : Event numListener numWorkers → Bool
  | .takeJob _ | .resume _ => true
  | _ => false

/-- What one step does to the list and its counter. The process dies exactly when a job is
taken untested from an empty list. -/
theorem next_counts {e : Event numListener numWorkers} (h : s.Counts l)
    (hnext : next maxQueueSize s e = some s') :
    (s'.crashed = true ∧ l = [] ∧ takesUntested e = true) ∨
    (s'.crashed = false ∧ (takesUntested e = true → l ≠ []) ∧ ∃ l', s'.Counts l' ∧
      (l'.length ≤ l.length ∨ l'.length = l.length + 1 ∧ (l.length : Int) ≠ maxQueueSize)) := by
  cases steps_of_next hnext with
  | accept r hlive _ =>
    exact Or.inr ⟨hlive, by simp [takesUntested], l, h.setListener _ _, Or.inl le_rfl⟩
  | testEmpty hlive _ =>
    refine Or.inr ⟨?_, by simp [takesUntested], l, ?_, Or.inl le_rfl⟩
    · unfold Server.testEmpty
      split <;> exact hlive
    · unfold Server.testEmpty
      split <;> exact h.setListener _ _
  | @takeJob i hlive _ =>
    rcases h.takeJob i with ⟨hempty, hcrash⟩ | ⟨a, l', rfl, hcounts, hcrash, -, -⟩
    · exact Or.inl ⟨by rw [hcrash], hempty, rfl⟩
    · exact Or.inr ⟨hcrash.trans hlive, by simp, l', hcounts, Or.inl (by simp)⟩
  | @addWork i r hlive _ =>
    rcases h.addWork i r with
      ⟨-, heq⟩ | ⟨hroom, l', hlen, hcounts, hcrash, -, -⟩
    · rw [heq]
      exact Or.inr ⟨hlive, by simp [takesUntested], l, h.setListener i _, Or.inl le_rfl⟩
    · exact Or.inr ⟨hcrash.trans hlive, by simp [takesUntested], l', hcounts,
        Or.inr ⟨hlen, hroom⟩⟩
  | signal hlive _ _ =>
    exact Or.inr ⟨hlive, by simp [takesUntested], l, ⟨h.holds, h.size⟩, Or.inl le_rfl⟩
  | @lock w hlive _ =>
    unfold Server.lock
    split
    · exact Or.inr ⟨hlive, by simp [takesUntested], l, h.setWorker w _, Or.inl le_rfl⟩
    · rename_i hne
      rcases h.getWork w with ⟨hempty, -⟩ | ⟨a, l', rfl, hcounts, hcrash, -, -⟩
      · exact absurd (h.size_eq_zero.mpr hempty) hne
      · exact Or.inr ⟨hcrash.trans hlive, by simp, l', hcounts, Or.inl (by simp)⟩
  | wakeup hlive _ =>
    exact Or.inr ⟨hlive, by simp [takesUntested], l, h.setWorker _ _, Or.inl le_rfl⟩
  | @resume w hlive _ =>
    rcases h.getWork w with ⟨hempty, hcrash⟩ | ⟨a, l', rfl, hcounts, hcrash, -, -⟩
    · exact Or.inl ⟨by rw [hcrash], hempty, rfl⟩
    · exact Or.inr ⟨hcrash.trans hlive, by simp, l', hcounts, Or.inl (by simp)⟩
  | served hlive _ =>
    exact Or.inr ⟨hlive, by simp [takesUntested], l, h.setWorker _ _, Or.inl le_rfl⟩

end Server

end Cs537.P6
