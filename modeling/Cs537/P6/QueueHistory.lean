import Cs537.P6.SafeQueue
import Mathlib.Data.Int.ConditionallyCompleteOrder
import Mathlib.Data.List.Forall2
import Mathlib.Order.ConditionallyCompleteLattice.Basic

/-!
# Histories of the job queue

A history is a sequence of calls on the queue, each made with `lock` held, together with
what the calls returned. Its pending jobs are those accepted and not yet dequeued, in the
order of their acceptance. The list behind `job_queue_head` holds the pending jobs in the
order of a stable priority queue (`Lib.StableOf`) after every history, and the next removal
returns the one such a queue would return.
-/

namespace Cs537.P6

open Cs537.Lib Queue

/-- The calls on the queue: `add_work` of a job of any priority, a worker's removal, and the
    removal for a `GetJob` request. -/
inductive QueueOp where
  | addWork (job : Job)
  | getWork
  | getWorkNonblocking
  deriving DecidableEq

/-- What a call returns. -/
inductive QueueOut where
  | full
  | accepted (job : Nat)
  | dequeued (job : Nat)
  deriving DecidableEq

/-- One call. The caller of `add_work` counts an accepted job (`proxyserver.c:282-288`). -/
def queueStep (maxSize : Int) (q : Queue) : QueueOp → Option (Queue × QueueOut)
  | .addWork job => (addJob q q.jobQueueHead job maxSize).map fun (q', added) =>
      if added then ({ q' with queueSize := q'.queueSize + 1 }, .accepted q.brk)
      else (q', .full)
  | .getWork => (workerGetWork q).map fun (q', job) => (q', .dequeued job)
  | .getWorkNonblocking => (getWorkNonblocking q q.jobQueueHead).map
      fun (q', job) => (q', .dequeued job)

/-- A sequence of calls and what they return. -/
def runQueue (maxSize : Int) : Queue → List QueueOp → Option (Queue × List QueueOut)
  | q, [] => some (q, [])
  | q, op :: ops => do
    let (q, out) ← queueStep maxSize q op
    let (q, outs) ← runQueue maxSize q ops
    some (q, out :: outs)

/-- The pending jobs after one more call. -/
def pendingStep (pending : List Nat) : QueueOut → List Nat
  | .full => pending
  | .accepted job => pending ++ [job]
  | .dequeued job => pending.erase job

/-- The jobs accepted and not yet dequeued, in arrival order. -/
def pending (outs : List QueueOut) : List Nat := outs.foldl pendingStep []

/-- No removal of the sequence meets an empty queue, when `n` jobs are there at its start. -/
def removalsFindJob (maxSize : Int) : Nat → List QueueOp → Bool
  | _, [] => true
  | n, .addWork _ :: ops => removalsFindJob maxSize (if (n : Int) = maxSize then n else n + 1) ops
  | n, .getWork :: ops => n != 0 && removalsFindJob maxSize (n - 1) ops
  | n, .getWorkNonblocking :: ops => n != 0 && removalsFindJob maxSize (n - 1) ops

theorem pending_snoc (outs : List QueueOut) (out : QueueOut) :
    pending (outs ++ [out]) = pendingStep (pending outs) out := by
  simp [pending]

/-- The queue holds the jobs `l` after the calls `ops` that returned `outs`. -/
structure History (q : Queue) (ops : List QueueOp) (outs : List QueueOut) (l : List Nat) :
    Prop where
  holds : q.Holds l
  stable : StableOf q.priorityOf l (pending outs)
  size : q.queueSize = l.length
  jobs : List.Forall₂ (fun op out => ∀ job p, op = .addWork job → out = .accepted p →
    (q.mem p).map data = some (data job)) ops outs
  below : ∀ p, .accepted p ∈ outs → p < q.brk

/-- The priorities of listed jobs are kept. -/
theorem Queue.Keeps.priorityOf_listed {q q' : Queue} {l : List Nat} (h : q.Keeps q')
    (hl : q.Holds l) {a : Nat} (ha : a ∈ l) : q'.priorityOf a = q.priorityOf a := by
  obtain ⟨j, hj⟩ := hl.chain.cell_of_mem (List.mem_cons_of_mem _ ha)
  exact h.priorityOf hj

namespace History

variable {maxSize : Int} {q : Queue} {ops : List QueueOp} {outs : List QueueOut} {l : List Nat}

/-- The order is the same when the links change. -/
theorem stable_keeps (h : History q ops outs l) {q' : Queue} (keeps : q.Keeps q') :
    StableOf q'.priorityOf l (pending outs) :=
  h.stable.congr (fun _ ha => keeps.priorityOf_listed h.holds ha)
    fun _ ha => keeps.priorityOf_listed h.holds (h.stable.mem_iff.mpr ha)

theorem jobs_keeps (h : History q ops outs l) {q' : Queue} (keeps : q.Keeps q') :
    List.Forall₂ (fun op out => ∀ job p, op = .addWork job → out = .accepted p →
      (q'.mem p).map data = some (data job)) ops outs := by
  refine h.jobs.imp ?_
  intro op out hjob job p hop hout
  obtain ⟨j, hj, hdata⟩ := Option.map_eq_some_iff.mp (hjob job p hop hout)
  rw [keeps p j hj, hdata]

theorem start (left : Job) : History (createQueue left) [] [] [] where
  holds := createQueue_holds left
  stable := .nil
  size := rfl
  jobs := .nil
  below := nofun

/-- `add_work` on a full queue. -/
theorem addWork_full (h : History q ops outs l) (job : Job) (hsize : q.queueSize = maxSize) :
    ∃ q', queueStep maxSize q (.addWork job) = some (q', .full) ∧
      History q' (ops ++ [.addWork job]) (outs ++ [.full]) l ∧ q'.brk = q.brk := by
  refine ⟨q, by simp [queueStep, addJob, hsize], ⟨h.holds, ?_, h.size, ?_, ?_⟩, rfl⟩
  · rw [pending_snoc]
    exact h.stable
  · refine List.rel_append h.jobs (.cons ?_ .nil)
    intro job' p _ hout
    cases hout
  · intro p hp
    rw [List.mem_append, List.mem_singleton] at hp
    rcases hp with hp | hp
    · exact h.below p hp
    · cases hp

/-- `add_work` on a queue that is not full. -/
theorem addWork_accepted (h : History q ops outs l) (job : Job)
    (hsize : q.queueSize ≠ maxSize) :
    ∃ q' l', queueStep maxSize q (.addWork job) = some (q', .accepted q.brk) ∧
      History q' (ops ++ [.addWork job]) (outs ++ [.accepted q.brk]) l' ∧
      l'.length = l.length + 1 ∧ q'.brk = q.brk + 1 := by
  obtain ⟨q', hq', hholds, hkeeps, hjob, hbrk, -, hqsize⟩ := h.holds.addJob job hsize
  refine ⟨{ q' with queueSize := q'.queueSize + 1 },
    l.orderedInsert (Outranks q'.priorityOf) q.brk, by simp [queueStep, hq'],
    ⟨⟨hholds.chain, hholds.fresh⟩, ?_, ?_, ?_, ?_⟩, List.orderedInsert_length _ _ _, hbrk⟩
  · rw [pending_snoc]
    exact (h.stable_keeps hkeeps).insert q.brk
  · simp [hqsize, h.size, List.orderedInsert_length]
  · refine List.rel_append (h.jobs_keeps hkeeps) (.cons ?_ .nil)
    intro job' p hop hout
    cases hop
    cases hout
    exact hjob
  · intro p hp
    show p < q'.brk
    rw [List.mem_append, List.mem_singleton] at hp
    rcases hp with hp | hp
    · have := h.below p hp
      omega
    · cases hp
      omega

/-- A removal of either kind takes the earliest pending job of maximal priority. -/
theorem dequeue {a : Nat} (h : History q ops outs (a :: l)) (maxSize : Int) (op : QueueOp)
    (hop : op = .getWork ∨ op = .getWorkNonblocking) :
    (pending outs).argmax q.priorityOf = some a ∧
      ∃ q', queueStep maxSize q op = some (q', .dequeued a) ∧
        History q' (ops ++ [op]) (outs ++ [.dequeued a]) l ∧ q'.brk = q.brk := by
  refine ⟨h.stable.head_argmax, ?_⟩
  have hnone : ∀ job, op ≠ .addWork job := by
    rintro job rfl
    rcases hop with hop | hop <;> cases hop
  obtain ⟨q', hstep, hrem⟩ :
      ∃ q', queueStep maxSize q op = some (q', .dequeued a) ∧ q.Removed q' l := by
    rcases hop with rfl | rfl
    · obtain ⟨q', hq', hrem⟩ := h.holds.workerGetWork
      exact ⟨q', by simp [queueStep, hq'], hrem⟩
    · obtain ⟨q', hq', hrem⟩ := h.holds.getWorkNonblocking
      exact ⟨q', by simp [queueStep, hq'], hrem⟩
  refine ⟨q', hstep, ⟨hrem.holds, ?_, ?_, ?_, ?_⟩, hrem.brk⟩
  · rw [pending_snoc]
    exact (h.stable_keeps hrem.keeps).tail
  · rw [hrem.size, h.size]
    simp
  · refine List.rel_append (h.jobs_keeps hrem.keeps) (.cons ?_ .nil)
    intro job p hadd
    exact absurd hadd (hnone job)
  · intro p hp
    rw [List.mem_append, List.mem_singleton] at hp
    rcases hp with hp | hp
    · rw [hrem.brk]
      exact h.below p hp
    · cases hp

/-- One call that returns. -/
theorem next {q' : Queue} {op : QueueOp} {out : QueueOut} (h : History q ops outs l)
    (hstep : queueStep maxSize q op = some (q', out)) :
    ∃ l', History q' (ops ++ [op]) (outs ++ [out]) l' := by
  have hsame {u : Queue} {x : QueueOut} (hu : queueStep maxSize q op = some (u, x)) :
      u = q' ∧ x = out := by
    simpa [hstep, eq_comm] using hu
  cases op with
  | addWork job =>
    by_cases hsize : q.queueSize = maxSize
    · obtain ⟨u, hu, hhist, -⟩ := h.addWork_full job hsize
      obtain ⟨rfl, rfl⟩ := hsame hu
      exact ⟨l, hhist⟩
    · obtain ⟨u, l', hu, hhist, -⟩ := h.addWork_accepted job hsize
      obtain ⟨rfl, rfl⟩ := hsame hu
      exact ⟨l', hhist⟩
  | getWork =>
    cases l with
    | nil => simp [queueStep, h.holds.removal_undefined.2] at hstep
    | cons a l =>
      obtain ⟨-, u, hu, hhist, -⟩ := h.dequeue maxSize .getWork (.inl rfl)
      obtain ⟨rfl, rfl⟩ := hsame hu
      exact ⟨l, hhist⟩
  | getWorkNonblocking =>
    cases l with
    | nil => simp [queueStep, h.holds.removal_undefined.1] at hstep
    | cons a l =>
      obtain ⟨-, u, hu, hhist, -⟩ := h.dequeue maxSize .getWorkNonblocking (.inr rfl)
      obtain ⟨rfl, rfl⟩ := hsame hu
      exact ⟨l, hhist⟩

/-- A whole sequence of calls that return. -/
theorem of_run {q' : Queue} {outs' : List QueueOut} (h : History q ops outs l) :
    ∀ rest, runQueue maxSize q rest = some (q', outs') →
      ∃ l', History q' (ops ++ rest) (outs ++ outs') l' := by
  intro rest
  induction rest generalizing q ops outs l outs' with
  | nil =>
    intro hrun
    simp only [runQueue, Option.some.injEq, Prod.mk.injEq] at hrun
    obtain ⟨rfl, rfl⟩ := hrun
    exact ⟨l, by simpa using h⟩
  | cons op rest ih =>
    intro hrun
    simp only [runQueue, Option.bind_eq_bind, Option.bind_eq_some_iff, Option.some.injEq,
      Prod.mk.injEq, Prod.exists] at hrun
    obtain ⟨q1, out, hstep, q2, outs2, hrest, rfl, rfl⟩ := hrun
    obtain ⟨l1, hhist⟩ := h.next hstep
    obtain ⟨l', hfinal⟩ := ih hhist hrest
    exact ⟨l', by simpa using hfinal⟩

end History

/-- Only `add_work` accepts jobs. -/
theorem runQueue_accepted {maxSize : Int} {q q' : Queue} {ops : List QueueOp}
    {outs : List QueueOut} (hrun : runQueue maxSize q ops = some (q', outs)) :
    List.Forall₂ (fun op out => ∀ p, out = .accepted p → ∃ job, op = .addWork job) ops outs := by
  induction ops generalizing q q' outs with
  | nil =>
    simp only [runQueue, Option.some.injEq, Prod.mk.injEq] at hrun
    obtain ⟨-, rfl⟩ := hrun
    exact .nil
  | cons op ops ih =>
    simp only [runQueue, Option.bind_eq_bind, Option.bind_eq_some_iff, Option.some.injEq,
      Prod.mk.injEq, Prod.exists] at hrun
    obtain ⟨q1, out, hstep, q2, outs2, hrest, -, rfl⟩ := hrun
    refine .cons ?_ (ih hrest)
    rintro p rfl
    cases op with
    | addWork job => exact ⟨job, rfl⟩
    | getWork => simp [queueStep] at hstep
    | getWorkNonblocking => simp [queueStep] at hstep

/-- A pending job was accepted. -/
theorem accepted_of_mem_pending {outs : List QueueOut} {a : Nat} (ha : a ∈ pending outs) :
    .accepted a ∈ outs := by
  induction outs using List.reverseRecOn with
  | nil => cases ha
  | append_singleton outs out ih =>
    rw [pending_snoc] at ha
    rw [List.mem_append, List.mem_singleton]
    cases out with
    | full => exact .inl (ih ha)
    | accepted job =>
      rcases List.mem_append.mp ha with ha | ha
      · exact .inl (ih ha)
      · exact .inr (by rw [List.mem_singleton.mp ha])
    | dequeued job => exact .inl (ih (List.mem_of_mem_erase ha))

/-- A pending job has the data it was accepted with. -/
theorem History.pending_job {maxSize : Int} {q₀ q : Queue} {ops : List QueueOp}
    {outs : List QueueOut} {l : List Nat} (h : History q ops outs l)
    (hrun : runQueue maxSize q₀ ops = some (q, outs)) {a : Nat} (ha : a ∈ pending outs) :
    ∃ job, .addWork job ∈ ops ∧ (q.mem a).map data = some (data job) := by
  have hmem := accepted_of_mem_pending ha
  have hadds := runQueue_accepted hrun
  have hjobs := h.jobs
  clear hrun ha h
  induction hjobs with
  | nil => cases hmem
  | @cons op out ops outs hjob _ ih =>
    obtain ⟨hadd, hadds⟩ := List.forall₂_cons.mp hadds
    rcases List.mem_cons.mp hmem with rfl | hmem
    · obtain ⟨job, rfl⟩ := hadd a rfl
      exact ⟨job, List.mem_cons_self, hjob job a rfl rfl⟩
    · obtain ⟨job, hop, hdata⟩ := ih hmem hadds
      exact ⟨job, List.mem_cons_of_mem _ hop, hdata⟩

/-! ## Calls in blocks of any size -/

/-- One call, in the blocks that `malloc` hands out. -/
def queueStepIn (blocks : Blocks) (maxSize : Int) (q : Queue) :
    QueueOp → Option (Queue × QueueOut)
  | .addWork job => (addJobIn blocks q q.jobQueueHead job maxSize).map fun (q', added) =>
      if added then ({ q' with queueSize := q'.queueSize + 1 }, .accepted q.brk)
      else (q', .full)
  | .getWork => queueStep maxSize q .getWork
  | .getWorkNonblocking => queueStep maxSize q .getWorkNonblocking

/-- A sequence of calls in the blocks that `malloc` hands out, and what they return. -/
def runQueueIn (blocks : Blocks) (maxSize : Int) :
    Queue → List QueueOp → Option (Queue × List QueueOut)
  | q, [] => some (q, [])
  | q, op :: ops => do
    let (q, out) ← queueStepIn blocks maxSize q op
    let (q, outs) ← runQueueIn blocks maxSize q ops
    some (q, out :: outs)

/-- Each job that is accepted gets blocks with room for it. `n` jobs are in the queue, and
    `malloc` hands out the address `a` next. -/
def JobsFit (blocks : Blocks) (maxSize : Int) : Nat → Nat → List QueueOp → Prop
  | _, _, [] => True
  | n, a, .addWork job :: ops =>
    if (n : Int) = maxSize then JobsFit blocks maxSize n a ops
    else (32 ≤ blocks.cell a ∧ job.buffer.length < blocks.text a) ∧
      JobsFit blocks maxSize (n + 1) (a + 1) ops
  | n, a, .getWork :: ops => JobsFit blocks maxSize (n - 1) a ops
  | n, a, .getWorkNonblocking :: ops => JobsFit blocks maxSize (n - 1) a ops

/-- The list behind `job_queue_head` holds the pending jobs, each once, by non-increasing
    priority and in arrival order among equal priorities, and every job has the data that it
    was accepted with. -/
def StableQueue (q : Queue) (ops : List QueueOp) (outs : List QueueOut) : Prop :=
  ∃ l, q.Holds l ∧ l.Pairwise (fun a b => q.priorityOf b ≤ q.priorityOf a) ∧
    (∀ p, l.filter (q.priorityOf · = p) = (pending outs).filter (q.priorityOf · = p)) ∧
    l.Perm (pending outs) ∧ l.Nodup ∧
    List.Forall₂ (fun op out => ∀ job a, op = .addWork job → out = .accepted a →
      (q.mem a).map data = some (data job)) ops outs

/-- What a stable priority queue of at most `maxSize` jobs returns: a job is accepted under a
    new address unless so many are pending, and a removal finds the earliest of the pending
    jobs of maximal priority. -/
def Answers (maxSize : Int) (q : Queue) (outs : List QueueOut) (out : QueueOut) : QueueOp → Prop
  | .addWork _ =>
    if ((pending outs).length : Int) = maxSize then out = .full
    else ∃ a, out = .accepted a ∧ .accepted a ∉ outs
  | .getWork | .getWorkNonblocking =>
    ∃ a, out = .dequeued a ∧ (pending outs).argmax q.priorityOf = some a

/-- The queue that `create_queue` makes is a stable priority queue over a sequence of calls:
    after every part of the sequence it holds the jobs that it should, and the next call
    returns what it should. -/
def RefinesStableQueue (blocks : Blocks) (maxSize : Int) (left : Job) (ops : List QueueOp) :
    Prop :=
  ∃ q₀, createQueueIn blocks left = some q₀ ∧
    ∀ done rest, ops = done ++ rest →
      ∃ q outs, runQueueIn blocks maxSize q₀ done = some (q, outs) ∧ StableQueue q done outs ∧
        ∀ op rest', rest = op :: rest' →
          ∃ q' out, queueStepIn blocks maxSize q op = some (q', out) ∧
            Answers maxSize q outs out op

/-! ### One call -/

section Calls

variable {blocks : Blocks} {maxSize : Int} {q : Queue} {ops : List QueueOp} {outs : List QueueOut}
  {l : List Nat} {job : Job}

theorem History.stableQueue (h : History q ops outs l) : StableQueue q ops outs :=
  ⟨l, h.holds, h.stable.sorted, h.stable.stable, h.stable.perm,
    (List.nodup_cons.mp h.holds.nodup).2, h.jobs⟩

theorem History.length_pending (h : History q ops outs l) :
    ((pending outs).length : Int) = q.queueSize := by
  rw [h.size, h.stable.perm.length_eq]

/-- A job that is refused, or gets blocks with room for it, is treated as in whole cells. -/
theorem queueStepIn_addWork (htake : q.queueSize = maxSize ∨ blocks.Take q.brk job) :
    queueStepIn blocks maxSize q (.addWork job) = queueStep maxSize q (.addWork job) := by
  simp only [queueStepIn, queueStep, addJobIn, if_pos htake]

/-- The stores of a job run past a block that has no room for it. -/
theorem queueStepIn_overrun (htake : ¬ (q.queueSize = maxSize ∨ blocks.Take q.brk job)) :
    queueStepIn blocks maxSize q (.addWork job) = none := by
  simp only [queueStepIn, addJobIn, if_neg htake, Option.map_none]

/-- What comes of one call: it returns what it should, or a store of it is past a block. -/
inductive CallIn (blocks : Blocks) (maxSize : Int) (q : Queue) (ops : List QueueOp)
    (outs : List QueueOut) (l : List Nat) (op : QueueOp) (rest : List QueueOp) : Prop
  | overruns (undefined : queueStepIn blocks maxSize q op = none)
      (small : ¬ JobsFit blocks maxSize l.length q.brk (op :: rest))
  | returns (q' : Queue) (out : QueueOut) (l' : List Nat)
      (step : queueStepIn blocks maxSize q op = some (q', out))
      (history : History q' (ops ++ [op]) (outs ++ [out]) l')
      (answers : Answers maxSize q outs out op)
      (find : removalsFindJob maxSize l'.length rest = true)
      (fit : JobsFit blocks maxSize l.length q.brk (op :: rest) ↔
        JobsFit blocks maxSize l'.length q'.brk rest)

theorem History.removalIn {a : Nat} (h : History q ops outs (a :: l)) (op : QueueOp)
    (rest : List QueueOp) (hop : op = .getWork ∨ op = .getWorkNonblocking)
    (hfind : removalsFindJob maxSize (a :: l).length (op :: rest) = true) :
    CallIn blocks maxSize q ops outs (a :: l) op rest := by
  obtain ⟨hmax, q', hstep, hhist, hbrk⟩ := h.dequeue maxSize op hop
  rcases hop with rfl | rfl
  · refine .returns q' _ l hstep hhist ⟨a, rfl, hmax⟩ (by simpa [removalsFindJob] using hfind) ?_
    simp only [JobsFit, List.length_cons, Nat.add_sub_cancel, hbrk]
  · refine .returns q' _ l hstep hhist ⟨a, rfl, hmax⟩ (by simpa [removalsFindJob] using hfind) ?_
    simp only [JobsFit, List.length_cons, Nat.add_sub_cancel, hbrk]

theorem History.callIn (h : History q ops outs l) (op : QueueOp) (rest : List QueueOp)
    (hfind : removalsFindJob maxSize l.length (op :: rest) = true) :
    CallIn blocks maxSize q ops outs l op rest := by
  cases op with
  | addWork job =>
    have hsize := h.size
    by_cases hfull : q.queueSize = maxSize
    · obtain ⟨q', hstep, hhist, hbrk⟩ := h.addWork_full job hfull
      have hsame :
          queueStepIn blocks maxSize q (.addWork job) = queueStep maxSize q (.addWork job) :=
        queueStepIn_addWork (.inl hfull)
      rw [← hsame] at hstep
      have hlength : (l.length : Int) = maxSize := hsize ▸ hfull
      refine .returns q' _ l hstep hhist ?_ (by simpa [removalsFindJob, hlength] using hfind) ?_
      · simp only [Answers, if_pos (h.length_pending.trans hfull)]
      · simp only [JobsFit, if_pos hlength, hbrk]
    · have hlength : ¬ (l.length : Int) = maxSize := hsize ▸ hfull
      by_cases htake : blocks.Take q.brk job
      · obtain ⟨q', l', hstep, hhist, hlen, hbrk⟩ := h.addWork_accepted job hfull
        rw [← queueStepIn_addWork (.inr htake)] at hstep
        refine .returns q' _ l' hstep hhist ?_
          (by simpa [removalsFindJob, hlength, hlen] using hfind) ?_
        · simp only [Answers, if_neg (fun hp => hfull (h.length_pending.symm.trans hp))]
          refine ⟨q.brk, rfl, ?_⟩
          intro hold
          exact lt_irrefl _ (h.below q.brk hold)
        · simp only [JobsFit, if_neg hlength, hlen, hbrk]
          exact and_iff_right (Blocks.take_iff.mp htake)
      · refine .overruns (queueStepIn_overrun (not_or.mpr ⟨hfull, htake⟩)) ?_
        simp only [JobsFit, if_neg hlength]
        rintro ⟨hroom, -⟩
        exact htake (Blocks.take_iff.mpr hroom)
  | getWork =>
    cases l with
    | nil => simp [removalsFindJob] at hfind
    | cons a l => exact h.removalIn .getWork rest (.inl rfl) hfind
  | getWorkNonblocking =>
    cases l with
    | nil => simp [removalsFindJob] at hfind
    | cons a l => exact h.removalIn .getWorkNonblocking rest (.inr rfl) hfind

/-! ### A sequence of calls -/

/-- In blocks with room for them, all calls return what they should. -/
theorem History.runIn (h : History q ops outs l) {todo : List QueueOp}
    (hfind : removalsFindJob maxSize l.length todo = true)
    (hfit : JobsFit blocks maxSize l.length q.brk todo) :
    ∀ done rest, todo = done ++ rest →
      ∃ q' outs', runQueueIn blocks maxSize q done = some (q', outs') ∧
        StableQueue q' (ops ++ done) (outs ++ outs') ∧
        ∀ op rest', rest = op :: rest' →
          ∃ q'' out, queueStepIn blocks maxSize q' op = some (q'', out) ∧
            Answers maxSize q' (outs ++ outs') out op := by
  induction todo generalizing q ops outs l with
  | nil =>
    intro done rest hsplit
    obtain ⟨rfl, rfl⟩ := List.append_eq_nil_iff.mp hsplit.symm
    exact ⟨q, [], rfl, by simpa using h.stableQueue, nofun⟩
  | cons op todo ih =>
    intro done rest hsplit
    have hcall : CallIn blocks maxSize q ops outs l op todo := h.callIn op todo hfind
    cases hcall with
    | overruns undefined small => exact absurd hfit small
    | returns q₁ out l₁ step history answers find fit =>
      cases done with
      | nil =>
        obtain rfl : rest = op :: todo := hsplit.symm
        refine ⟨q, [], rfl, by simpa using h.stableQueue, ?_⟩
        intro op' rest' hrest
        obtain ⟨rfl, rfl⟩ := List.cons.inj hrest
        exact ⟨q₁, out, step, by simpa using answers⟩
      | cons op' done =>
        obtain ⟨rfl, htodo⟩ := List.cons.inj hsplit
        obtain ⟨q', outs', hrun, hstable, hnext⟩ := ih history find (fit.mp hfit) done rest htodo
        refine ⟨q', out :: outs', by simp [runQueueIn, step, hrun], by simpa using hstable, ?_⟩
        intro op' rest' hrest
        simpa using hnext op' rest' hrest

/-- A sequence of calls that return has had room for its jobs. -/
theorem History.jobsFit (h : History q ops outs l) {todo : List QueueOp}
    (hfind : removalsFindJob maxSize l.length todo = true)
    (hrun : (runQueueIn blocks maxSize q todo).isSome) :
    JobsFit blocks maxSize l.length q.brk todo := by
  induction todo generalizing q ops outs l with
  | nil => exact trivial
  | cons op todo ih =>
    have hcall : CallIn blocks maxSize q ops outs l op todo := h.callIn op todo hfind
    cases hcall with
    | overruns undefined small => simp [runQueueIn, undefined] at hrun
    | returns q₁ out l₁ step history answers find fit =>
      refine fit.mpr (ih history find ?_)
      simp only [runQueueIn, step, Option.bind_eq_bind, Option.bind_some] at hrun
      cases hrest : runQueueIn blocks maxSize q₁ todo with
      | none => simp [hrest] at hrun
      | some r => rfl

end Calls

theorem createQueueIn_eq_some {blocks : Blocks} {left : Job} {q : Queue} :
    createQueueIn blocks left = some q ↔ 24 ≤ blocks.cell 0 ∧ createQueue left = q := by
  have hfields : HasFields (blocks.cell 0) [.next] ↔ 24 ≤ blocks.cell 0 := by
    simp [HasFields, Field.stop]
  unfold createQueueIn
  by_cases hroom : 24 ≤ blocks.cell 0
  · simp [if_pos (hfields.mpr hroom), hroom]
  · simp [if_neg (mt hfields.mp hroom), hroom]

/-- The queue refines a stable priority queue over a sequence of calls whose removals find a job
    if and only if the blocks that `malloc` hands out have room for what is stored in them. -/
theorem jobQueue_refines_stableQueue_iff (blocks : Blocks) (maxSize : Int) (left : Job)
    (ops : List QueueOp) (hfind : removalsFindJob maxSize 0 ops = true) :
    RefinesStableQueue blocks maxSize left ops ↔
      24 ≤ blocks.cell 0 ∧ JobsFit blocks maxSize 0 1 ops := by
  have hstart := History.start left
  constructor
  · rintro ⟨q₀, hcreate, hruns⟩
    obtain ⟨hhead, rfl⟩ := createQueueIn_eq_some.mp hcreate
    obtain ⟨q, outs, hrun, -⟩ := hruns ops [] (List.append_nil ops).symm
    exact ⟨hhead, hstart.jobsFit hfind (by rw [hrun]; rfl)⟩
  · rintro ⟨hhead, hfit⟩
    refine ⟨createQueue left, createQueueIn_eq_some.mpr ⟨hhead, rfl⟩, ?_⟩
    intro done rest hsplit
    obtain ⟨q, outs, hrun, hstable, hnext⟩ := hstart.runIn hfind hfit done rest hsplit
    exact ⟨q, outs, hrun, by simpa using hstable, by simpa using hnext⟩

/-- Three requests of priorities 1, 3 and 3 and one removal, in blocks of 32 bytes. -/
theorem jobQueue_refines_stableQueue_three_jobs :
    let job (p : Int) : Job := ⟨[], p, none, 4, 6⟩
    removalsFindJob 100 0 [.addWork (job 1), .addWork (job 3), .addWork (job 3), .getWork] = true ∧
      RefinesStableQueue ⟨fun _ => 32, fun _ => 10000⟩ 100 (job 0)
        [.addWork (job 1), .addWork (job 3), .addWork (job 3), .getWork] := by
  intro job
  refine ⟨by decide, (jobQueue_refines_stableQueue_iff _ 100 (job 0) _ (by decide)).mpr ?_⟩
  refine ⟨by decide, ?_⟩
  simp [JobsFit, job]

/-- `malloc(8)` may hand out blocks of 24 bytes, and then one job is enough to go past one. -/
theorem job_past_block :
    ¬ ∀ (blocks : Blocks) (maxSize : Int) (left : Job) (ops : List QueueOp),
      (∀ a, 8 ≤ blocks.cell a) → (∀ a, 10000 ≤ blocks.text a) →
        removalsFindJob maxSize 0 ops = true → RefinesStableQueue blocks maxSize left ops := by
  intro hall
  obtain ⟨q₀, hcreate, hruns⟩ := hall ⟨fun _ => 24, fun _ => 10000⟩ 100 ⟨[], 0, none, 0, 0⟩
    [.addWork ⟨[], 1, none, 4, 6⟩] (fun _ => (by decide : 8 ≤ 24)) (fun _ => Nat.le_refl _)
    (by decide)
  obtain ⟨-, rfl⟩ := createQueueIn_eq_some.mp hcreate
  obtain ⟨q, outs, hrun, -⟩ := hruns _ [] (List.append_nil _).symm
  have hnone : runQueueIn ⟨fun _ => 24, fun _ => 10000⟩ 100 (createQueue ⟨[], 0, none, 0, 0⟩)
      [.addWork ⟨[], 1, none, 4, 6⟩] = none := rfl
  cases hnone.symm.trans hrun

end Cs537.P6
