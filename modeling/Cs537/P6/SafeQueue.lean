import Cs537.Lib.Cells
import Cs537.Lib.CString
import Cs537.Lib.StableQueue

/-!
# The job queue of the proxy (`safequeue.c`)

The queue is a linked list of `Job` cells behind the dummy cell `job_queue_head`, kept by
non-increasing priority. The cells are those that `malloc` has handed out; none is ever
freed. A function that follows a NULL pointer is undefined there (`none`).

`add_work` computes the priority of the new job from its request text. `addJob` is
`add_work` after that, for any priority.
-/

namespace Cs537.P6

open Cs537.Lib

/-- `Job` (`safequeue.h:5-12`). -/
structure Job where
  buffer : Bytes
  priority : Int
  next : Option Nat
  clientFd : Int
  bytesRead : Int
  deriving DecidableEq, Repr

/-- The job cells, the globals `job_queue_head` and `queue_size` (`proxyserver.c:27-28`),
    and the address that `malloc` hands out next. -/
structure Queue where
  mem : Nat → Option Job
  brk : Nat
  jobQueueHead : Nat
  queueSize : Int

namespace Queue

/-- `malloc` of one cell, with its fields assigned, if the block has room for them (see
    `HasFields`). -/
def malloc (q : Queue) (job : Job) : Queue :=
  { q with mem := Function.update q.mem q.brk (some job), brk := q.brk + 1 }

/-- A write of the cell at `p`. -/
def putCell (q : Queue) (p : Nat) (c : Job) : Queue :=
  { q with mem := Function.update q.mem p (some c) }

/-- `p->next = n`. -/
def setNext (q : Queue) (p : Nat) (n : Option Nat) : Option Queue :=
  (q.mem p).map fun c => q.putCell p { c with next := n }

end Queue

/-- `create_queue` (`safequeue.c:5-9`); the other fields of the dummy cell stay what
    `malloc` left there. -/
def createQueue (left : Job) : Queue where
  mem := Function.update (fun _ => none) 0 (some { left with next := none })
  brk := 1
  jobQueueHead := 0
  queueSize := 0

/-- The `while` loop of `add_work` (`safequeue.c:34-43`). `fuel` bounds its iterations. -/
def addWorkLoop : Nat → Queue → Nat → Nat → Option Queue
  | 0, _, _, _ => none
  | fuel + 1, q, start, newJob => do
    let cell ← q.mem start
    match cell.next with
    | none => q.setNext start (some newJob)
    | some nx =>
      let nextCell ← q.mem nx
      let newCell ← q.mem newJob
      if nextCell.priority < newCell.priority then
        let q ← q.setNext newJob (some nx)
        q.setNext start (some newJob)
      else
        addWorkLoop fuel q nx newJob

/-- `add_work` once the new job's fields are known (`safequeue.c:12-15, 29-45`). An acyclic
    list is no longer than the number of cells, which bounds the loop. -/
def addJob (q : Queue) (jobHead : Nat) (job : Job) (maxSize : Int) : Option (Queue × Bool) :=
  if q.queueSize = maxSize then
    some (q, false)
  else do
    let newJob := q.brk
    let q := q.malloc { job with next := none }
    let cell ← q.mem jobHead
    match cell.next with
    | none =>
      let q ← q.setNext jobHead (some newJob)
      some (q, true)
    | some _ =>
      let q ← addWorkLoop q.brk q jobHead newJob
      some (q, true)

/-- The fields `add_work` gives a new job (`safequeue.c:18-24`): the digit after `GET /` is
    the priority, and the request text is copied up to its first NUL. -/
def newJobOf (buffer : Bytes) (clientFd bytesRead : Int) : Job where
  buffer := cstr buffer
  priority := charInt (buffer.getD 5 0) - 48
  next := none
  clientFd := clientFd
  bytesRead := bytesRead

/-- `add_work` (`safequeue.c:11-46`). -/
def addWork (q : Queue) (jobHead : Nat) (buffer : Bytes) (maxSize clientFd bytesRead : Int) :
    Option (Queue × Bool) :=
  addJob q jobHead (newJobOf buffer clientFd bytesRead) maxSize

/-- `get_work` (`safequeue.c:48-51`). -/
def getWork (q : Queue) (jobHead : Nat) : Option (Option Nat) :=
  (q.mem jobHead).map Job.next

/-- `get_work_nonblocking` (`safequeue.c:53-59`). -/
def getWorkNonblocking (q : Queue) (jobHead : Nat) : Option (Queue × Nat) := do
  let ret ← (← getWork q jobHead)
  let cell ← q.mem ret
  let q ← q.setNext jobHead cell.next
  some ({ q with queueSize := q.queueSize - 1 }, ret)

/-- The removal that a worker does after `get_work` (`proxyserver.c:315-325`). -/
def workerGetWork (q : Queue) : Option (Queue × Nat) := do
  let workerJob ← (← getWork q q.jobQueueHead)
  let cell ← q.mem workerJob
  let q ← q.setNext q.jobQueueHead cell.next
  let q ← q.setNext workerJob none
  some ({ q with queueSize := q.queueSize - 1 }, workerJob)

/-! ## Blocks

`malloc(sizeof(Job *))` asks for 8 bytes, and a `Job` has 32. The functions above have a whole
cell for every job. Here a store past the block that `malloc` has handed out is undefined. -/

/-- The fields of a `Job` (`safequeue.h:5-12`). -/
inductive Field where
  | buffer
  | priority
  | next
  | clientFd
  | bytesRead
  deriving DecidableEq

/-- The byte behind a field: a pointer has 8 bytes and an `int` 4, each at a multiple of its
    size. -/
def Field.stop : Field → Nat
  | .buffer => 8
  | .priority => 12
  | .next => 24
  | .clientFd => 28
  | .bytesRead => 32

/-- These fields of a `Job` are inside a block of `room` bytes. A NULL is a block without
    room. -/
def HasFields (room : Nat) (fields : List Field) : Prop := ∀ f ∈ fields, f.stop ≤ room

instance (room : Nat) (fields : List Field) : Decidable (HasFields room fields) :=
  inferInstanceAs (Decidable (∀ f ∈ fields, f.stop ≤ room))

/-- The blocks that `malloc` hands out: how many bytes the one at an address has, and the one
    for the text of the job there. -/
structure Blocks where
  cell : Nat → Nat
  text : Nat → Nat

/-- `create_queue` in the block it is given. -/
def createQueueIn (blocks : Blocks) (left : Job) : Option Queue :=
  if HasFields (blocks.cell 0) [.next] then some (createQueue left) else none

/-- The blocks at an address have room for a job and, with its NUL, for its text. -/
def Blocks.Take (blocks : Blocks) (a : Nat) (job : Job) : Prop :=
  HasFields (blocks.cell a) [.priority, .next, .buffer, .clientFd, .bytesRead] ∧
    job.buffer.length < blocks.text a

instance (blocks : Blocks) (a : Nat) (job : Job) : Decidable (blocks.Take a job) :=
  inferInstanceAs (Decidable (_ ∧ _))

/-- `add_work` in the blocks it is given (`safequeue.c:17-24`). -/
def addJobIn (blocks : Blocks) (q : Queue) (jobHead : Nat) (job : Job) (maxSize : Int) :
    Option (Queue × Bool) :=
  if q.queueSize = maxSize ∨ blocks.Take q.brk job then addJob q jobHead job maxSize else none

/-- A job takes a block of 32 bytes. -/
theorem Blocks.take_iff {blocks : Blocks} {a : Nat} {job : Job} :
    blocks.Take a job ↔ 32 ≤ blocks.cell a ∧ job.buffer.length < blocks.text a := by
  refine and_congr_left' ?_
  constructor
  · intro h
    exact h .bytesRead (by decide)
  · intro h f _
    have hstop : f.stop ≤ 32 := by cases f <;> decide
    omega

/-! ## What the functions do to the list -/

namespace Queue

/-- The jobs behind `job_queue_head`, in list order; `malloc` has not handed out the
    addresses from `brk` on. -/
structure Holds (q : Queue) (l : List Nat) : Prop where
  chain : Seg Job.next q.mem (some q.jobQueueHead) (q.jobQueueHead :: l) none
  fresh : ∀ a, q.brk ≤ a → q.mem a = none

/-- The priority of the job at an address. -/
def priorityOf (q : Queue) (a : Nat) : Int := ((q.mem a).map Job.priority).getD 0

/-- The fields of a job other than its link. -/
def data (j : Job) : Job := { j with next := none }

/-- `q'` has the jobs of `q`, linked in some other way, and maybe more. -/
def Keeps (q q' : Queue) : Prop :=
  ∀ a j, q.mem a = some j → (q'.mem a).map data = some (data j)

theorem Keeps.refl (q : Queue) : q.Keeps q := fun a j hj => by simp [hj]

theorem Keeps.trans {q q' q'' : Queue} (h : q.Keeps q') (h' : q'.Keeps q'') :
    q.Keeps q'' := by
  intro a j hj
  obtain ⟨j', hj', hdata⟩ := Option.map_eq_some_iff.mp (h a j hj)
  rw [h' a j' hj', hdata]

theorem Keeps.priorityOf {q q' : Queue} (h : q.Keeps q') {a : Nat} {j : Job}
    (hj : q.mem a = some j) : q'.priorityOf a = q.priorityOf a := by
  obtain ⟨j', hj', hdata⟩ := Option.map_eq_some_iff.mp (h a j hj)
  have hprio : (data j').priority = (data j).priority := congrArg Job.priority hdata
  simp only [data] at hprio
  simp [Queue.priorityOf, hj, hj', hprio]

theorem Holds.nodup {q : Queue} {l : List Nat} (h : q.Holds l) :
    (q.jobQueueHead :: l).Nodup := h.chain.nodup

theorem Holds.lt_brk {q : Queue} {l : List Nat} (h : q.Holds l) {a : Nat}
    (ha : a ∈ q.jobQueueHead :: l) : a < q.brk := by
  obtain ⟨c, hc⟩ := h.chain.cell_of_mem ha
  by_contra hge
  rw [h.fresh a (not_lt.mp hge)] at hc
  exact absurd hc (by simp)

theorem Holds.length_lt {q : Queue} {l : List Nat} (h : q.Holds l) : l.length < q.brk := by
  have hle := length_le_of_nodup_of_lt h.nodup fun a ha => h.lt_brk ha
  rwa [List.length_cons] at hle

theorem Holds.unique {q : Queue} {l l' : List Nat} (h : q.Holds l) (h' : q.Holds l') :
    l = l' := (List.cons.inj (h.chain.unique h'.chain)).2

theorem setNext_eq_some {q : Queue} {p : Nat} {n : Option Nat} {c : Job}
    (hc : q.mem p = some c) : q.setNext p n = some (q.putCell p { c with next := n }) := by
  simp [setNext, hc]

@[simp] theorem putCell_mem_self (q : Queue) (p : Nat) (c : Job) :
    (q.putCell p c).mem p = some c := by simp [putCell]

theorem putCell_mem_ne (q : Queue) {p a : Nat} (c : Job) (h : a ≠ p) :
    (q.putCell p c).mem a = q.mem a := by simp [putCell, Function.update_of_ne h]

@[simp] theorem putCell_brk (q : Queue) (p : Nat) (c : Job) :
    (q.putCell p c).brk = q.brk := rfl

@[simp] theorem putCell_head (q : Queue) (p : Nat) (c : Job) :
    (q.putCell p c).jobQueueHead = q.jobQueueHead := rfl

@[simp] theorem putCell_size (q : Queue) (p : Nat) (c : Job) :
    (q.putCell p c).queueSize = q.queueSize := rfl

theorem seg_putCell {q : Queue} {p r : Option Nat} {l : List Nat} {a : Nat} (c : Job)
    (ha : a ∉ l) (h : Seg Job.next q.mem p l r) : Seg Job.next (q.putCell a c).mem p l r :=
  h.update_of_notMem c ha

/-- `q'` differs from `q` only in the links of the cells `touched`. -/
structure Relinks (q q' : Queue) (touched : List Nat) : Prop where
  same : ∀ a, (q'.mem a).map data = (q.mem a).map data
  frame : ∀ a, a ∉ touched → q'.mem a = q.mem a
  brk : q'.brk = q.brk
  head : q'.jobQueueHead = q.jobQueueHead
  size : q'.queueSize = q.queueSize

theorem relinks_putCell {q : Queue} {p : Nat} {c : Job} (hc : q.mem p = some c)
    (n : Option Nat) : q.Relinks (q.putCell p { c with next := n }) [p] where
  same a := by
    by_cases hap : a = p
    · subst hap
      simp [hc, data]
    · rw [putCell_mem_ne q _ hap]
  frame a ha := putCell_mem_ne q _ (by simpa using ha)
  brk := rfl
  head := rfl
  size := rfl

namespace Relinks

variable {q q' q'' : Queue} {t t' : List Nat}

theorem trans (h : q.Relinks q' t) (h' : q'.Relinks q'' t') : q.Relinks q'' (t ++ t') where
  same a := (h'.same a).trans (h.same a)
  frame a ha := by
    rw [List.mem_append, not_or] at ha
    rw [h'.frame a ha.2, h.frame a ha.1]
  brk := h'.brk.trans h.brk
  head := h'.head.trans h.head
  size := h'.size.trans h.size

theorem mono (h : q.Relinks q' t) (sub : t ⊆ t') : q.Relinks q' t' :=
  { h with frame := fun a ha => h.frame a fun hmem => ha (sub hmem) }

theorem keeps (h : q.Relinks q' t) : q.Keeps q' := fun a j hj => by rw [h.same a, hj]; rfl

theorem priorityOf (h : q.Relinks q' t) : q'.priorityOf = q.priorityOf := by
  funext a
  have hprio : ∀ q : Queue, q.priorityOf a = (((q.mem a).map data).map Job.priority).getD 0 := by
    intro q
    cases hq : q.mem a <;> simp [Queue.priorityOf, hq, data]
  rw [hprio, hprio, h.same]

theorem fresh (h : q.Relinks q' t) {a : Nat} (ha : q.mem a = none) : q'.mem a = none := by
  have hsame := h.same a
  rw [ha] at hsame
  simpa using hsame

end Relinks

/-- Linking a cell in behind `start`, whatever follows it. -/
theorem link_behind {q : Queue} {start newJob : Nat} {c cn : Job} {l : List Nat}
    (hc : q.mem start = some c) (hn : q.mem newJob = some cn)
    (hl : Seg Job.next q.mem c.next l none) (hfresh : newJob ∉ start :: l)
    (hstart : start ∉ l) :
    ∃ q', ((q.setNext newJob c.next).bind fun q => q.setNext start (some newJob)) = some q' ∧
      Seg Job.next q'.mem (some start) (start :: newJob :: l) none ∧
      q.Relinks q' [newJob, start] := by
  rw [List.mem_cons, not_or] at hfresh
  have hc' : (q.putCell newJob { cn with next := c.next }).mem start = some c := by
    rw [putCell_mem_ne q _ (Ne.symm hfresh.1), hc]
  refine ⟨(q.putCell newJob { cn with next := c.next }).putCell start
    { c with next := some newJob }, ?_, ?_, ?_⟩
  · rw [setNext_eq_some hn, Option.bind_some, setNext_eq_some hc']
  · refine ⟨rfl, { c with next := some newJob }, by simp, rfl,
      { cn with next := c.next }, ?_, ?_⟩
    · rw [putCell_mem_ne _ _ hfresh.1, putCell_mem_self]
    · exact seg_putCell _ hstart (seg_putCell _ hfresh.2 hl)
  · exact (relinks_putCell hn c.next).trans (relinks_putCell hc' (some newJob))

/-- The loop of `add_work` puts the new job in front of the first job of smaller
priority behind `start`. -/
theorem addWorkLoop_spec {newJob : Nat} :
    ∀ {fuel : Nat} {q : Queue} {start : Nat} {l : List Nat} {cn : Job},
      Seg Job.next q.mem (some start) (start :: l) none → q.mem newJob = some cn →
      cn.next = none → newJob ∉ start :: l → l.length < fuel →
      ∃ q', addWorkLoop fuel q start newJob = some q' ∧
        Seg Job.next q'.mem (some start)
          (start :: l.orderedInsert (Outranks q.priorityOf) newJob) none ∧
        q.Relinks q' (newJob :: start :: l) := by
  intro fuel
  induction fuel with
  | zero => intro q start l cn _ _ _ _ hfuel; omega
  | succ fuel ih =>
    intro q start l cn hseg hn hnnext hfresh hfuel
    have hnodup := hseg.nodup
    obtain ⟨-, c, hc, htail⟩ := hseg
    have hstart : start ∉ l := (List.nodup_cons.mp hnodup).1
    cases l with
    | nil =>
      have hcnext : c.next = none := htail
      have hne : newJob ≠ start := by simpa using hfresh
      refine ⟨q.putCell start { c with next := some newJob }, ?_, ?_,
        (relinks_putCell hc (some newJob)).mono (by simp)⟩
      · simp [addWorkLoop, hc, hcnext, setNext_eq_some hc]
      · refine ⟨rfl, { c with next := some newJob }, by simp, rfl, cn, ?_, hnnext⟩
        rw [putCell_mem_ne q _ hne, hn]
    | cons b l =>
      obtain ⟨hcnext, d, hd, hrest⟩ := htail
      by_cases hlt : d.priority < cn.priority
      · obtain ⟨q', hq', hseg', hrel⟩ :=
          link_behind (l := b :: l) hc hn (by rw [hcnext]; exact ⟨rfl, d, hd, hrest⟩)
            hfresh hstart
        refine ⟨q', ?_, ?_, hrel.mono (by simp)⟩
        · rw [hcnext] at hq'
          simpa [addWorkLoop, hc, hcnext, hd, hn, hlt] using hq'
        · have hout : Outranks q.priorityOf newJob b := by
            simpa [Outranks, Queue.priorityOf, hd, hn] using hlt
          rwa [List.orderedInsert_cons_of_le _ _ hout]
      · have hbfresh : newJob ∉ b :: l := fun hmem => hfresh (List.mem_cons_of_mem _ hmem)
        have hseg : Seg Job.next q.mem (some b) (b :: l) none := ⟨rfl, d, hd, hrest⟩
        have hfuel' : l.length < fuel := by simpa using hfuel
        obtain ⟨q', hq', hseg', hrel⟩ := ih hseg hn hnnext hbfresh hfuel'
        refine ⟨q', ?_, ?_, hrel.mono (by simp)⟩
        · simpa [addWorkLoop, hc, hcnext, hd, hn, hlt] using hq'
        · have hout : ¬ Outranks q.priorityOf newJob b := by
            simpa [Outranks, Queue.priorityOf, hd, hn] using hlt
          rw [List.orderedInsert_of_not_le _ _ hout]
          have hkeep : q'.mem start = some c := by
            have hne : start ≠ newJob := by
              rintro rfl
              exact hfresh List.mem_cons_self
            rw [hrel.frame start, hc]
            exact List.not_mem_cons_of_ne_of_not_mem hne hstart
          exact ⟨rfl, c, hkeep, by rw [hcnext]; exact hseg'⟩

/-- `addJob` is its loop started at the dummy cell. -/
theorem addJob_eq (q : Queue) (jobHead : Nat) (job : Job) {maxSize : Int}
    (hsize : q.queueSize ≠ maxSize) :
    addJob q jobHead job maxSize =
      (addWorkLoop (q.brk + 1) (q.malloc { job with next := none }) jobHead q.brk).map
        fun q => (q, true) := by
  simp only [addJob, if_neg hsize]
  cases hc : (q.malloc { job with next := none }).mem jobHead with
  | none => simp [addWorkLoop, hc]
  | some cell =>
    cases hnext : cell.next with
    | none => simp [addWorkLoop, hc, hnext, Option.map_eq_bind]
    | some nx => simp [malloc, hnext, Option.map_eq_bind]

theorem malloc_mem_self (q : Queue) (job : Job) : (q.malloc job).mem q.brk = some job := by
  simp [malloc]

theorem malloc_mem_ne (q : Queue) (job : Job) {a : Nat} (h : a ≠ q.brk) :
    (q.malloc job).mem a = q.mem a := by
  simp [malloc, Function.update_of_ne h]

/-- A new cell is behind everything handed out before and changes none of it. -/
theorem Holds.malloc {q : Queue} {l : List Nat} (h : q.Holds l) (job : Job) :
    (q.malloc job).Holds l ∧ q.Keeps (q.malloc job) := by
  have hbrk : q.brk ∉ q.jobQueueHead :: l := fun hmem => lt_irrefl _ (h.lt_brk hmem)
  refine ⟨⟨h.chain.update_of_notMem job hbrk, ?_⟩, ?_⟩
  · intro a ha
    have hle : q.brk + 1 ≤ a := ha
    rw [malloc_mem_ne q job (by omega)]
    exact h.fresh a (by omega)
  · intro a j hj
    have hne : a ≠ q.brk := by
      rintro rfl
      rw [h.fresh _ le_rfl] at hj
      cases hj
    rw [malloc_mem_ne q job hne, hj]
    rfl

/-- `add_work` on a queue that is not full puts a new job in front of the first job of
smaller priority. -/
theorem Holds.addJob {q : Queue} {l : List Nat} (h : q.Holds l) (job : Job) {maxSize : Int}
    (hsize : q.queueSize ≠ maxSize) :
    ∃ q', addJob q q.jobQueueHead job maxSize = some (q', true) ∧
      q'.Holds (l.orderedInsert (Outranks q'.priorityOf) q.brk) ∧ q.Keeps q' ∧
      (q'.mem q.brk).map data = some (data job) ∧ q'.brk = q.brk + 1 ∧
      q'.jobQueueHead = q.jobQueueHead ∧ q'.queueSize = q.queueSize := by
  obtain ⟨hm, hkeeps⟩ := h.malloc { job with next := none }
  have hbrk : q.brk ∉ q.jobQueueHead :: l := fun hmem => lt_irrefl _ (h.lt_brk hmem)
  have hnew := malloc_mem_self q { job with next := none }
  obtain ⟨q', hq', hseg, hrel⟩ :=
    addWorkLoop_spec hm.chain hnew rfl hbrk (Nat.lt_succ_of_lt h.length_lt)
  refine ⟨q', ?_, ⟨?_, ?_⟩, hkeeps.trans hrel.keeps, ?_, hrel.brk, hrel.head, hrel.size⟩
  · rw [addJob_eq q _ job hsize]
    exact Option.map_eq_some_iff.mpr ⟨q', hq', rfl⟩
  · rw [hrel.priorityOf, hrel.head]
    exact hseg
  · intro a ha
    rw [hrel.brk] at ha
    exact hrel.fresh (hm.fresh a ha)
  · rw [hrel.same, hnew]
    rfl

/-- The first job leaves the list when the dummy cell is pointed at the one after it. -/
theorem Holds.unlink {q : Queue} {a : Nat} {l : List Nat} (h : q.Holds (a :: l)) :
    ∃ cell q', getWork q q.jobQueueHead = some (some a) ∧ q.mem a = some cell ∧
      q.setNext q.jobQueueHead cell.next = some q' ∧ q'.Holds l ∧
      q.Relinks q' [q.jobQueueHead] ∧ a ∉ q.jobQueueHead :: l := by
  have hnodup := h.nodup
  obtain ⟨-, c, hc, hnext, cell, hcell, hrest⟩ := h.chain
  have ha : a ∉ q.jobQueueHead :: l := by
    simp only [List.nodup_cons, List.mem_cons, not_or] at hnodup
    simp only [List.mem_cons, not_or]
    exact ⟨Ne.symm hnodup.1.1, hnodup.2.1⟩
  have hhead : q.jobQueueHead ∉ l := by
    simp only [List.nodup_cons, List.mem_cons, not_or] at hnodup
    exact hnodup.1.2
  have hrel := relinks_putCell hc cell.next
  refine ⟨cell, q.putCell q.jobQueueHead { c with next := cell.next }, ?_, hcell,
    setNext_eq_some hc, ⟨?_, ?_⟩, hrel, ha⟩
  · simp [getWork, hc, hnext]
  · exact ⟨rfl, { c with next := cell.next }, putCell_mem_self _ _ _,
      seg_putCell _ hhead hrest⟩
  · intro b hb
    exact hrel.fresh (h.fresh b hb)

/-- What a removal leaves: the jobs behind the first one, and a counter smaller by one. -/
structure Removed (q q' : Queue) (l : List Nat) : Prop where
  holds : q'.Holds l
  keeps : q.Keeps q'
  brk : q'.brk = q.brk
  head : q'.jobQueueHead = q.jobQueueHead
  size : q'.queueSize = q.queueSize - 1

/-- `get_work_nonblocking` on a list that is not empty. -/
theorem Holds.getWorkNonblocking {q : Queue} {a : Nat} {l : List Nat}
    (h : q.Holds (a :: l)) :
    ∃ q', getWorkNonblocking q q.jobQueueHead = some (q', a) ∧ q.Removed q' l := by
  obtain ⟨cell, q', hget, hcell, hset, hholds, hrel, -⟩ := h.unlink
  refine ⟨{ q' with queueSize := q'.queueSize - 1 }, ?_, ?_⟩
  · simp [P6.getWorkNonblocking, hget, hcell, hset]
  · exact ⟨⟨hholds.chain, hholds.fresh⟩, hrel.keeps, hrel.brk, hrel.head,
      congrArg (· - 1) hrel.size⟩

/-- A worker's removal from a list that is not empty. -/
theorem Holds.workerGetWork {q : Queue} {a : Nat} {l : List Nat} (h : q.Holds (a :: l)) :
    ∃ q', workerGetWork q = some (q', a) ∧ q.Removed q' l := by
  obtain ⟨cell, q', hget, hcell, hset, hholds, hrel, ha⟩ := h.unlink
  have hcell' : q'.mem a = some cell := by
    rw [hrel.frame a, hcell]
    simp only [List.mem_cons, not_or] at ha
    simpa using ha.1
  have hrel' := relinks_putCell hcell' none
  refine ⟨{ q'.putCell a { cell with next := none } with queueSize := q'.queueSize - 1 },
    ?_, ?_⟩
  · simp [P6.workerGetWork, hget, hcell, hset, setNext_eq_some hcell']
  · refine ⟨⟨?_, ?_⟩, hrel.keeps.trans hrel'.keeps, hrel.brk, hrel.head,
      congrArg (· - 1) hrel.size⟩
    · have ha' : a ∉ q'.jobQueueHead :: l := by rwa [hrel.head]
      exact seg_putCell _ ha' hholds.chain
    · intro b hb
      exact hrel'.fresh (hholds.fresh b hb)

/-- Both removals follow a NULL pointer on an empty list. -/
theorem Holds.removal_undefined {q : Queue} (h : q.Holds []) :
    P6.getWorkNonblocking q q.jobQueueHead = none ∧ P6.workerGetWork q = none := by
  obtain ⟨-, c, hc, hnext⟩ := h.chain
  have hnone : getWork q q.jobQueueHead = some none := by
    have : c.next = none := hnext
    simp [getWork, hc, this]
  simp [P6.getWorkNonblocking, P6.workerGetWork, hnone]

end Queue

/-- The list behind a fresh `job_queue_head` is empty. -/
theorem createQueue_holds (left : Job) : (createQueue left).Holds [] where
  chain := ⟨rfl, { left with next := none }, by simp [createQueue], rfl⟩
  fresh a ha := by
    have hne : a ≠ 0 := by
      have : 1 ≤ a := ha
      omega
    simp [createQueue, Function.update_of_ne hne]

end Cs537.P6
