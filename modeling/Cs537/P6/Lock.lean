import Cs537.P6.Server

/-!
# The lock of the proxy, statement by statement

The threads of `proxyserver.c` with every access to the shared list and counter as a step of
its own. `lock` is the thread that took the mutex last and has not been unlocked since:
`pthread_mutex_unlock` frees it whoever calls. A listener that finds `queue_size == 0` on a
`GetJob` request calls it without holding the lock (`proxyserver.c:258`).

`accepted` and `removed` record, for the statements of the results only, the jobs linked
into the list and the jobs unlinked from it.
-/

namespace Cs537.P6

open Cs537.Lib Queue

/-- The statement a thread executes next. Between taking the lock and freeing it the
    constructors follow the lines of `serve_forever`, `worker`, `add_work` and
    `get_work_nonblocking`. -/
inductive Pc where
  | idle
  | testEmpty
  | strayUnlock
  | takeLock
  | takeHead
  | takeUnlink (ret : Option Nat)
  | takeCount
  | takeUnlock
  | addLock (r : Request)
  | addFull (r : Request)
  | addEmpty (newJob : Nat)
  | addWalk (start newJob : Nat)
  | addNext (start newJob : Nat)
  | addLink (start newJob : Nat)
  | addCount
  | addUnlock
  | fullUnlock
  | signal
  | lock
  | test
  | waiting
  | woken
  | getWork
  | unlink (job : Option Nat)
  | clearNext (job : Nat)
  | count (job : Nat)
  | unlock (job : Nat)
  | serving (job : Nat)
  deriving DecidableEq

/-- The thread is between its lock (or its return from `pthread_cond_wait`) and its
    matching unlock. -/
def Pc.inRegion : Pc → Bool
  | .takeHead | .takeUnlink _ | .takeCount | .takeUnlock | .addFull _ | .addEmpty _
  | .addWalk _ _ | .addNext _ _ | .addLink _ _ | .addCount | .addUnlock | .fullUnlock
  | .test | .getWork | .unlink _ | .clearNext _ | .count _ | .unlock _ => true
  | _ => false

/-- A listener or a worker. -/
abbrev Thread (numListener numWorkers : Nat) := Fin numListener ⊕ Fin numWorkers

/-- The shared memory, the mutex, the threads, and the history of the list. -/
structure Machine (numListener numWorkers : Nat) where
  queue : Queue
  lock : Option (Thread numListener numWorkers)
  pc : Thread numListener numWorkers → Pc
  accepted : List Nat
  removed : List Nat
  crashed : Bool

/-- A thread goes on; `accept` is what a listener reads, `wakeup` what a signal does to the
    waiting threads. -/
inductive Move (numListener numWorkers : Nat) where
  | accept (i : Fin numListener) (r : Request)
  | signal (i : Fin numListener) (woken : List (Fin numWorkers))
  | wakeup (w : Fin numWorkers)
  | run (t : Thread numListener numWorkers)

variable {numListener numWorkers : Nat}

namespace Machine

def init (left : Job) : Machine numListener numWorkers where
  queue := createQueue left
  lock := none
  pc := Sum.elim (fun _ => .idle) fun _ => .lock
  accepted := []
  removed := []
  crashed := false

variable (m : Machine numListener numWorkers) (t : Thread numListener numWorkers)

/-- The thread goes on to another statement. -/
def goto (pc : Pc) : Machine numListener numWorkers := { m with pc := Function.update m.pc t pc }

/-- `pthread_mutex_lock(&lock)`, which blocks while the lock is taken. -/
def mutexLock (pc : Pc) : Option (Machine numListener numWorkers) :=
  if m.lock = none then some { m.goto t pc with lock := some t } else none

/-- `pthread_mutex_unlock(&lock)`. -/
def mutexUnlock (pc : Pc) : Machine numListener numWorkers := { m.goto t pc with lock := none }

/-- A NULL pointer is followed. -/
def crash : Machine numListener numWorkers := { m with crashed := true }

/-- `q` is the memory after the statement. -/
def withQueue (q : Queue) : Machine numListener numWorkers := { m with queue := q }

/-- `p->next = n`, then `pc`. -/
def store (p : Nat) (n : Option Nat) (pc : Pc) : Machine numListener numWorkers :=
  match m.queue.setNext p n with
  | none => m.crash
  | some q => (m.goto t pc).withQueue q

/-- `queue_size += d`, then `pc`. -/
def addSize (d : Int) (pc : Pc) : Machine numListener numWorkers :=
  (m.goto t pc).withQueue { m.queue with queueSize := m.queue.queueSize + d }

/-- `job_queue_head->next = job->next` (`proxyserver.c:323`, `safequeue.c:56`). -/
def unlinkHead (job : Option Nat) (pc : Nat → Pc) : Machine numListener numWorkers :=
  match job with
  | none => m.crash
  | some job =>
    match m.queue.mem job with
    | none => m.crash
    | some cell =>
      { m.store t m.queue.jobQueueHead cell.next (pc job) with removed := m.removed ++ [job] }

/-- One statement of the thread, if it is not blocked. -/
def exec (maxQueueSize : Int) : Option (Machine numListener numWorkers) :=
  match m.pc t with
  | .testEmpty =>
    some (m.goto t (if m.queue.queueSize = 0 then .strayUnlock else .takeLock))
  | .strayUnlock => some (m.mutexUnlock t .idle)
  | .takeLock => m.mutexLock t .takeHead
  | .takeHead =>
    match P6.getWork m.queue m.queue.jobQueueHead with
    | none => some m.crash
    | some ret => some (m.goto t (.takeUnlink ret))
  | .takeUnlink ret => some (m.unlinkHead t ret fun _ => .takeCount)
  | .takeCount => some (m.addSize t (-1) .takeUnlock)
  | .takeUnlock => some (m.mutexUnlock t .idle)
  | .addLock r => m.mutexLock t (.addFull r)
  | .addFull r =>
    if m.queue.queueSize = maxQueueSize then some (m.goto t .fullUnlock)
    else some ((m.goto t (.addEmpty m.queue.brk)).withQueue
      (m.queue.malloc (newJobOf r.buffer r.clientFd r.bytesRead)))
  | .addEmpty newJob =>
    match m.queue.mem m.queue.jobQueueHead with
    | none => some m.crash
    | some head =>
      if head.next = none then some (m.goto t (.addLink m.queue.jobQueueHead newJob))
      else some (m.goto t (.addWalk m.queue.jobQueueHead newJob))
  | .addWalk start newJob =>
    match m.queue.mem start, m.queue.mem newJob with
    | some cell, some new =>
      match cell.next with
      | none => some (m.goto t (.addLink start newJob))
      | some nx =>
        match m.queue.mem nx with
        | none => some m.crash
        | some nextCell =>
          if nextCell.priority < new.priority then some (m.goto t (.addNext start newJob))
          else some (m.goto t (.addWalk nx newJob))
    | _, _ => some m.crash
  | .addNext start newJob =>
    match m.queue.mem start with
    | none => some m.crash
    | some cell => some (m.store t newJob cell.next (.addLink start newJob))
  | .addLink start newJob =>
    some { m.store t start (some newJob) .addCount with accepted := m.accepted ++ [newJob] }
  | .addCount => some (m.addSize t 1 .addUnlock)
  | .addUnlock => some (m.mutexUnlock t .signal)
  | .fullUnlock => some (m.mutexUnlock t .idle)
  | .lock => m.mutexLock t .test
  | .test =>
    if m.queue.queueSize = 0 then some (m.mutexUnlock t .waiting) else some (m.goto t .getWork)
  | .woken => m.mutexLock t .getWork
  | .getWork =>
    match P6.getWork m.queue m.queue.jobQueueHead with
    | none => some m.crash
    | some job => some (m.goto t (.unlink job))
  | .unlink job => some (m.unlinkHead t job .clearNext)
  | .clearNext job => some (m.store t job none (.count job))
  | .count job => some (m.addSize t (-1) (.unlock job))
  | .unlock job => some (m.mutexUnlock t (.serving job))
  | .serving _ => some (m.goto t .lock)
  | .idle | .signal | .waiting => none

local instance : LawfulBEq (Fin numWorkers) := inferInstance

/-- `pthread_cond_signal` wakes these workers. -/
def wake (ws : List (Fin numWorkers)) : Machine numListener numWorkers :=
  { m with
    pc := Sum.elim (fun i => m.pc (.inl i)) fun w => if w ∈ ws then .woken else m.pc (.inr w) }

/-- The state after a move, if the move can happen in the state. -/
def next (maxQueueSize : Int) (m : Machine numListener numWorkers) :
    Move numListener numWorkers → Option (Machine numListener numWorkers)
  | .accept i r =>
    if m.crashed = false ∧ m.pc (.inl i) = .idle then
      some (m.goto (.inl i) (if r.isGetJob then .testEmpty else .addLock r))
    else none
  | .signal i ws =>
    if m.crashed = false ∧ m.pc (.inl i) = .signal ∧ (∀ w ∈ ws, m.pc (.inr w) = .waiting) ∧
        (ws = [] → ∀ w, m.pc (.inr w) ≠ .waiting) then
      some ((m.wake ws).goto (.inl i) .idle)
    else none
  | .wakeup w =>
    if m.crashed = false ∧ m.pc (.inr w) = .waiting then some (m.goto (.inr w) .woken) else none
  | .run t => if m.crashed = false then m.exec t maxQueueSize else none

/-! ## What holds while the stray unlock only meets a free lock -/

/-- At most one thread is between its lock and its matching unlock. -/
def Exclusive : Prop :=
  ∀ t u, (m.pc t).inRegion = true → (m.pc u).inRegion = true → t = u

/-- The jobs linked into the list are those unlinked and those the list holds now. -/
def Conserved : Prop := ∃ l, m.queue.Holds l ∧ m.accepted.Perm (m.removed ++ l)

/-- A cell that is not linked into the list. -/
def Detached (q : Queue) (l : List Nat) (a : Nat) : Prop :=
  a ∉ q.jobQueueHead :: l ∧ ∃ c, q.mem a = some c ∧ c.next = none

/-- What a thread inside its region knows of the list from its earlier statements. -/
def Facts (q : Queue) (l : List Nat) : Pc → Prop
  | .takeUnlink ret => ret = l.head?
  | .unlink job => job = l.head?
  | .clearNext job => job ∉ q.jobQueueHead :: l ∧ ∃ c, q.mem job = some c
  | .addEmpty newJob => Detached q l newJob
  | .addWalk start newJob => start ∈ q.jobQueueHead :: l ∧ Detached q l newJob
  | .addNext start newJob => start ∈ q.jobQueueHead :: l ∧ Detached q l newJob
  | .addLink start newJob => newJob ∉ q.jobQueueHead :: l ∧ start ∈ q.jobQueueHead :: l ∧
      ∃ c cn, q.mem start = some c ∧ q.mem newJob = some cn ∧ cn.next = c.next
  | _ => True

/-- The lock names the thread in its region, and the list is what the history says. -/
structure Inv (l : List Nat) : Prop where
  lock_iff : ∀ u, (m.pc u).inRegion = true ↔ m.lock = some u
  holds : m.queue.Holds l
  conserved : m.accepted.Perm (m.removed ++ l)
  facts : ∀ u, Facts m.queue l (m.pc u)

theorem facts_of_outside {q : Queue} {l : List Nat} {pc : Pc} (h : pc.inRegion = false) :
    Facts q l pc := by
  cases pc <;> trivial

namespace Inv

variable {m m' : Machine numListener numWorkers} {t : Thread numListener numWorkers}
  {l l' : List Nat} {pc : Pc}

/-- While a thread is in its region, the others are not. -/
theorem outside (h : m.Inv l) (ht : (m.pc t).inRegion = true)
    {u : Thread numListener numWorkers} (hu : u ≠ t) : (m.pc u).inRegion = false := by
  by_contra hin
  rw [Bool.not_eq_false, h.lock_iff, (h.lock_iff t).mp ht] at hin
  exact hu (Option.some.inj hin).symm

/-- A statement inside the region: the lock stays, and what the other threads know does not
depend on the list. -/
theorem inside (h : m.Inv l) (ht : (m.pc t).inRegion = true)
    (hpc : m'.pc = Function.update m.pc t pc) (hlock : m'.lock = m.lock)
    (hin : pc.inRegion = true) (holds : m'.queue.Holds l')
    (conserved : m'.accepted.Perm (m'.removed ++ l')) (facts : Facts m'.queue l' pc) :
    m'.Inv l' where
  lock_iff u := by
    rw [hpc, hlock, ← h.lock_iff]
    by_cases hu : u = t
    · subst hu
      simp [hin, ht]
    · rw [Function.update_of_ne hu]
  holds := holds
  conserved := conserved
  facts u := by
    rw [hpc]
    by_cases hu : u = t
    · subst hu
      simpa using facts
    · rw [Function.update_of_ne hu]
      exact facts_of_outside (h.outside ht hu)

/-- A statement that touches neither the lock nor the memory. -/
theorem goto (h : m.Inv l) (hin : pc.inRegion = (m.pc t).inRegion)
    (facts : Facts m.queue l pc) : (m.goto t pc).Inv l where
  lock_iff u := by
    have hu := h.lock_iff u
    by_cases hut : u = t
    · subst hut
      simpa [Machine.goto, hin] using hu
    · simpa [Machine.goto, Function.update_of_ne hut] using hu
  holds := h.holds
  conserved := h.conserved
  facts u := by
    by_cases hut : u = t
    · subst hut
      simpa [Machine.goto] using facts
    · simpa [Machine.goto, Function.update_of_ne hut] using h.facts u

theorem crash (h : m.Inv l) : m.crash.Inv l := ⟨h.lock_iff, h.holds, h.conserved, h.facts⟩

/-- Taking the lock. -/
theorem mutexLock (h : m.Inv l) (hm : m.mutexLock t pc = some m') (hin : pc.inRegion = true)
    (facts : Facts m.queue l pc) : m'.Inv l := by
  simp only [Machine.mutexLock, Option.ite_none_right_eq_some, Option.some.injEq] at hm
  obtain ⟨hfree, rfl⟩ := hm
  have hout : ∀ u, (m.pc u).inRegion = false := by
    intro u
    by_contra hu
    rw [Bool.not_eq_false, h.lock_iff, hfree] at hu
    cases hu
  refine ⟨?_, h.holds, h.conserved, ?_⟩
  · intro u
    by_cases hut : u = t
    · subst hut
      simp [Machine.goto, hin]
    · have hne : t ≠ u := Ne.symm hut
      simp [Machine.goto, Function.update_of_ne hut, hout, hne]
  · intro u
    by_cases hut : u = t
    · subst hut
      simpa [Machine.goto] using facts
    · simpa [Machine.goto, Function.update_of_ne hut] using h.facts u

/-- Freeing the lock, by the thread that has it or while nobody has it. -/
theorem mutexUnlock (h : m.Inv l) (hown : (m.pc t).inRegion = true ∨ m.lock = none)
    (hout : pc.inRegion = false) : (m.mutexUnlock t pc).Inv l := by
  have hothers : ∀ u, u ≠ t → (m.pc u).inRegion = false := by
    intro u hu
    rcases hown with ht | hfree
    · exact h.outside ht hu
    · by_contra hin
      rw [Bool.not_eq_false, h.lock_iff, hfree] at hin
      cases hin
  refine ⟨?_, h.holds, h.conserved, ?_⟩
  · intro u
    by_cases hut : u = t
    · subst hut
      simp [Machine.mutexUnlock, Machine.goto, hout]
    · simp [Machine.mutexUnlock, Machine.goto, Function.update_of_ne hut, hothers u hut]
  · intro u
    by_cases hut : u = t
    · subst hut
      simpa [Machine.mutexUnlock, Machine.goto] using facts_of_outside hout
    · simpa [Machine.mutexUnlock, Machine.goto, Function.update_of_ne hut] using h.facts u

/-- `queue_size += d`. -/
theorem addSize (h : m.Inv l) (ht : (m.pc t).inRegion = true) (d : Int)
    (hin : pc.inRegion = true) (facts : ∀ q l, Facts q l pc) : (m.addSize t d pc).Inv l :=
  h.inside ht rfl rfl hin ⟨h.holds.chain, h.holds.fresh⟩ h.conserved (facts _ _)

/-- `job_queue_head->next` is the first job. -/
theorem getWork (h : m.Inv l) :
    P6.getWork m.queue m.queue.jobQueueHead = some l.head? := by
  obtain ⟨-, c, hc, hrest⟩ := h.holds.chain
  cases l with
  | nil =>
    have hnext : c.next = none := hrest
    simp [P6.getWork, hc, hnext]
  | cons a l =>
    have hnext : c.next = some a := hrest.1
    simp [P6.getWork, hc, hnext]

/-- `job_queue_head->next = job->next`, where `job` is the first job if there is one. -/
theorem unlinkHead (h : m.Inv l) (ht : (m.pc t).inRegion = true) {pc : Nat → Pc}
    (hin : ∀ a, (pc a).inRegion = true)
    (facts : ∀ q l a, a ∉ q.jobQueueHead :: l → (∃ c, q.mem a = some c) → Facts q l (pc a)) :
    ∃ l', (m.unlinkHead t l.head? pc).Inv l' := by
  cases l with
  | nil => exact ⟨[], h.crash⟩
  | cons a l =>
    obtain ⟨cell, q, -, hcell, hset, hholds, hrel, ha⟩ := h.holds.unlink
    refine ⟨l, ?_⟩
    simp only [Machine.unlinkHead, List.head?_cons, hcell, Machine.store, hset]
    refine h.inside ht rfl rfl (hin a) hholds ?_ (facts _ _ _ ?_ ?_)
    · simpa [Machine.goto, Machine.withQueue] using h.conserved
    · simp only [Machine.withQueue, hrel.head]
      exact ha
    · obtain ⟨c, hc, -⟩ := Option.map_eq_some_iff.mp (hrel.keeps a cell hcell)
      exact ⟨c, hc⟩

/-- `start->next = new_job`, once the new job points at what follows `start`. -/
theorem addLink (h : m.Inv l) (ht : (m.pc t).inRegion = true) {start newJob : Nat}
    (hfacts : Facts m.queue l (.addLink start newJob)) :
    ∃ l', ({ m.store t start (some newJob) .addCount with
      accepted := m.accepted ++ [newJob] } : Machine numListener numWorkers).Inv l' := by
  obtain ⟨hnew, hstart, c, cn, hc, hcn, hnext⟩ := hfacts
  have hne : newJob ≠ start := fun e => hnew (e ▸ hstart)
  obtain ⟨front, back, hsplit⟩ := List.append_of_mem hstart
  have hnodup := h.holds.nodup
  rw [hsplit, List.nodup_append] at hnodup
  rw [hsplit] at hnew
  have hfront : start ∉ front := fun hmem => hnodup.2.2 start hmem start (by simp) rfl
  have hback : start ∉ back := (List.nodup_cons.mp hnodup.2.1).1
  have hchain := h.holds.chain
  rw [hsplit, show front ++ start :: back = (front ++ [start]) ++ back by simp] at hchain
  obtain ⟨r, hleft, hright⟩ := Seg.append_iff.mp hchain
  have hr : r = c.next := by
    obtain ⟨_, -, -, c', hc', hr⟩ := Seg.append_iff.mp hleft
    rw [hc] at hc'
    obtain rfl := Option.some.inj hc'
    exact hr.symm
  have hrel := relinks_putCell hc (some newJob)
  have hnewcell : (m.queue.putCell start { c with next := some newJob }).mem newJob = some cn := by
    rw [putCell_mem_ne _ _ hne, hcn]
  obtain ⟨l', hl'⟩ : ∃ l', front ++ [start] ++ newJob :: back = m.queue.jobQueueHead :: l' := by
    cases front with
    | nil => exact ⟨newJob :: back, by simp_all⟩
    | cons b front => exact ⟨front ++ [start] ++ newJob :: back, by simp_all⟩
  refine ⟨l', ?_⟩
  simp only [Machine.store, setNext_eq_some hc]
  refine h.inside ht rfl rfl rfl ⟨?_, ?_⟩ ?_ trivial
  · -- the stretch up to `start` now leads to the new job, and the new job to the rest
    have hchain' : Seg Job.next (m.queue.putCell start { c with next := some newJob }).mem
        (some m.queue.jobQueueHead) (front ++ [start] ++ newJob :: back) none := by
      refine Seg.append_iff.mpr ⟨some newJob, Seg.redirect _ hfront hleft, rfl, cn, hnewcell, ?_⟩
      rw [hnext, ← hr]
      exact seg_putCell _ hback hright
    rw [hl'] at hchain'
    exact hchain'
  · intro a ha
    exact hrel.fresh (h.holds.fresh a ha)
  · have hperm : l'.Perm (newJob :: l) := by
      have hwhole : (m.queue.jobQueueHead :: l').Perm (newJob :: (m.queue.jobQueueHead :: l)) := by
        rw [← hl', hsplit]
        have hmiddle : (front ++ [start] ++ newJob :: back).Perm
            (newJob :: (front ++ [start] ++ back)) := List.perm_middle
        simpa using hmiddle
      exact (List.perm_cons _).mp (hwhole.trans (List.Perm.swap _ _ _))
    have hlast : (l ++ [newJob]).Perm l' := (List.perm_append_singleton newJob l).trans hperm.symm
    refine (h.conserved.append_right [newJob]).trans ?_
    rw [List.append_assoc]
    exact hlast.append_left m.removed

/-- A statement of `add_work` before its link: the walk stays in the list, and the new job
stays out of it. -/
theorem addWalk (h : m.Inv l) {start newJob : Nat} {maxQueueSize : Int}
    (hpc : m.pc t = .addWalk start newJob) (hm : m.exec t maxQueueSize = some m') :
    ∃ l', m'.Inv l' := by
  have ht : (m.pc t).inRegion = true := by rw [hpc]; rfl
  have hfacts := h.facts t
  rw [hpc] at hfacts
  obtain ⟨hstart, hnew, cn, hcn, hcnext⟩ := hfacts
  obtain ⟨c, hc⟩ := h.holds.chain.cell_of_mem hstart
  simp only [Machine.exec, hpc, hc, hcn] at hm
  cases hnext : c.next with
  | none =>
    simp only [hnext, Option.some.injEq] at hm
    subst hm
    exact ⟨l, h.goto (by rw [hpc]; rfl) ⟨hnew, hstart, c, cn, hc, hcn, by rw [hcnext, hnext]⟩⟩
  | some nx =>
    have hnx : nx ∈ m.queue.jobQueueHead :: l := by
      obtain ⟨front, back, hsplit⟩ := List.append_of_mem hstart
      have hchain := h.holds.chain
      rw [hsplit] at hchain ⊢
      obtain ⟨r, -, -, c', hc', hback⟩ := Seg.append_iff.mp hchain
      rw [hc] at hc'
      obtain rfl := Option.some.inj hc'
      rw [hnext] at hback
      cases back with
      | nil => cases hback
      | cons b back =>
        obtain rfl : nx = b := Option.some.inj hback.1
        simp
    obtain ⟨d, hd⟩ := h.holds.chain.cell_of_mem hnx
    simp only [hnext, hd] at hm
    split at hm
    · simp only [Option.some.injEq] at hm
      subst hm
      exact ⟨l, h.goto (by rw [hpc]; rfl) ⟨hstart, hnew, cn, hcn, hcnext⟩⟩
    · simp only [Option.some.injEq] at hm
      subst hm
      exact ⟨l, h.goto (by rw [hpc]; rfl) ⟨hnx, hnew, cn, hcn, hcnext⟩⟩

/-- `new_job->next = start->next`. -/
theorem addNext (h : m.Inv l) {start newJob : Nat} {maxQueueSize : Int}
    (hpc : m.pc t = .addNext start newJob) (hm : m.exec t maxQueueSize = some m') :
    ∃ l', m'.Inv l' := by
  have ht : (m.pc t).inRegion = true := by rw [hpc]; rfl
  have hfacts := h.facts t
  rw [hpc] at hfacts
  obtain ⟨hstart, hnew, cn, hcn, hcnext⟩ := hfacts
  obtain ⟨c, hc⟩ := h.holds.chain.cell_of_mem hstart
  have hne : start ≠ newJob := fun e => hnew (e ▸ hstart)
  simp only [Machine.exec, hpc, hc, Machine.store, setNext_eq_some hcn, Option.some.injEq] at hm
  subst hm
  have hrel := relinks_putCell hcn c.next
  refine ⟨l, h.inside ht rfl rfl rfl ⟨seg_putCell _ hnew h.holds.chain, ?_⟩ h.conserved
    ⟨hnew, hstart, c, { cn with next := c.next }, ?_, putCell_mem_self _ _ _, rfl⟩⟩
  · intro a ha
    exact hrel.fresh (h.holds.fresh a ha)
  · exact (putCell_mem_ne _ _ hne).trans hc

/-- `malloc` of the new job. -/
theorem addFull (h : m.Inv l) {r : Request} {maxQueueSize : Int}
    (hpc : m.pc t = .addFull r) (hm : m.exec t maxQueueSize = some m') :
    ∃ l', m'.Inv l' := by
  have ht : (m.pc t).inRegion = true := by rw [hpc]; rfl
  simp only [Machine.exec, hpc] at hm
  split at hm
  · cases hm
    exact ⟨l, h.goto (by rw [hpc]; rfl) trivial⟩
  · cases hm
    obtain ⟨hholds, -⟩ := h.holds.malloc (newJobOf r.buffer r.clientFd r.bytesRead)
    have hbrk : m.queue.brk ∉ m.queue.jobQueueHead :: l :=
      fun hmem => lt_irrefl _ (h.holds.lt_brk hmem)
    exact ⟨l, h.inside ht rfl rfl rfl hholds h.conserved
      ⟨hbrk, _, malloc_mem_self _ _, rfl⟩⟩

/-- Every statement keeps the invariant, if the stray unlock meets a free lock. -/
theorem exec (h : m.Inv l) {maxQueueSize : Int}
    (hstray : m.pc t = .strayUnlock → m.lock = none)
    (hm : m.exec t maxQueueSize = some m') : ∃ l', m'.Inv l' := by
  have hfacts := h.facts t
  cases hpc : m.pc t with
  | idle => simp [Machine.exec, hpc] at hm
  | signal => simp [Machine.exec, hpc] at hm
  | waiting => simp [Machine.exec, hpc] at hm
  | testEmpty =>
    simp only [Machine.exec, hpc, Option.some.injEq] at hm
    subst hm
    refine ⟨l, h.goto ?_ ?_⟩
    · rw [hpc]; split <;> rfl
    · split <;> trivial
  | strayUnlock =>
    simp only [Machine.exec, hpc, Option.some.injEq] at hm
    subst hm
    exact ⟨l, h.mutexUnlock (.inr (hstray hpc)) rfl⟩
  | takeLock =>
    simp only [Machine.exec, hpc] at hm
    exact ⟨l, h.mutexLock hm rfl trivial⟩
  | takeHead =>
    simp only [Machine.exec, hpc, h.getWork, Option.some.injEq] at hm
    subst hm
    exact ⟨l, h.goto (by rw [hpc]; rfl) rfl⟩
  | takeUnlink ret =>
    rw [hpc] at hfacts
    obtain rfl : ret = l.head? := hfacts
    simp only [Machine.exec, hpc, Option.some.injEq] at hm
    subst hm
    exact h.unlinkHead (by rw [hpc]; rfl) (fun _ => rfl) fun _ _ _ _ _ => trivial
  | takeCount =>
    simp only [Machine.exec, hpc, Option.some.injEq] at hm
    subst hm
    exact ⟨l, h.addSize (by rw [hpc]; rfl) _ rfl fun _ _ => trivial⟩
  | takeUnlock =>
    simp only [Machine.exec, hpc, Option.some.injEq] at hm
    subst hm
    exact ⟨l, h.mutexUnlock (.inl (by rw [hpc]; rfl)) rfl⟩
  | addLock r =>
    simp only [Machine.exec, hpc] at hm
    exact ⟨l, h.mutexLock hm rfl trivial⟩
  | addFull r => exact h.addFull hpc hm
  | addEmpty newJob =>
    rw [hpc] at hfacts
    obtain ⟨hnew, cn, hcn, hcnext⟩ := hfacts
    obtain ⟨-, c, hc, -⟩ := h.holds.chain
    simp only [Machine.exec, hpc, hc] at hm
    split at hm
    · rename_i hnext
      simp only [Option.some.injEq] at hm
      subst hm
      exact ⟨l, h.goto (by rw [hpc]; rfl)
        ⟨hnew, List.mem_cons_self, c, cn, hc, hcn, by rw [hcnext, hnext]⟩⟩
    · simp only [Option.some.injEq] at hm
      subst hm
      exact ⟨l, h.goto (by rw [hpc]; rfl) ⟨List.mem_cons_self, hnew, cn, hcn, hcnext⟩⟩
  | addWalk start newJob => exact h.addWalk hpc hm
  | addNext start newJob => exact h.addNext hpc hm
  | addLink start newJob =>
    rw [hpc] at hfacts
    simp only [Machine.exec, hpc, Option.some.injEq] at hm
    subst hm
    exact h.addLink (by rw [hpc]; rfl) hfacts
  | addCount =>
    simp only [Machine.exec, hpc, Option.some.injEq] at hm
    subst hm
    exact ⟨l, h.addSize (by rw [hpc]; rfl) _ rfl fun _ _ => trivial⟩
  | addUnlock =>
    simp only [Machine.exec, hpc, Option.some.injEq] at hm
    subst hm
    exact ⟨l, h.mutexUnlock (.inl (by rw [hpc]; rfl)) rfl⟩
  | fullUnlock =>
    simp only [Machine.exec, hpc, Option.some.injEq] at hm
    subst hm
    exact ⟨l, h.mutexUnlock (.inl (by rw [hpc]; rfl)) rfl⟩
  | lock =>
    simp only [Machine.exec, hpc] at hm
    exact ⟨l, h.mutexLock hm rfl trivial⟩
  | test =>
    simp only [Machine.exec, hpc] at hm
    split at hm
    · simp only [Option.some.injEq] at hm
      subst hm
      exact ⟨l, h.mutexUnlock (.inl (by rw [hpc]; rfl)) rfl⟩
    · simp only [Option.some.injEq] at hm
      subst hm
      exact ⟨l, h.goto (by rw [hpc]; rfl) trivial⟩
  | woken =>
    simp only [Machine.exec, hpc] at hm
    exact ⟨l, h.mutexLock hm rfl trivial⟩
  | getWork =>
    simp only [Machine.exec, hpc, h.getWork, Option.some.injEq] at hm
    subst hm
    exact ⟨l, h.goto (by rw [hpc]; rfl) rfl⟩
  | unlink job =>
    rw [hpc] at hfacts
    obtain rfl : job = l.head? := hfacts
    simp only [Machine.exec, hpc, Option.some.injEq] at hm
    subst hm
    exact h.unlinkHead (by rw [hpc]; rfl) (fun _ => rfl) fun _ _ _ ha hc => ⟨ha, hc⟩
  | clearNext job =>
    rw [hpc] at hfacts
    obtain ⟨hjob, c, hc⟩ := hfacts
    simp only [Machine.exec, hpc, Machine.store, setNext_eq_some hc, Option.some.injEq] at hm
    subst hm
    have hrel := relinks_putCell hc none
    exact ⟨l, h.inside (by rw [hpc]; rfl) rfl rfl rfl
      ⟨seg_putCell _ hjob h.holds.chain, fun a ha => hrel.fresh (h.holds.fresh a ha)⟩
      h.conserved trivial⟩
  | count job =>
    simp only [Machine.exec, hpc, Option.some.injEq] at hm
    subst hm
    exact ⟨l, h.addSize (by rw [hpc]; rfl) _ rfl fun _ _ => trivial⟩
  | unlock job =>
    simp only [Machine.exec, hpc, Option.some.injEq] at hm
    subst hm
    exact ⟨l, h.mutexUnlock (.inl (by rw [hpc]; rfl)) rfl⟩
  | serving job =>
    simp only [Machine.exec, hpc, Option.some.injEq] at hm
    subst hm
    exact ⟨l, h.goto (by rw [hpc]; rfl) trivial⟩

/-- Waking waiting workers. -/
theorem wake (h : m.Inv l) {ws : List (Fin numWorkers)}
    (hws : ∀ w ∈ ws, m.pc (.inr w) = .waiting) : (m.wake ws).Inv l := by
  have hpc : ∀ u, (m.wake ws).pc u = m.pc u ∨
      (m.pc u = .waiting ∧ (m.wake ws).pc u = .woken) := by
    rintro (i | w)
    · exact .inl rfl
    · by_cases hw : w ∈ ws
      · exact .inr ⟨hws w hw, by simp [Machine.wake, hw]⟩
      · exact .inl (by simp [Machine.wake, hw])
  refine ⟨?_, h.holds, h.conserved, ?_⟩
  · intro u
    have hu := h.lock_iff u
    rcases hpc u with heq | ⟨hwait, hwoken⟩
    · rw [heq]
      exact hu
    · rw [hwait] at hu
      rw [hwoken]
      exact hu
  · intro u
    rcases hpc u with heq | ⟨-, hwoken⟩
    · rw [heq]
      exact h.facts u
    · rw [hwoken]
      trivial

end Inv

/-- A thread that is about to unlock without having locked does so only while no thread
has the lock. -/
def StrayMeetsFree (m : Machine numListener numWorkers) : Move numListener numWorkers → Prop
  | .run t => m.pc t = .strayUnlock → m.lock = none
  | _ => True

instance (m : Machine numListener numWorkers) (e : Move numListener numWorkers) :
    Decidable (m.StrayMeetsFree e) := by
  cases e <;> unfold StrayMeetsFree <;> infer_instance

variable {m} {m' : Machine numListener numWorkers}

theorem inv_init (left : Job) : (init left : Machine numListener numWorkers).Inv [] where
  lock_iff u := by cases u <;> simp [init, Pc.inRegion]
  holds := createQueue_holds left
  conserved := List.Perm.nil
  facts u := by cases u <;> trivial

/-- One move keeps the invariant, if it meets the condition. -/
theorem next_inv {l : List Nat} {maxQueueSize : Int} {e : Move numListener numWorkers}
    (h : m.Inv l) (hstray : m.StrayMeetsFree e) (hm : next maxQueueSize m e = some m') :
    ∃ l', m'.Inv l' := by
  cases e with
  | accept i r =>
    simp only [next, Option.ite_none_right_eq_some, Option.some.injEq] at hm
    obtain ⟨⟨-, hpc⟩, rfl⟩ := hm
    refine ⟨l, h.goto ?_ ?_⟩
    · rw [hpc]; split <;> rfl
    · split <;> trivial
  | signal i ws =>
    simp only [next, Option.ite_none_right_eq_some, Option.some.injEq] at hm
    obtain ⟨⟨-, hpc, hws, -⟩, rfl⟩ := hm
    refine ⟨l, (h.wake hws).goto ?_ trivial⟩
    have hsame : (m.wake ws).pc (.inl i) = m.pc (.inl i) := rfl
    rw [hsame, hpc]
    rfl
  | wakeup w =>
    simp only [next, Option.ite_none_right_eq_some, Option.some.injEq] at hm
    obtain ⟨⟨-, hpc⟩, rfl⟩ := hm
    exact ⟨l, h.goto (by rw [hpc]; rfl) trivial⟩
  | run t =>
    simp only [next, Option.ite_none_right_eq_some] at hm
    exact h.exec hstray hm.2

theorem Inv.exclusive {l : List Nat} (h : m.Inv l) : m.Exclusive := by
  intro t u ht hu
  rw [h.lock_iff] at ht hu
  rw [ht] at hu
  exact Option.some.inj hu

/-- In every run in which the unlock of line 258 is only called while no thread has the
lock: in every state reached at most one thread is between its lock (or its return from
`pthread_cond_wait`) and its matching unlock, and every job ever linked into the list has
been unlinked or is in the list, once. -/
theorem lock_discipline_of_strayMeetsFree {maxQueueSize : Int} (left : Job)
    {es : List (Move numListener numWorkers)}
    (hrun : Run (guarded StrayMeetsFree (stepOf (next maxQueueSize)))
      (init left) es m) : m.Exclusive ∧ m.Conserved := by
  have hinv : ∃ l, m.Inv l := by
    refine hrun.invariant (fun m : Machine numListener numWorkers => ∃ l, m.Inv l)
      ⟨[], inv_init left⟩ ?_
    rintro t e u ⟨l, h⟩ ⟨hstray, hstep⟩
    exact next_inv h hstray hstep
  obtain ⟨l, h⟩ := hinv
  exact ⟨h.exclusive, l, h.holds, h.conserved⟩

/-- The lock discipline at two listeners and a worker: one listener has queued a job, and
the other answers a `GetJob` request for the empty queue before that. -/
theorem lock_discipline_of_strayMeetsFree_answered :
    ∃ m : Machine 2 1, Run (guarded StrayMeetsFree (stepOf (next 100))) (init emptyCell)
      [.accept 1 getJobRequest, .run (.inl 1), .run (.inl 1),
        .accept 0 fileRequest, .run (.inl 0), .run (.inl 0), .run (.inl 0),
        .run (.inl 0)] m ∧ m.Exclusive ∧ m.Conserved := by
  have htrace : ∃ m : Machine 2 1,
      runOf (fun m e => if m.StrayMeetsFree e then next 100 m e else none)
        (init emptyCell)
        [.accept 1 getJobRequest, .run (.inl 1), .run (.inl 1),
          .accept 0 fileRequest, .run (.inl 0), .run (.inl 0), .run (.inl 0),
          .run (.inl 0)] = some m := ⟨_, rfl⟩
  obtain ⟨m, hm⟩ := htrace
  have hrun := run_guarded_of_runOf hm
  exact ⟨m, hrun, lock_discipline_of_strayMeetsFree emptyCell hrun⟩

/-- Listener 0 is about to link its job behind the dummy cell when listener 2 finds the
queue empty and unlocks; listener 1 then takes the lock. -/
def strayTrace : List (Move 3 1) :=
  [.accept 0 fileRequest, .run (.inl 0), .run (.inl 0), .run (.inl 0),
    .accept 2 getJobRequest, .run (.inl 2), .run (.inl 2),
    .accept 1 fileRequest, .run (.inl 1)]

/-- Listener 1 links its job, and listener 0 then overwrites the link. -/
def droppedTrace : List (Move 3 1) :=
  strayTrace ++ [.run (.inl 1), .run (.inl 1), .run (.inl 1), .run (.inl 0)]

/-- Two threads can be in their regions at once, and an accepted job can be lost. -/
theorem lock_discipline_fails_on_strayTrace :
    (¬ ∀ (numListener numWorkers : Nat) (maxQueueSize : Int) (left : Job)
      (es : List (Move numListener numWorkers)) (m : Machine numListener numWorkers),
      Run (stepOf (next maxQueueSize)) (init left) es m → m.Exclusive) ∧
    ¬ ∀ (numListener numWorkers : Nat) (maxQueueSize : Int) (left : Job)
      (es : List (Move numListener numWorkers)) (m : Machine numListener numWorkers),
      Run (stepOf (next maxQueueSize)) (init left) es m → m.Conserved := by
  constructor
  · intro hall
    have htrace : ∃ m : Machine 3 1, runOf (next 100) (init emptyCell) strayTrace = some m ∧
        (m.pc (.inl 0)).inRegion = true ∧ (m.pc (.inl 1)).inRegion = true :=
      ⟨_, rfl, rfl, rfl⟩
    obtain ⟨m, hm, h0, h1⟩ := htrace
    have hboth := hall 3 1 100 emptyCell strayTrace m (run_of_runOf hm) _ _ h0 h1
    exact absurd hboth (by decide)
  · intro hall
    -- both jobs were linked, and the list behind the dummy cell at 0 is the job at 1
    have htrace : ∃ m : Machine 3 1, runOf (next 100) (init emptyCell) droppedTrace = some m ∧
        m.accepted = [2, 1] ∧ m.removed = [] ∧ m.queue.jobQueueHead = 0 ∧
        Seg Job.next m.queue.mem (some 0) [0, 1] none :=
      ⟨_, rfl, rfl, rfl, rfl, rfl, _, rfl, rfl, _, rfl, rfl⟩
    obtain ⟨m, hm, haccepted, hremoved, hhead, hchain⟩ := htrace
    obtain ⟨l, hl, hperm⟩ := hall 3 1 100 emptyCell droppedTrace m (run_of_runOf hm)
    have hlist := hl.chain
    rw [hhead] at hlist
    have hlen := hperm.length_eq
    rw [haccepted, hremoved, (List.cons.inj (hlist.unique hchain)).2] at hlen
    cases hlen

end Machine

end Cs537.P6
