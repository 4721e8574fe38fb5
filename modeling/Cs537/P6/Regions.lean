import Cs537.P6.Lock
import Cs537.P6.ServerRuns

/-!
# Regions as single steps

While the stray unlock only meets a free lock, what the threads do statement by statement is a run
of `Server`, where every stretch of code between a lock and its unlock is one step. The step of a
region is taken when the thread changes `queue_size`, or finds that it will not: this is the one
thing that other threads read without the lock.
-/

namespace Cs537.P6

open Cs537.Lib Queue

/-- `add_work` accepts a request on the list `q` and leaves `q'`. -/
def Adds (maxQueueSize : Int) (r : Request) (q q' : Queue) : Prop :=
  addWork q q.jobQueueHead r.buffer maxQueueSize r.clientFd r.bytesRead = some (q', true)

/-- Where a listener is in `Server`, and how far its region has come: the list was `q` when it took
the lock, and is `q'` now. -/
inductive ListenerAt (maxQueueSize : Int) (q q' : Queue) : Pc → ListenerPc → Prop where
  | idle : ListenerAt maxQueueSize q q' .idle .idle
  | testEmpty : ListenerAt maxQueueSize q q' .testEmpty .testEmpty
  | strayUnlock : ListenerAt maxQueueSize q q' .strayUnlock .idle
  | takeLock : ListenerAt maxQueueSize q q' .takeLock .takeJob
  | takeHead : q' = q → ListenerAt maxQueueSize q q' .takeHead .takeJob
  | takeUnlink {ret : Option Nat} : q' = q → getWork q q.jobQueueHead = some ret →
      ListenerAt maxQueueSize q q' (.takeUnlink ret) .takeJob
  | takeCount {job : Nat} : getWorkNonblocking q q.jobQueueHead =
        some ({ q' with queueSize := q'.queueSize - 1 }, job) →
      ListenerAt maxQueueSize q q' .takeCount .takeJob
  | takeUnlock : q' = q → ListenerAt maxQueueSize q q' .takeUnlock .idle
  | addLock {r : Request} : ListenerAt maxQueueSize q q' (.addLock r) (.addWork r)
  | addFull {r : Request} : q' = q → ListenerAt maxQueueSize q q' (.addFull r) (.addWork r)
  | addEmpty {r : Request} {newJob fuel : Nat} {added : Queue} : Adds maxQueueSize r q added →
      addWorkLoop fuel q' q'.jobQueueHead newJob = some added →
      ListenerAt maxQueueSize q q' (.addEmpty newJob) (.addWork r)
  | addWalk {r : Request} {start newJob fuel : Nat} {added : Queue} : Adds maxQueueSize r q added →
      addWorkLoop fuel q' start newJob = some added →
      ListenerAt maxQueueSize q q' (.addWalk start newJob) (.addWork r)
  | addNext {r : Request} {start newJob : Nat} {cell : Job} {added : Queue} :
      Adds maxQueueSize r q added → q'.mem start = some cell →
      ((q'.setNext newJob cell.next).bind fun q => q.setNext start (some newJob)) = some added →
      ListenerAt maxQueueSize q q' (.addNext start newJob) (.addWork r)
  | addLink {r : Request} {start newJob : Nat} {added : Queue} : Adds maxQueueSize r q added →
      q'.setNext start (some newJob) = some added →
      ListenerAt maxQueueSize q q' (.addLink start newJob) (.addWork r)
  | addCount {r : Request} : Adds maxQueueSize r q q' →
      ListenerAt maxQueueSize q q' .addCount (.addWork r)
  | addUnlock : q' = q → ListenerAt maxQueueSize q q' .addUnlock .signal
  | fullUnlock : q' = q → ListenerAt maxQueueSize q q' .fullUnlock .idle
  | signal : ListenerAt maxQueueSize q q' .signal .signal

/-- A worker takes the first job: it has found jobs with the lock held, or has waited. -/
def Takes (q : Queue) (pc : WorkerPc) : Prop := pc = .start ∧ q.queueSize ≠ 0 ∨ pc = .woken

/-- The same for a worker. -/
inductive WorkerAt (q q' : Queue) : Pc → WorkerPc → Prop where
  | lock : WorkerAt q q' .lock .start
  | test : q' = q → WorkerAt q q' .test .start
  | waiting : WorkerAt q q' .waiting .waiting
  | woken : WorkerAt q q' .woken .woken
  | getWork {pc : WorkerPc} : q' = q → Takes q pc → WorkerAt q q' .getWork pc
  | unlink {pc : WorkerPc} {job : Option Nat} : q' = q → Takes q pc →
      P6.getWork q q.jobQueueHead = some job → WorkerAt q q' (.unlink job) pc
  | clearNext {pc : WorkerPc} {job : Nat} : Takes q pc → workerGetWork q =
        (q'.setNext job none).map (fun q => ({ q with queueSize := q.queueSize - 1 }, job)) →
      WorkerAt q q' (.clearNext job) pc
  | count {pc : WorkerPc} {job : Nat} : Takes q pc →
      workerGetWork q = some ({ q' with queueSize := q'.queueSize - 1 }, job) →
      WorkerAt q q' (.count job) pc
  | unlock {job : Nat} : q' = q → WorkerAt q q' (.unlock job) (.serving job)
  | serving {job : Nat} : WorkerAt q q' (.serving job) (.serving job)

/-- Outside its region a thread knows nothing of the list. -/
theorem ListenerAt.outside {maxQueueSize : Int} {q q' : Queue} {pc : Pc} {a : ListenerPc}
    (h : ListenerAt maxQueueSize q q' pc a) (hout : pc.inRegion = false) (p p' : Queue) :
    ListenerAt maxQueueSize p p' pc a := by
  cases h <;> first | (cases hout; done) | constructor

theorem WorkerAt.outside {q q' : Queue} {pc : Pc} {a : WorkerPc} (h : WorkerAt q q' pc a)
    (hout : pc.inRegion = false) (p p' : Queue) : WorkerAt p p' pc a := by
  cases h <;> first | (cases hout; done) | constructor

theorem WorkerAt.waiting_iff {q q' : Queue} {pc : Pc} {a : WorkerPc} (h : WorkerAt q q' pc a) :
    pc = .waiting ↔ a = .waiting := by
  cases h with
  | getWork _ htake => rcases htake with ⟨rfl, -⟩ | rfl <;> simp
  | unlink _ htake _ => rcases htake with ⟨rfl, -⟩ | rfl <;> simp
  | clearNext htake _ => rcases htake with ⟨rfl, -⟩ | rfl <;> simp
  | count htake _ => rcases htake with ⟨rfl, -⟩ | rfl <;> simp
  | _ => simp

namespace Machine

variable {numListener numWorkers : Nat} {m m' : Machine numListener numWorkers}
  {s s' : Server numListener numWorkers} {maxQueueSize : Int} {l : List Nat} {pc : Pc}

/-- `s` is the state with the regions as single steps: the list is the same while nobody has the
lock, and `queue_size` always. -/
structure Refines (maxQueueSize : Int) (m : Machine numListener numWorkers)
    (s : Server numListener numWorkers) : Prop where
  live : m.crashed = false
  alive : s.crashed = false
  size : m.queue.queueSize = s.queue.queueSize
  free : m.lock = none → m.queue = s.queue
  listener : ∀ i, ListenerAt maxQueueSize s.queue m.queue (m.pc (.inl i)) (s.listeners i)
  worker : ∀ w, WorkerAt s.queue m.queue (m.pc (.inr w)) (s.workers w)

/-- The process is the same in both, or it has died in both. -/
def Follows (maxQueueSize : Int) (m : Machine numListener numWorkers)
    (s : Server numListener numWorkers) : Prop :=
  m.Refines maxQueueSize s ∨ m.crashed = true ∧ s.crashed = true

theorem refines_init (left : Job) :
    (init left : Machine numListener numWorkers).Refines maxQueueSize (.init left) where
  live := rfl
  alive := rfl
  size := rfl
  free _ := rfl
  listener _ := .idle
  worker _ := .lock

namespace Refines

/-- A move of a listener that meets at most one step of it. The other threads are outside their
regions, or the list stays as it is. -/
theorem of_listener {i : Fin numListener} {a : ListenerPc} (h : m.Refines maxQueueSize s)
    (hothers : (∀ u, u ≠ .inl i → (m.pc u).inRegion = false) ∨
      m'.queue = m.queue ∧ s'.queue = s.queue)
    (hlive : m'.crashed = m.crashed) (halive : s'.crashed = s.crashed)
    (hpc : m'.pc = Function.update m.pc (.inl i) pc)
    (hlisteners : s'.listeners = Function.update s.listeners i a)
    (hworkers : s'.workers = s.workers) (size : m'.queue.queueSize = s'.queue.queueSize)
    (free : m'.lock = none → m'.queue = s'.queue)
    (hat : ListenerAt maxQueueSize s'.queue m'.queue pc a) : m'.Refines maxQueueSize s' where
  live := hlive.trans h.live
  alive := halive.trans h.alive
  size := size
  free := free
  listener j := by
    rw [hpc, hlisteners]
    by_cases hj : j = i
    · subst hj
      rw [Function.update_self, Function.update_self]
      exact hat
    · have hne : (Sum.inl j : Thread numListener numWorkers) ≠ .inl i := by simpa using hj
      rw [Function.update_of_ne hne, Function.update_of_ne hj]
      rcases hothers with hout | ⟨hq, hs⟩
      · exact (h.listener j).outside (hout _ hne) _ _
      · rw [hq, hs]
        exact h.listener j
  worker w := by
    have hne : (Sum.inr w : Thread numListener numWorkers) ≠ .inl i := by simp
    rw [hpc, hworkers, Function.update_of_ne hne]
    rcases hothers with hout | ⟨hq, hs⟩
    · exact (h.worker w).outside (hout _ hne) _ _
    · rw [hq, hs]
      exact h.worker w

/-- The same for a worker. -/
theorem of_worker {w : Fin numWorkers} {a : WorkerPc} (h : m.Refines maxQueueSize s)
    (hothers : (∀ u, u ≠ .inr w → (m.pc u).inRegion = false) ∨
      m'.queue = m.queue ∧ s'.queue = s.queue)
    (hlive : m'.crashed = m.crashed) (halive : s'.crashed = s.crashed)
    (hpc : m'.pc = Function.update m.pc (.inr w) pc)
    (hlisteners : s'.listeners = s.listeners)
    (hworkers : s'.workers = Function.update s.workers w a)
    (size : m'.queue.queueSize = s'.queue.queueSize)
    (free : m'.lock = none → m'.queue = s'.queue)
    (hat : WorkerAt s'.queue m'.queue pc a) : m'.Refines maxQueueSize s' where
  live := hlive.trans h.live
  alive := halive.trans h.alive
  size := size
  free := free
  listener i := by
    have hne : (Sum.inl i : Thread numListener numWorkers) ≠ .inr w := by simp
    rw [hpc, hlisteners, Function.update_of_ne hne]
    rcases hothers with hout | ⟨hq, hs⟩
    · exact (h.listener i).outside (hout _ hne) _ _
    · rw [hq, hs]
      exact h.listener i
  worker v := by
    rw [hpc, hworkers]
    by_cases hv : v = w
    · subst hv
      rw [Function.update_self, Function.update_self]
      exact hat
    · have hne : (Sum.inr v : Thread numListener numWorkers) ≠ .inr w := by simpa using hv
      rw [Function.update_of_ne hne, Function.update_of_ne hv]
      rcases hothers with hout | ⟨hq, hs⟩
      · exact (h.worker v).outside (hout _ hne) _ _
      · rw [hq, hs]
        exact h.worker v

end Refines

/-! ## The statements -/

/-- The server can answer a move with at most one step. -/
def Answers (maxQueueSize : Int) (m' : Machine numListener numWorkers)
    (s : Server numListener numWorkers) : Prop :=
  m'.Refines maxQueueSize s ∨
    ∃ e s', Server.next maxQueueSize s e = some s' ∧ m'.Follows maxQueueSize s'

theorem Answers.step {e : Event numListener numWorkers}
    (hstep : Server.next maxQueueSize s e = some s') (h : m'.Refines maxQueueSize s') :
    m'.Answers maxQueueSize s := .inr ⟨e, s', hstep, .inl h⟩

theorem Answers.crash {e : Event numListener numWorkers}
    (hstep : Server.next maxQueueSize s e = some s') (hcrash : s'.crashed = true) :
    m.crash.Answers maxQueueSize s := .inr ⟨e, s', hstep, .inr ⟨rfl, hcrash⟩⟩

theorem setNext_size {q q' : Queue} {p : Nat} {n : Option Nat} (h : q.setNext p n = some q') :
    q'.queueSize = q.queueSize := by
  obtain ⟨c, -, rfl⟩ := Option.map_eq_some_iff.mp h
  rfl

/-- The regions of a listener. -/
theorem Refines.run_listener (h : m.Refines maxQueueSize s) (hinv : m.Inv l)
    {i : Fin numListener} (hstray : m.pc (.inl i) = .strayUnlock → m.lock = none)
    (hm : m.exec (.inl i) maxQueueSize = some m') : m'.Answers maxQueueSize s := by
  have hat := h.listener i
  have hfacts := hinv.facts (.inl i)
  have hlock : (m.pc (.inl i)).inRegion = true → m.lock ≠ none := by
    intro hin
    rw [(hinv.lock_iff _).mp hin]
    simp
  have hothers : (m.pc (.inl i)).inRegion = true →
      ∀ u, u ≠ .inl i → (m.pc u).inRegion = false := fun hin u hu => hinv.outside hin hu
  generalize hpc : m.pc (.inl i) = pc at hat
  generalize ha : s.listeners i = a at hat
  rw [hpc] at hlock hothers hfacts
  have hsame : s.listeners = Function.update s.listeners i a := by
    rw [← ha, Function.update_eq_self]
  have htakeJob : a = .takeJob →
      Server.next maxQueueSize s (.takeJob i) = some (s.takeJob i) := by
    intro htake
    simp [Server.next, h.alive, ha, htake]
  have haddWork : ∀ r, a = .addWork r →
      Server.next maxQueueSize s (.addWork i) = some (s.addWork maxQueueSize i r) := by
    intro r hadd
    simp [Server.next, h.alive, ha, hadd]
  cases hat with
  | idle => simp [exec, hpc] at hm
  | signal => simp [exec, hpc] at hm
  | testEmpty =>
    simp only [exec, hpc, Option.some.injEq, h.size] at hm
    subst hm
    have hnext : Server.next maxQueueSize s (.testEmpty i) = some (s.testEmpty i) := by
      simp [Server.next, h.alive, ha]
    apply Answers.step hnext
    unfold Server.testEmpty
    by_cases hzero : s.queue.queueSize = 0
    · rw [if_pos hzero, if_pos hzero]
      exact h.of_listener (.inr ⟨rfl, rfl⟩) rfl rfl rfl rfl rfl h.size h.free .strayUnlock
    · rw [if_neg hzero, if_neg hzero]
      exact h.of_listener (.inr ⟨rfl, rfl⟩) rfl rfl rfl rfl rfl h.size h.free .takeLock
  | strayUnlock =>
    simp only [exec, hpc, Option.some.injEq] at hm
    subst hm
    exact .inl (h.of_listener (.inr ⟨rfl, rfl⟩) rfl rfl rfl hsame rfl h.size
      (fun _ => h.free (hstray hpc)) .idle)
  | takeLock =>
    simp only [exec, hpc, mutexLock, Option.ite_none_right_eq_some, Option.some.injEq] at hm
    obtain ⟨hfree, rfl⟩ := hm
    exact .inl (h.of_listener (.inr ⟨rfl, rfl⟩) rfl rfl rfl hsame rfl h.size
      (fun hnone => absurd hnone (Option.some_ne_none _))
      (.takeHead (h.free hfree)))
  | takeHead heq =>
    simp only [exec, hpc, hinv.getWork, Option.some.injEq] at hm
    subst hm
    refine .inl (h.of_listener (.inr ⟨rfl, rfl⟩) rfl rfl rfl hsame rfl h.size
      (fun hnone => absurd hnone (hlock rfl)) (.takeUnlink heq ?_))
    rw [← heq]
    exact hinv.getWork
  | takeUnlink heq hget =>
    simp only [exec, hpc, Option.some.injEq] at hm
    subst hm
    obtain rfl := hfacts
    cases l with
    | nil =>
      refine Answers.crash (htakeJob rfl) ?_
      have hnone := hinv.holds.removal_undefined.1
      rw [heq] at hnone
      simp only [Server.takeJob, hnone]
    | cons a l =>
      obtain ⟨cell, q, hget', hcell, hset, -, hrel, -⟩ := hinv.holds.unlink
      have htake : getWorkNonblocking s.queue s.queue.jobQueueHead =
          some ({ q with queueSize := q.queueSize - 1 }, a) := by
        rw [← heq]
        simp [getWorkNonblocking, hget', hcell, hset]
      simp only [unlinkHead, List.head?_cons, hcell, store, hset]
      exact .inl (h.of_listener (.inl (hothers rfl)) rfl rfl rfl hsame rfl
        (hrel.size.trans h.size) (fun hnone => absurd hnone (hlock rfl)) (.takeCount htake))
  | takeCount htake =>
    simp only [exec, hpc, Option.some.injEq] at hm
    subst hm
    have hqueue : (m.addSize (.inl i) (-1) .takeUnlock).queue =
        { m.queue with queueSize := m.queue.queueSize - 1 } := by
      rw [Int.sub_eq_add_neg]
      rfl
    apply Answers.step (htakeJob rfl)
    simp only [Server.takeJob, htake]
    exact h.of_listener (.inl (hothers rfl)) rfl rfl rfl rfl rfl (by rw [hqueue])
      (fun _ => hqueue) (.takeUnlock hqueue)
  | takeUnlock heq =>
    simp only [exec, hpc, Option.some.injEq] at hm
    subst hm
    exact .inl (h.of_listener (.inr ⟨rfl, rfl⟩) rfl rfl rfl hsame rfl h.size (fun _ => heq) .idle)
  | addLock =>
    simp only [exec, hpc, mutexLock, Option.ite_none_right_eq_some, Option.some.injEq] at hm
    obtain ⟨hfree, rfl⟩ := hm
    exact .inl (h.of_listener (.inr ⟨rfl, rfl⟩) rfl rfl rfl hsame rfl h.size
      (fun hnone => absurd hnone (Option.some_ne_none _))
      (.addFull (h.free hfree)))
  | @addFull r heq =>
    simp only [exec, hpc] at hm
    split at hm
    · rename_i hfull
      cases hm
      have hadd : addWork s.queue s.queue.jobQueueHead r.buffer maxQueueSize r.clientFd
          r.bytesRead = some (s.queue, false) := by
        rw [heq] at hfull
        simp [addWork, addJob, hfull]
      apply Answers.step (haddWork r rfl)
      simp only [Server.addWork, hadd]
      exact h.of_listener (.inr ⟨rfl, rfl⟩) rfl rfl rfl rfl rfl h.size
        (fun hnone => absurd hnone (hlock rfl)) (.fullUnlock heq)
    · rename_i hroom
      cases hm
      obtain ⟨added, hadded, -⟩ :=
        hinv.holds.addJob (newJobOf r.buffer r.clientFd r.bytesRead) hroom
      have hwhole := hadded
      rw [addJob_eq m.queue _ _ hroom] at hwhole
      obtain ⟨q, hloop, hq⟩ := Option.map_eq_some_iff.mp hwhole
      obtain rfl : q = added := (Prod.mk.inj hq).1
      refine .inl (h.of_listener (.inl (hothers rfl)) rfl rfl rfl hsame rfl h.size
        (fun hnone => absurd hnone (hlock rfl)) (.addEmpty ?_ hloop))
      rw [Adds, ← heq]
      exact hadded
  | @addEmpty r newJob fuel added hadds hloop =>
    cases fuel with
    | zero => cases hloop
    | succ fuel =>
      have hunfold := hloop
      rw [addWorkLoop] at hunfold
      obtain ⟨cell, hcell, hrest⟩ := Option.bind_eq_some_iff.mp hunfold
      simp only [exec, hpc, hcell] at hm
      by_cases hnext : cell.next = none
      · rw [if_pos hnext] at hm
        cases hm
        simp only [hnext] at hrest
        exact .inl (h.of_listener (.inl (hothers rfl)) rfl rfl rfl hsame rfl h.size
          (fun hnone => absurd hnone (hlock rfl)) (.addLink hadds hrest))
      · rw [if_neg hnext] at hm
        cases hm
        exact .inl (h.of_listener (.inl (hothers rfl)) rfl rfl rfl hsame rfl h.size
          (fun hnone => absurd hnone (hlock rfl)) (.addWalk hadds hloop))
  | @addWalk r start newJob fuel added hadds hloop =>
    obtain ⟨-, -, new, hnew, -⟩ := hfacts
    cases fuel with
    | zero => cases hloop
    | succ fuel =>
      rw [addWorkLoop] at hloop
      obtain ⟨cell, hcell, hrest⟩ := Option.bind_eq_some_iff.mp hloop
      simp only [exec, hpc, hcell, hnew] at hm
      cases hnext : cell.next with
      | none =>
        simp only [hnext, Option.some.injEq] at hm hrest
        subst hm
        exact .inl (h.of_listener (.inl (hothers rfl)) rfl rfl rfl hsame rfl h.size
          (fun hnone => absurd hnone (hlock rfl)) (.addLink hadds hrest))
      | some nx =>
        simp only [hnext] at hm hrest
        obtain ⟨nextCell, hnextCell, hrest⟩ := Option.bind_eq_some_iff.mp hrest
        obtain ⟨newCell, hnewCell, hrest⟩ := Option.bind_eq_some_iff.mp hrest
        obtain rfl : new = newCell := Option.some.inj (hnew.symm.trans hnewCell)
        simp only [hnextCell] at hm
        by_cases hlt : nextCell.priority < new.priority
        · rw [if_pos hlt] at hm hrest
          cases hm
          refine .inl (h.of_listener (.inl (hothers rfl)) rfl rfl rfl hsame rfl h.size
            (fun hnone => absurd hnone (hlock rfl)) (.addNext hadds hcell ?_))
          rw [hnext]
          exact hrest
        · rw [if_neg hlt] at hm hrest
          cases hm
          exact .inl (h.of_listener (.inl (hothers rfl)) rfl rfl rfl hsame rfl h.size
            (fun hnone => absurd hnone (hlock rfl)) (.addWalk hadds hrest))
  | @addNext r start newJob cell added hadds hcell hset =>
    obtain ⟨q, hq, hrest⟩ := Option.bind_eq_some_iff.mp hset
    have hsize : q.queueSize = m.queue.queueSize := setNext_size hq
    simp only [exec, hpc, hcell, store, hq, Option.some.injEq] at hm
    subst hm
    exact .inl (h.of_listener (.inl (hothers rfl)) rfl rfl rfl hsame rfl (hsize.trans h.size)
      (fun hnone => absurd hnone (hlock rfl)) (.addLink hadds hrest))
  | @addLink r start newJob added hadds hset =>
    have hsize : added.queueSize = m.queue.queueSize := setNext_size hset
    simp only [exec, hpc, store, hset, Option.some.injEq] at hm
    subst hm
    exact .inl (h.of_listener (.inl (hothers rfl)) rfl rfl rfl hsame rfl (hsize.trans h.size)
      (fun hnone => absurd hnone (hlock rfl)) (.addCount hadds))
  | @addCount r hadds =>
    simp only [exec, hpc, Option.some.injEq] at hm
    subst hm
    have hadd : addWork s.queue s.queue.jobQueueHead r.buffer maxQueueSize r.clientFd
        r.bytesRead = some (m.queue, true) := hadds
    apply Answers.step (haddWork r rfl)
    simp only [Server.addWork, hadd]
    exact h.of_listener (.inl (hothers rfl)) rfl rfl rfl rfl rfl rfl (fun _ => rfl)
      (.addUnlock rfl)
  | addUnlock heq =>
    simp only [exec, hpc, Option.some.injEq] at hm
    subst hm
    exact .inl (h.of_listener (.inr ⟨rfl, rfl⟩) rfl rfl rfl hsame rfl h.size (fun _ => heq)
      .signal)
  | fullUnlock heq =>
    simp only [exec, hpc, Option.some.injEq] at hm
    subst hm
    exact .inl (h.of_listener (.inr ⟨rfl, rfl⟩) rfl rfl rfl hsame rfl h.size (fun _ => heq) .idle)

/-- The step of a worker that takes the first job. -/
theorem Refines.takes {w : Fin numWorkers} (h : m.Refines maxQueueSize s)
    (htakes : Takes s.queue (s.workers w)) :
    ∃ e, Server.next maxQueueSize s e = some (s.getWork w) := by
  rcases htakes with ⟨hstart, hsize⟩ | hwoken
  · refine ⟨.lock w, ?_⟩
    simp [Server.next, h.alive, hstart, Server.lock, hsize]
  · refine ⟨.resume w, ?_⟩
    simp [Server.next, h.alive, hwoken]

/-- The regions of a worker. -/
theorem Refines.run_worker (h : m.Refines maxQueueSize s) (hinv : m.Inv l) {w : Fin numWorkers}
    (hm : m.exec (.inr w) maxQueueSize = some m') : m'.Answers maxQueueSize s := by
  have hat := h.worker w
  have hfacts := hinv.facts (.inr w)
  have htakes := h.takes (w := w)
  have hlock : (m.pc (.inr w)).inRegion = true → m.lock ≠ none := by
    intro hin
    rw [(hinv.lock_iff _).mp hin]
    simp
  have hothers : (m.pc (.inr w)).inRegion = true →
      ∀ u, u ≠ .inr w → (m.pc u).inRegion = false := fun hin u hu => hinv.outside hin hu
  generalize hpc : m.pc (.inr w) = pc at hat
  generalize ha : s.workers w = a at hat htakes
  rw [hpc] at hlock hothers hfacts
  have hsame : s.workers = Function.update s.workers w a := by
    rw [← ha, Function.update_eq_self]
  cases hat with
  | waiting => simp [exec, hpc] at hm
  | lock =>
    simp only [exec, hpc, mutexLock, Option.ite_none_right_eq_some, Option.some.injEq] at hm
    obtain ⟨hfree, rfl⟩ := hm
    exact .inl (h.of_worker (.inr ⟨rfl, rfl⟩) rfl rfl rfl rfl hsame h.size
      (fun hnone => absurd hnone (Option.some_ne_none _))
      (.test (h.free hfree)))
  | test heq =>
    simp only [exec, hpc, h.size] at hm
    by_cases hzero : s.queue.queueSize = 0
    · rw [if_pos hzero] at hm
      cases hm
      have hnext : Server.next maxQueueSize s (.lock w) = some (s.setWorker w .waiting) := by
        simp [Server.next, h.alive, ha, Server.lock, hzero]
      apply Answers.step hnext
      exact h.of_worker (.inr ⟨rfl, rfl⟩) rfl rfl rfl rfl rfl h.size (fun _ => heq) .waiting
    · rw [if_neg hzero] at hm
      cases hm
      exact .inl (h.of_worker (.inr ⟨rfl, rfl⟩) rfl rfl rfl rfl hsame h.size
        (fun hnone => absurd hnone (hlock rfl)) (.getWork heq (.inl ⟨rfl, hzero⟩)))
  | woken =>
    simp only [exec, hpc, mutexLock, Option.ite_none_right_eq_some, Option.some.injEq] at hm
    obtain ⟨hfree, rfl⟩ := hm
    exact .inl (h.of_worker (.inr ⟨rfl, rfl⟩) rfl rfl rfl rfl hsame h.size
      (fun hnone => absurd hnone (Option.some_ne_none _))
      (.getWork (h.free hfree) (.inr rfl)))
  | getWork heq htake =>
    simp only [exec, hpc, hinv.getWork, Option.some.injEq] at hm
    subst hm
    refine .inl (h.of_worker (.inr ⟨rfl, rfl⟩) rfl rfl rfl rfl hsame h.size
      (fun hnone => absurd hnone (hlock rfl)) (.unlink heq htake ?_))
    rw [← heq]
    exact hinv.getWork
  | unlink heq htake hget =>
    simp only [exec, hpc, Option.some.injEq] at hm
    subst hm
    obtain rfl := hfacts
    cases l with
    | nil =>
      obtain ⟨e, hnext⟩ := htakes htake
      refine Answers.crash hnext ?_
      have hnone := hinv.holds.removal_undefined.2
      rw [heq] at hnone
      simp only [Server.getWork, hnone]
    | cons a l =>
      obtain ⟨cell, q, hget', hcell, hset, -, hrel, -⟩ := hinv.holds.unlink
      have hwork : workerGetWork s.queue = (q.setNext a none).map
          (fun q => ({ q with queueSize := q.queueSize - 1 }, a)) := by
        rw [← heq]
        simp [workerGetWork, hget', hcell, hset, Option.map_eq_bind]
      simp only [unlinkHead, List.head?_cons, hcell, store, hset]
      exact .inl (h.of_worker (.inl (hothers rfl)) rfl rfl rfl rfl hsame
        (hrel.size.trans h.size) (fun hnone => absurd hnone (hlock rfl)) (.clearNext htake hwork))
  | @clearNext _ job htake hwork =>
    simp only [exec, hpc, Option.some.injEq] at hm
    subst hm
    cases hset : m.queue.setNext job none with
    | none =>
      obtain ⟨e, hnext⟩ := htakes htake
      rw [hset] at hwork
      simp only [store, hset]
      refine Answers.crash hnext ?_
      simp only [Server.getWork, hwork, Option.map_none]
    | some q =>
      rw [hset] at hwork
      simp only [store, hset]
      exact .inl (h.of_worker (.inl (hothers rfl)) rfl rfl rfl rfl hsame
        ((setNext_size hset).trans h.size) (fun hnone => absurd hnone (hlock rfl))
        (.count htake hwork))
  | @count _ job htake hwork =>
    simp only [exec, hpc, Option.some.injEq] at hm
    subst hm
    have hqueue : (m.addSize (.inr w) (-1) (.unlock job)).queue =
        { m.queue with queueSize := m.queue.queueSize - 1 } := by
      rw [Int.sub_eq_add_neg]
      rfl
    obtain ⟨e, hnext⟩ := htakes htake
    apply Answers.step hnext
    simp only [Server.getWork, hwork]
    exact h.of_worker (.inl (hothers rfl)) rfl rfl rfl rfl rfl (by rw [hqueue])
      (fun _ => hqueue) (.unlock hqueue)
  | unlock heq =>
    simp only [exec, hpc, Option.some.injEq] at hm
    subst hm
    exact .inl (h.of_worker (.inr ⟨rfl, rfl⟩) rfl rfl rfl rfl hsame h.size (fun _ => heq)
      .serving)
  | serving =>
    simp only [exec, hpc, Option.some.injEq] at hm
    subst hm
    have hnext : Server.next maxQueueSize s (.served w) = some (s.setWorker w .start) := by
      simp [Server.next, h.alive, ha]
    apply Answers.step hnext
    exact h.of_worker (.inr ⟨rfl, rfl⟩) rfl rfl rfl rfl rfl h.size h.free .lock

/-! ## Moves and runs -/

/-- Every move that meets the condition has its answer. -/
theorem Refines.next {e : Move numListener numWorkers} (h : m.Refines maxQueueSize s)
    (hinv : m.Inv l) (hstray : m.StrayMeetsFree e) (hm : next maxQueueSize m e = some m') :
    m'.Answers maxQueueSize s := by
  cases e with
  | accept i r =>
    simp only [Machine.next, Option.ite_none_right_eq_some, Option.some.injEq] at hm
    obtain ⟨⟨-, hpc⟩, rfl⟩ := hm
    have hat := h.listener i
    rw [hpc] at hat
    generalize ha : s.listeners i = a at hat
    cases hat with
    | idle =>
      have hnext : Server.next maxQueueSize s (.accept i r) =
          some (s.setListener i (if r.isGetJob then .testEmpty else .addWork r)) := by
        simp [Server.next, h.alive, ha]
      apply Answers.step hnext
      by_cases hjob : r.isGetJob = true
      · rw [if_pos hjob, if_pos hjob]
        exact h.of_listener (.inr ⟨rfl, rfl⟩) rfl rfl rfl rfl rfl h.size h.free .testEmpty
      · rw [if_neg hjob, if_neg hjob]
        exact h.of_listener (.inr ⟨rfl, rfl⟩) rfl rfl rfl rfl rfl h.size h.free .addLock
  | signal i ws =>
    simp only [Machine.next, Option.ite_none_right_eq_some, Option.some.injEq] at hm
    obtain ⟨⟨-, hpc, hws, hall⟩, rfl⟩ := hm
    have hat := h.listener i
    rw [hpc] at hat
    generalize ha : s.listeners i = a at hat
    cases hat with
    | signal =>
      have hmay : s.MayWake ws := by
        refine ⟨fun w hw => (h.worker w).waiting_iff.mp (hws w hw), ?_⟩
        intro hnil w hw
        exact hall hnil w ((h.worker w).waiting_iff.mpr hw)
      have hnext : Server.next maxQueueSize s (.signal i ws) = some (s.signal i ws) := by
        simp [Server.next, h.alive, ha, hmay]
      have hpcs : ((m.wake ws).goto (.inl i) .idle).pc =
          Function.update (m.wake ws).pc (.inl i) .idle := rfl
      have hlisteners : (s.signal i ws).listeners = Function.update s.listeners i .idle := rfl
      refine Answers.step hnext ⟨h.live, h.alive, h.size, h.free, ?_, ?_⟩
      · intro j
        rw [hpcs, hlisteners]
        by_cases hj : j = i
        · subst hj
          rw [Function.update_self, Function.update_self]
          exact .idle
        · have hne : (Sum.inl j : Thread numListener numWorkers) ≠ .inl i := by simpa using hj
          rw [Function.update_of_ne hne, Function.update_of_ne hj]
          exact h.listener j
      · intro w
        have hne : (Sum.inr w : Thread numListener numWorkers) ≠ .inl i := by simp
        rw [hpcs, Function.update_of_ne hne]
        by_cases hw : w ∈ ws
        · have hwoken : (m.wake ws).pc (.inr w) = .woken := by simp [wake, hw]
          have hworker : (s.signal i ws).workers w = .woken := by simp [Server.signal, hw]
          rw [hwoken, hworker]
          exact .woken
        · have hstill : (m.wake ws).pc (.inr w) = m.pc (.inr w) := by simp [wake, hw]
          have hworker : (s.signal i ws).workers w = s.workers w := by simp [Server.signal, hw]
          rw [hstill, hworker]
          exact h.worker w
  | wakeup w =>
    simp only [Machine.next, Option.ite_none_right_eq_some, Option.some.injEq] at hm
    obtain ⟨⟨-, hpc⟩, rfl⟩ := hm
    have ha := (h.worker w).waiting_iff.mp hpc
    have hnext : Server.next maxQueueSize s (.wakeup w) = some (s.setWorker w .woken) := by
      simp [Server.next, h.alive, ha]
    apply Answers.step hnext
    exact h.of_worker (.inr ⟨rfl, rfl⟩) rfl rfl rfl rfl rfl h.size h.free .woken
  | run t =>
    simp only [Machine.next, Option.ite_none_right_eq_some] at hm
    obtain ⟨-, hm⟩ := hm
    cases t with
    | inl i => exact h.run_listener hinv hstray hm
    | inr w => exact h.run_worker hinv hm

/-- Every run in which the stray unlock only meets a free lock is a run of `Server`: while nobody
has the lock both have the same list, and `queue_size` is always the same. -/
theorem server_run_of_run {left : Job} {es : List (Move numListener numWorkers)}
    (hrun : Run (guarded StrayMeetsFree (stepOf (next maxQueueSize))) (init left) es m) :
    ∃ es' s, Run (stepOf (Server.next maxQueueSize)) (.init left) es' s ∧
      m.Follows maxQueueSize s := by
  have hboth : (∃ l, m.Inv l) ∧ ∃ es' s,
      Run (stepOf (Server.next maxQueueSize)) (.init left) es' s ∧ m.Follows maxQueueSize s := by
    refine hrun.invariant (fun m : Machine numListener numWorkers => (∃ l, m.Inv l) ∧ ∃ es' s,
      Run (stepOf (Server.next maxQueueSize)) (.init left) es' s ∧ m.Follows maxQueueSize s)
      ⟨⟨[], inv_init left⟩, [], _, Run.nil, .inl (refines_init left)⟩ ?_
    rintro m e m' ⟨⟨l, hinv⟩, es', s, run, hfollows⟩ ⟨hstray, hstep⟩
    refine ⟨next_inv hinv hstray hstep, ?_⟩
    rcases hfollows with href | ⟨hcrash, -⟩
    · rcases href.next hinv hstray hstep with href' | ⟨e', s', hnext, hfollows'⟩
      · exact ⟨es', s, run, .inl href'⟩
      · exact ⟨es' ++ [e'], s', run.snoc hnext, hfollows'⟩
    · -- nothing moves once the process has died
      cases e <;> simp [stepOf, next, hcrash] at hstep
  exact hboth.2

/-- In such a run `queue_size` counts the list whenever nobody has the lock, unless the process has
died. -/
theorem counts_of_run {left : Job} {es : List (Move numListener numWorkers)}
    (hrun : Run (guarded StrayMeetsFree (stepOf (next maxQueueSize))) (init left) es m)
    (hlive : m.crashed = false) (hfree : m.lock = none) :
    ∃ l, m.queue.Holds l ∧ m.queue.queueSize = l.length := by
  obtain ⟨es', s, run, hfollows⟩ := server_run_of_run hrun
  rcases hfollows with href | ⟨hcrash, -⟩
  · obtain ⟨l, hl⟩ := Server.counts_of_run run href.alive
    refine ⟨l, ?_, ?_⟩
    · rw [href.free hfree]
      exact hl.holds
    · rw [href.free hfree]
      exact hl.size
  · rw [hlive] at hcrash
    cases hcrash

end Machine

end Cs537.P6
