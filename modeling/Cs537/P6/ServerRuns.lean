import Cs537.P6.Server

/-!
# Runs of the proxy, lock regions taken as atomic

Two results over all interleavings. A listener that has found jobs with its test outside the
lock, and a worker that has waited, take a job without a further test. `queue_size` counts the
list and no region follows a NULL pointer exactly in the runs where fewer jobs were taken by
other threads in the meantime than there were before and have come since. And as long as the
process lives, a job in the list is never left with all workers asleep and no signal on its way.
-/

namespace Cs537.P6

open Cs537.Lib Queue

/-- The jobs that a thread has found when it last tested `queue_size`, and those that were added
and taken since. -/
structure Ledger where
  found : Int
  added : Int
  taken : Int

/-- Fewer jobs were taken in the meantime than there were and have come since. -/
def Ledger.Left (d : Ledger) : Prop := d.taken < d.found + d.added

instance (d : Ledger) : Decidable d.Left := inferInstanceAs (Decidable ((_ : Int) < _))

namespace Server

variable {numListener numWorkers : Nat} {s s' : Server numListener numWorkers}
  {maxQueueSize : Int}

/-! ## Accounting -/

/-- A region that takes a job without testing `queue_size` under its lock finds jobs. -/
def FindsJob (s : Server numListener numWorkers) (e : Event numListener numWorkers) : Prop :=
  takesUntested e = true → s.queue.queueSize ≠ 0

instance (s : Server numListener numWorkers) (e : Event numListener numWorkers) :
    Decidable (s.FindsJob e) :=
  inferInstanceAs (Decidable (takesUntested e = true → s.queue.queueSize ≠ 0))

/-- The process lives, and `queue_size` counts the list within the limit. -/
def Sound (maxQueueSize : Int) (s : Server numListener numWorkers) : Prop :=
  s.crashed = false ∧ s.Accounted maxQueueSize

theorem sound_init (hmax : 0 ≤ maxQueueSize) (left : Job) :
    (init left : Server numListener numWorkers).Sound maxQueueSize :=
  ⟨rfl, ⟨[], counts_init left⟩, le_rfl, hmax⟩

/-- From a sound state, a step leads to a sound state exactly when it meets the condition. -/
theorem next_sound_iff {e : Event numListener numWorkers} (h : s.Sound maxQueueSize)
    (hnext : next maxQueueSize s e = some s') :
    s.FindsJob e ↔ s'.Sound maxQueueSize := by
  obtain ⟨-, ⟨l, hl⟩, -, hle⟩ := h
  rcases next_counts hl hnext with ⟨hcrash, hempty, huntested⟩ |
    ⟨hlive, hjob, l', hl', hlen⟩
  · constructor
    · intro hfind
      exact absurd (hl.size_eq_zero.mpr hempty) (hfind huntested)
    · intro hsound
      rw [hsound.1] at hcrash
      cases hcrash
  · constructor
    · intro _
      have hsize := hl.size
      have hsize' := hl'.size
      exact ⟨hlive, ⟨l', hl'⟩, by omega, by omega⟩
    · intro _ huntested hzero
      exact hjob huntested (hl.size_eq_zero.mp hzero)

/-! ### What has happened since a thread looked at the queue -/

/-- The ledgers after an event. A listener's test of line 257 and the test that sends a worker
into `pthread_cond_wait` start a new one; all others count the jobs that come and go. -/
def record (maxQueueSize : Int) (s : Server numListener numWorkers)
    (ledger : Fin numListener ⊕ Fin numWorkers → Ledger) :
    Event numListener numWorkers → Fin numListener ⊕ Fin numWorkers → Ledger
  | .testEmpty i => Function.update ledger (.inl i) ⟨s.queue.queueSize, 0, 0⟩
  | .addWork _ =>
    if s.queue.queueSize = maxQueueSize then ledger
    else fun t => { ledger t with added := (ledger t).added + 1 }
  | .takeJob _ | .resume _ => fun t => { ledger t with taken := (ledger t).taken + 1 }
  | .lock w =>
    if s.queue.queueSize = 0 then Function.update ledger (.inr w) ⟨0, 0, 0⟩
    else fun t => { ledger t with taken := (ledger t).taken + 1 }
  | .accept _ _ | .signal _ _ | .wakeup _ | .served _ => ledger

end Server

/-- The server with the ledger of each thread. -/
structure Recorded (numListener numWorkers : Nat) where
  server : Server numListener numWorkers
  ledger : Fin numListener ⊕ Fin numWorkers → Ledger

namespace Recorded

variable {numListener numWorkers : Nat} {r r' : Recorded numListener numWorkers}
  {s s' : Server numListener numWorkers} {maxQueueSize : Int}
  {ledger : Fin numListener ⊕ Fin numWorkers → Ledger} {l : List Nat}

def init (left : Job) : Recorded numListener numWorkers where
  server := .init left
  ledger := fun _ => ⟨0, 0, 0⟩

/-- The state after an event, with what is recorded of it. -/
def next (maxQueueSize : Int) (r : Recorded numListener numWorkers)
    (e : Event numListener numWorkers) : Option (Recorded numListener numWorkers) :=
  (r.server.next maxQueueSize e).map fun s =>
    ⟨s, r.server.record maxQueueSize r.ledger e⟩

/-- Every run of the server can be recorded. -/
theorem exists_recorded {left : Job} {es : List (Event numListener numWorkers)}
    (run : Run (stepOf (Server.next maxQueueSize)) (Server.init left) es s) :
    ∃ r : Recorded numListener numWorkers,
      Run (stepOf (next maxQueueSize)) (init left) es r ∧ r.server = s := by
  induction run with
  | nil => exact ⟨init left, .nil, rfl⟩
  | snoc _ hstep ih =>
    obtain ⟨r, hrun, rfl⟩ := ih
    exact ⟨⟨_, _⟩, hrun.snoc (Option.map_eq_some_iff.mpr ⟨_, hstep, rfl⟩), rfl⟩

/-- The step is not one that comes too late: a listener that has seen jobs, and a worker that has
waited, go on while some of them are left. -/
def InTime (r : Recorded numListener numWorkers) : Event numListener numWorkers → Prop
  | .takeJob i => (r.ledger (.inl i)).Left
  | .resume w => (r.ledger (.inr w)).Left
  | _ => True

instance (r : Recorded numListener numWorkers) :
    (e : Event numListener numWorkers) → Decidable (r.InTime e)
  | .takeJob _ | .resume _ => inferInstanceAs (Decidable (Ledger.Left _))
  | .accept _ _ | .testEmpty _ | .addWork _ | .signal _ _ | .lock _ | .wakeup _ | .served _ =>
    isTrue trivial

/-- The thread is to take a job without a further test. -/
def Due (s : Server numListener numWorkers) : Fin numListener ⊕ Fin numWorkers → Prop
  | .inl i => s.listeners i = .takeJob
  | .inr w => s.workers w = .waiting ∨ s.workers w = .woken

/-- The ledger of a thread that is due tells how many jobs are left. -/
def Kept (s : Server numListener numWorkers)
    (ledger : Fin numListener ⊕ Fin numWorkers → Ledger) : Prop :=
  ∀ t, Due s t →
    s.queue.queueSize = (ledger t).found + (ledger t).added - (ledger t).taken

theorem due_setListener {i : Fin numListener} {pc : ListenerPc} (hpc : pc ≠ .takeJob)
    {t : Fin numListener ⊕ Fin numWorkers} (hdue : Due (s.setListener i pc) t) : Due s t := by
  cases t with
  | inl j =>
    by_cases hj : j = i
    · subst hj
      simp [Due, Server.setListener, hpc] at hdue
    · simpa [Due, Server.setListener, hj] using hdue
  | inr w => exact hdue

theorem due_of_workers (hlisteners : s'.listeners = s.listeners) {w : Fin numWorkers}
    {pc : WorkerPc} (hworkers : s'.workers = Function.update s.workers w pc)
    (hpc : pc ≠ .waiting ∧ pc ≠ .woken) {t : Fin numListener ⊕ Fin numWorkers}
    (hdue : Due s' t) : Due s t := by
  cases t with
  | inl j => simpa [Due, hlisteners] using hdue
  | inr v =>
    by_cases hv : v = w
    · subst hv
      simp [Due, hworkers, hpc] at hdue
    · simpa [Due, hworkers, hv] using hdue

theorem due_of_listeners (hworkers : s'.workers = s.workers) {i : Fin numListener}
    {pc : ListenerPc} (hlisteners : s'.listeners = Function.update s.listeners i pc)
    (hpc : pc ≠ .takeJob) {t : Fin numListener ⊕ Fin numWorkers} (hdue : Due s' t) : Due s t := by
  cases t with
  | inl j =>
    by_cases hj : j = i
    · subst hj
      simp [Due, hlisteners, hpc] at hdue
    · simpa [Due, hlisteners, hj] using hdue
  | inr w => simpa [Due, hworkers] using hdue

/-- Nothing comes or goes. -/
theorem Kept.mono (h : Kept s ledger) (hdue : ∀ t, Due s' t → Due s t)
    (hsize : s'.queue.queueSize = s.queue.queueSize) : Kept s' ledger :=
  fun t ht => hsize.trans (h t (hdue t ht))

/-- A job is taken. -/
theorem Kept.take (h : Kept s ledger) (hdue : ∀ t, Due s' t → Due s t)
    (hsize : s'.queue.queueSize = s.queue.queueSize - 1) :
    Kept s' fun t => { ledger t with taken := (ledger t).taken + 1 } := by
  intro t ht
  have hold := h t (hdue t ht)
  simp only
  omega

/-- A job is added. -/
theorem Kept.add (h : Kept s ledger) (hdue : ∀ t, Due s' t → Due s t)
    (hsize : s'.queue.queueSize = s.queue.queueSize + 1) :
    Kept s' fun t => { ledger t with added := (ledger t).added + 1 } := by
  intro t ht
  have hold := h t (hdue t ht)
  simp only
  omega

/-- A thread that has just looked at the queue starts a new ledger. -/
theorem Kept.start (h : Kept s ledger) (t : Fin numListener ⊕ Fin numWorkers)
    (hdue : ∀ u, u ≠ t → Due s' u → Due s u)
    (hsize : s'.queue.queueSize = s.queue.queueSize) :
    Kept s' (Function.update ledger t ⟨s.queue.queueSize, 0, 0⟩) := by
  intro u hu
  by_cases hut : u = t
  · subst hut
    simp [hsize]
  · rw [Function.update_of_ne hut, hsize]
    exact h u (hdue u hut hu)

/-- The worker takes a job in a living process. -/
theorem Kept.getWork (h : Kept s ledger) (hl : s.Counts l) (w : Fin numWorkers)
    (hlive : (s.getWork w).crashed = false) :
    Kept (s.getWork w) fun t => { ledger t with taken := (ledger t).taken + 1 } := by
  rcases hl.getWork w with ⟨-, hcrash⟩ | ⟨a, l', rfl, hcounts, -, hlisteners, hworkers⟩
  · rw [hcrash] at hlive
    cases hlive
  · refine h.take (fun t => due_of_workers hlisteners hworkers (by simp)) ?_
    rw [hcounts.size, hl.size]
    simp

/-- A step that the process survives keeps the ledgers. -/
theorem Kept.next {e : Event numListener numWorkers} (h : Kept s ledger) (hl : s.Counts l)
    (hnext : s.next maxQueueSize e = some s') (hlive : s'.crashed = false) :
    Kept s' (s.record maxQueueSize ledger e) := by
  cases Server.steps_of_next hnext with
  | accept r _ _ =>
    refine h.mono (fun t => due_setListener ?_) rfl
    split <;> simp
  | @testEmpty i _ _ =>
    refine h.start (.inl i) ?_ ?_
    · rintro (j | w) hne hdue
      · have hj : j ≠ i := fun heq => hne (congrArg Sum.inl heq)
        unfold Server.testEmpty at hdue
        split at hdue
        · simpa [Due, Server.setListener, hj] using hdue
        · simpa [Due, Server.setListener, hj] using hdue
      · unfold Server.testEmpty at hdue
        split at hdue
        · exact hdue
        · exact hdue
    · unfold Server.testEmpty
      split <;> rfl
  | @takeJob i _ _ =>
    rcases hl.takeJob i with ⟨-, hcrash⟩ | ⟨a, l', rfl, hcounts, -, hlisteners, hworkers⟩
    · rw [hcrash] at hlive
      cases hlive
    · refine h.take (fun t => due_of_listeners hworkers hlisteners (by simp)) ?_
      rw [hcounts.size, hl.size]
      simp
  | @addWork i r _ _ =>
    simp only [Server.record]
    rcases hl.addWork i r with ⟨hfull, heq⟩ | ⟨hroom, l', hlen, hcounts, -, hlisteners, hworkers⟩
    · rw [if_pos (hl.size.trans hfull), heq]
      exact h.mono (fun t => due_setListener (by simp)) rfl
    · rw [if_neg (fun hsize => hroom (hl.size.symm.trans hsize))]
      refine h.add (fun t => due_of_listeners hworkers hlisteners (by simp)) ?_
      rw [hcounts.size, hl.size, hlen]
      simp
  | @signal i ws _ _ hmay =>
    refine h.mono ?_ rfl
    rintro (j | w) hdue
    · by_cases hj : j = i
      · subst hj
        simp [Due, Server.signal, Server.setListener] at hdue
      · simpa [Due, Server.signal, Server.setListener, hj] using hdue
    · by_cases hw : w ∈ ws
      · exact .inl (hmay.1 w hw)
      · simpa [Due, Server.signal, hw] using hdue
  | @lock w _ _ =>
    simp only [Server.record]
    unfold Server.lock at hlive ⊢
    by_cases hzero : s.queue.queueSize = 0
    · rw [if_pos hzero, if_pos hzero]
      have hstart : Kept (s.setWorker w .waiting)
          (Function.update ledger (.inr w) ⟨s.queue.queueSize, 0, 0⟩) := h.start (.inr w) ?_ rfl
      · rwa [hzero] at hstart
      · rintro (j | v) hne hdue
        · exact hdue
        · have hv : v ≠ w := fun heq => hne (congrArg Sum.inr heq)
          simpa [Due, Server.setWorker, hv] using hdue
    · rw [if_neg hzero] at hlive ⊢
      rw [if_neg hzero]
      exact h.getWork hl w hlive
  | @wakeup w _ hpc =>
    refine h.mono ?_ rfl
    rintro (j | v) hdue
    · exact hdue
    · by_cases hv : v = w
      · rw [hv]
        exact .inl hpc
      · simpa [Due, Server.setWorker, hv] using hdue
  | @resume w _ _ => exact h.getWork hl w hlive
  | @served w _ _ _ =>
    refine h.mono ?_ rfl
    rintro (j | v) hdue
    · exact hdue
    · by_cases hv : v = w
      · subst hv
        simp [Due, Server.setWorker] at hdue
      · simpa [Due, Server.setWorker, hv] using hdue

/-- Where the ledgers are kept, a step finds a job when it takes one untested if and only if it is
in time. -/
theorem Kept.inTime_iff {e : Event numListener numWorkers} (h : Kept r.server r.ledger)
    (hl : r.server.Counts l) (hnext : r.server.next maxQueueSize e = some s) :
    r.InTime e ↔ r.server.FindsJob e := by
  have hleft (t : Fin numListener ⊕ Fin numWorkers) (hdue : Due r.server t) :
      (r.ledger t).Left ↔ r.server.queue.queueSize ≠ 0 := by
    have hsize := h t hdue
    have hnonneg := hl.size
    unfold Ledger.Left
    omega
  cases Server.steps_of_next hnext with
  | takeJob _ hpc => simpa [InTime, Server.FindsJob, Server.takesUntested] using hleft (.inl _) hpc
  | resume _ hpc =>
    simpa [InTime, Server.FindsJob, Server.takesUntested] using hleft (.inr _) (.inr hpc)
  | accept | testEmpty | addWork | signal | lock | wakeup | served =>
    simp [InTime, Server.FindsJob, Server.takesUntested]

/-- For any number of threads and any limit: the runs in which no thread comes too late to take a
job are exactly the runs in which the process never follows a NULL pointer and `queue_size` equals
the length of the list, between 0 and `max_queue_size`, in every state. -/
theorem accounting_iff_inTime (hmax : 0 ≤ maxQueueSize) (left : Job)
    (es : List (Event numListener numWorkers)) (r : Recorded numListener numWorkers) :
    Run (guarded InTime (stepOf (next maxQueueSize))) (init left) es r ↔
      Run (outcome (fun _ _ r' => r'.server.Sound maxQueueSize) (stepOf (next maxQueueSize)))
        (init left) es r := by
  have hagree : ∀ (r : Recorded numListener numWorkers) e r',
      r.server.Sound maxQueueSize ∧ Kept r.server r.ledger → stepOf (next maxQueueSize) r e r' →
        (r.InTime e ↔ r'.server.Sound maxQueueSize) := by
    rintro r e r' ⟨hsound, hkept⟩ hstep
    obtain ⟨s, hs, rfl⟩ := Option.map_eq_some_iff.mp hstep
    obtain ⟨-, ⟨l, hl⟩, -⟩ := id hsound
    exact (hkept.inTime_iff hl hs).trans (Server.next_sound_iff hsound hs)
  refine Run.guarded_iff_outcome
    (fun r => r.server.Sound maxQueueSize ∧ Kept r.server r.ledger) ⟨?_, ?_⟩ ?_ hagree
  · exact Server.sound_init hmax left
  · rintro (i | w) hdue
    · cases hdue
    · rcases hdue with hdue | hdue <;> cases hdue
  · rintro r e r' hgood htime hstep
    have hsound := (hagree r e r' hgood hstep).mp htime
    obtain ⟨s, hs, rfl⟩ := Option.map_eq_some_iff.mp hstep
    obtain ⟨-, ⟨l, hl⟩, -⟩ := hgood.1
    exact ⟨hsound, hgood.2.next hl hs hsound.1⟩

-- the numerals of `Fin 2` and `Fin 1`
local instance : NeZero 2 := ⟨by decide⟩
local instance : NeZero 1 := ⟨by decide⟩

/-- The accounting theorem at two listeners and a worker that waits: two jobs are queued, a listener
and the woken worker take one each. -/
theorem accounting_iff_inTime_two_jobs :
    (0 : Int) ≤ 100 ∧ ∃ r : Recorded 2 1,
      Run (outcome (fun _ _ r' => r'.server.Sound 100) (stepOf (next 100))) (init emptyCell)
        [.lock 0, .accept 0 fileRequest, .addWork 0, .signal 0 [0], .accept 0 fileRequest,
          .addWork 0, .accept 1 getJobRequest, .testEmpty 1, .takeJob 1, .resume 0] r := by
  have htrace : ∃ r : Recorded 2 1,
      runOf (fun r e => if r.InTime e then next 100 r e else none) (init emptyCell)
        [.lock 0, .accept 0 fileRequest, .addWork 0, .signal 0 [0], .accept 0 fileRequest,
          .addWork 0, .accept 1 getJobRequest, .testEmpty 1, .takeJob 1, .resume 0] = some r :=
    ⟨_, rfl⟩
  obtain ⟨r, hr⟩ := htrace
  exact ⟨by decide, r,
    (accounting_iff_inTime (by decide) emptyCell _ r).mp (run_guarded_of_runOf hr)⟩

end Recorded

namespace Server

variable {numListener numWorkers : Nat} {s s' : Server numListener numWorkers}
  {maxQueueSize : Int}

-- the numerals of `Fin 2` and `Fin 1`
local instance : NeZero 2 := ⟨by decide⟩
local instance : NeZero 1 := ⟨by decide⟩

/-- Listener 1 sees a job, worker 0 takes it, and listener 1 then takes a job from the
empty list. -/
def lastJobTrace : List (Event 2 1) :=
  [.accept 0 fileRequest, .addWork 0, .accept 1 getJobRequest, .testEmpty 1, .lock 0, .takeJob 1]

/-- Not every run keeps the process alive. -/
theorem accounting_fails_on_lastJobTrace :
    ¬ ∀ (numListener numWorkers : Nat) (maxQueueSize : Int) (left : Job)
      (es : List (Event numListener numWorkers)) (s : Server numListener numWorkers),
      0 ≤ maxQueueSize → Run (stepOf (next maxQueueSize)) (init left) es s →
        s.Sound maxQueueSize := by
  intro hall
  have htrace : (runOf (next 100) (init emptyCell) lastJobTrace).map Server.crashed =
      some true := by decide
  obtain ⟨s, hs, hcrash⟩ := Option.map_eq_some_iff.mp htrace
  have hsound := hall 2 1 100 emptyCell lastJobTrace s (by decide) (run_of_runOf hs)
  rw [hsound.1] at hcrash
  cases hcrash

/-! ## No job is stranded -/

/-- A worker is awake, or the list is empty, or a signal is on its way. -/
def Attended (s : Server numListener numWorkers) (l : List Nat) : Prop :=
  l = [] ∨ (∃ w, s.workers w ≠ .waiting) ∨ ∃ i, s.listeners i = .signal

theorem Attended.mono {l l' : List Nat} (h : s.Attended l) (hlist : l = [] → l' = [])
    (hw : ∀ w, s.workers w ≠ .waiting → s'.workers w ≠ .waiting)
    (hi : ∀ i, s.listeners i = .signal → s'.listeners i = .signal) : s'.Attended l' := by
  rcases h with hempty | ⟨w, hawake⟩ | ⟨i, hsig⟩
  · exact Or.inl (hlist hempty)
  · exact Or.inr (Or.inl ⟨w, hw w hawake⟩)
  · exact Or.inr (Or.inr ⟨i, hi i hsig⟩)

/-- A step of a listener that is not before its signal leaves the signals on their way. -/
theorem signal_update {i : Fin numListener} {pc : ListenerPc} (hpc : s.listeners i ≠ .signal)
    (j : Fin numListener) (hj : s.listeners j = .signal) :
    Function.update s.listeners i pc j = .signal := by
  have hne : j ≠ i := by
    rintro rfl
    exact hpc hj
  rw [Function.update_of_ne hne, hj]

theorem attended_setListener {l : List Nat} (h : s.Attended l) {i : Fin numListener}
    (hpc : s.listeners i ≠ .signal) (pc : ListenerPc) : (s.setListener i pc).Attended l :=
  h.mono id (fun _ hw => hw) (signal_update hpc)

theorem attended_of_awake {l : List Nat} (w : Fin numWorkers) (hw : s.workers w ≠ .waiting) :
    s.Attended l := Or.inr (Or.inl ⟨w, hw⟩)

/-- Every step of a living process keeps its jobs attended. -/
theorem next_attended {e : Event numListener numWorkers} {l : List Nat}
    (hworkers : 0 < numWorkers) (hl : s.Counts l) (h : s.Attended l)
    (hnext : next maxQueueSize s e = some s') (hlive : s'.crashed = false) :
    ∃ l', s'.Counts l' ∧ s'.Attended l' := by
  cases steps_of_next hnext with
  | accept r _ hpc => exact ⟨l, hl.setListener _ _, attended_setListener h (by simp [hpc]) _⟩
  | testEmpty _ hpc =>
    unfold Server.testEmpty
    split
    · exact ⟨l, hl.setListener _ _, attended_setListener h (by simp [hpc]) _⟩
    · exact ⟨l, hl.setListener _ _, attended_setListener h (by simp [hpc]) _⟩
  | @takeJob i _ hpc =>
    rcases hl.takeJob i with ⟨-, hcrash⟩ | ⟨a, l', rfl, hcounts, -, hlisteners, hwork⟩
    · rw [hcrash] at hlive
      cases hlive
    · refine ⟨l', hcounts, h.mono (by simp) ?_ ?_⟩
      · rw [hwork]
        exact fun _ hw => hw
      · rw [hlisteners]
        exact signal_update (by simp [hpc])
  | @addWork i r _ hpc =>
    rcases hl.addWork i r with ⟨-, heq⟩ | ⟨-, l', -, hcounts, -, hlisteners, -⟩
    · rw [heq]
      exact ⟨l, hl.setListener i _, attended_setListener h (by simp [hpc]) _⟩
    · refine ⟨l', hcounts, Or.inr (Or.inr ⟨i, ?_⟩)⟩
      rw [hlisteners]
      simp
  | @signal i ws _ _ hmay =>
    refine ⟨l, ⟨hl.holds, hl.size⟩, ?_⟩
    cases ws with
    | nil =>
      -- the signal is lost: nobody was waiting for it
      refine attended_of_awake ⟨0, hworkers⟩ ?_
      simpa [Server.signal] using hmay.2 rfl ⟨0, hworkers⟩
    | cons w ws => exact attended_of_awake w (by simp [Server.signal])
  | @lock w _ _ =>
    unfold Server.lock at hlive ⊢
    split
    · rename_i hzero
      exact ⟨l, hl.setWorker w _, Or.inl (hl.size_eq_zero.mp hzero)⟩
    · rename_i hne
      rcases hl.getWork w with ⟨hempty, -⟩ | ⟨a, l', rfl, hcounts, -, -, hwork⟩
      · exact absurd (hl.size_eq_zero.mpr hempty) hne
      · exact ⟨l', hcounts, attended_of_awake w (by simp [hwork])⟩
  | @wakeup w _ _ => exact ⟨l, hl.setWorker w _, attended_of_awake w (by simp [setWorker])⟩
  | @resume w _ _ =>
    rcases hl.getWork w with ⟨-, hcrash⟩ | ⟨a, l', rfl, hcounts, -, -, hwork⟩
    · rw [hcrash] at hlive
      cases hlive
    · exact ⟨l', hcounts, attended_of_awake w (by simp [hwork])⟩
  | @served w _ _ _ => exact ⟨l, hl.setWorker w _, attended_of_awake w (by simp [setWorker])⟩

/-- A step only happens while the process lives. -/
theorem live_of_next {e : Event numListener numWorkers}
    (hnext : next maxQueueSize s e = some s') : s.crashed = false := by
  cases steps_of_next hnext <;> assumption

/-- While the process lives, `queue_size` counts the list. -/
theorem counts_of_run {left : Job} {es : List (Event numListener numWorkers)}
    (run : Run (stepOf (next maxQueueSize)) (init left) es s) (hlive : s.crashed = false) :
    ∃ l, s.Counts l := by
  revert hlive
  refine run.invariant (fun s => s.crashed = false → ∃ l, s.Counts l) ?_ ?_
  · intro _
    exact ⟨[], counts_init left⟩
  · intro t e u ih hstep hlive
    obtain ⟨l, hl⟩ := ih (live_of_next hstep)
    rcases next_counts hl hstep with ⟨hcrash, -⟩ | ⟨-, -, l', hl', -⟩
    · rw [hlive] at hcrash
      cases hcrash
    · exact ⟨l', hl'⟩

/-- In every state that any interleaving reaches without following a NULL pointer: if the
job list is not empty and no listener is between its insertion and its signal, then at
least one of the workers is not waiting. -/
theorem no_job_stranded (hworkers : 0 < numWorkers) (left : Job)
    {es : List (Event numListener numWorkers)}
    (hrun : Run (stepOf (next maxQueueSize)) (init left) es s) (hlive : s.crashed = false)
    {l : List Nat} (hl : s.queue.Holds l) (hjob : l ≠ [])
    (hsignal : ∀ i, s.listeners i ≠ .signal) : ∃ w, s.workers w ≠ .waiting := by
  have hinv : s.crashed = false → ∃ l, s.Counts l ∧ s.Attended l := by
    refine hrun.invariant (fun s => s.crashed = false → ∃ l, s.Counts l ∧ s.Attended l) ?_ ?_
    · intro _
      exact ⟨[], counts_init left, Or.inl rfl⟩
    · intro t e u ih hstep hlive
      obtain ⟨l, hcounts, hatt⟩ := ih (live_of_next hstep)
      exact next_attended hworkers hcounts hatt hstep hlive
  obtain ⟨l', hcounts, hatt⟩ := hinv hlive
  obtain rfl := hcounts.holds.unique hl
  rcases hatt with hempty | hawake | ⟨i, hsig⟩
  · exact absurd hempty hjob
  · exact hawake
  · exact absurd hsig (hsignal i)

/-- A worker waits, a request is queued and its signal wakes the worker: the theorem above
in the state reached. -/
theorem no_job_stranded_after_signal :
    ∃ s : Server 1 1, s.crashed = false ∧ (∃ l, s.queue.Holds l ∧ l ≠ []) ∧
      (∀ i, s.listeners i ≠ .signal) ∧ ∃ w, s.workers w ≠ .waiting := by
  have htrace : ∃ s : Server 1 1, runOf (next 100) (init emptyCell)
      [.lock 0, .accept 0 fileRequest, .addWork 0, .signal 0 [0]] = some s ∧
      s.crashed = false ∧ (∀ i, s.listeners i ≠ .signal) ∧ s.queue.queueSize ≠ 0 :=
    ⟨_, rfl, rfl, by decide, by decide⟩
  obtain ⟨s, hs, hlive, hsignal, hsize⟩ := htrace
  have hrun := run_of_runOf hs
  obtain ⟨l, hl⟩ := counts_of_run hrun hlive
  have hjob : l ≠ [] := fun hempty => hsize (hl.size_eq_zero.mpr hempty)
  exact ⟨s, hlive, ⟨l, hl.holds, hjob⟩, hsignal,
    no_job_stranded (by decide) emptyCell hrun hlive hl.holds hjob hsignal⟩

end Server

end Cs537.P6
