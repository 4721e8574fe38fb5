import Cs537.P6.Lock

/-!
# Who has a job

A job is made by a listener, linked into the list, and unlinked by the thread that takes it. While
the stray unlock only meets a free lock every job has one place: no two threads have taken it, and
no thread has taken a job that is still being made or still in the list.
-/

namespace Cs537.P6

open Cs537.Lib Queue

/-- The job that the thread has unlinked and not given up yet. -/
def Pc.job : Pc → Option Nat
  | .clearNext job | .count job | .unlock job | .serving job => some job
  | _ => none

/-- The job that the thread has made and not linked yet. -/
def Pc.newJob : Pc → Option Nat
  | .addEmpty newJob | .addWalk _ newJob | .addNext _ newJob | .addLink _ newJob => some newJob
  | _ => none

/-- A thread that goes from one statement to another has no job that it did not have before, and
serving is the last thing that it does with a job. -/
structure Pc.Goes (pc pc' : Pc) : Prop where
  job : ∀ a, pc'.job = some a → pc.job = some a ∧ pc ≠ .serving a
  newJob : ∀ a, pc'.newJob = some a → pc.newJob = some a

/-- A thread between its jobs. -/
theorem Pc.goes_of_none {pc pc' : Pc} (hjob : pc'.job = none) (hnew : pc'.newJob = none) :
    pc.Goes pc' := by
  refine ⟨fun a h => ?_, fun a h => ?_⟩
  · rw [hjob] at h
    cases h
  · rw [hnew] at h
    cases h

/-- A thread that goes on with the job that it makes. -/
theorem Pc.goes_making {pc pc' : Pc} {newJob : Nat} (h : pc.newJob = some newJob)
    (hjob : pc'.job = none) (hnew : pc'.newJob = some newJob) : pc.Goes pc' := by
  refine ⟨fun a ha => ?_, fun a ha => ?_⟩
  · rw [hjob] at ha
    cases ha
  · rw [h, ← hnew, ha]

/-- A thread that goes on with the job that it has taken. -/
theorem Pc.goes_holding {pc pc' : Pc} {job : Nat} (h : pc.job = some job)
    (hne : pc ≠ .serving job) (hjob : pc'.job = some job) (hnew : pc'.newJob = none) :
    pc.Goes pc' := by
  refine ⟨fun a ha => ?_, fun a ha => ?_⟩
  · obtain rfl : job = a := Option.some.inj (hjob.symm.trans ha)
    exact ⟨h, hne⟩
  · rw [hnew] at ha
    cases ha

theorem Pc.inRegion_of_newJob {pc : Pc} {a : Nat} (h : pc.newJob = some a) :
    pc.inRegion = true := by
  cases pc <;> first | rfl | cases h

namespace Machine

variable {numListener numWorkers : Nat} {m m' : Machine numListener numWorkers}
  {t : Thread numListener numWorkers} {l : List Nat} {pc : Pc} {maxQueueSize : Int}

/-- What a move can do with the jobs, where `l` is the list before it: nothing, or a thread makes
a job, links it, or unlinks the first one. -/
inductive Effect (m : Machine numListener numWorkers) (l : List Nat)
    (e : Move numListener numWorkers) (m' : Machine numListener numWorkers) : Prop where
  | quiet : (∀ u, m'.pc u = m.pc u ∨ (m.pc u).Goes (m'.pc u)) → m.queue.Keeps m'.queue →
      m'.queue.brk = m.queue.brk → m'.accepted = m.accepted → m'.removed = m.removed →
      Effect m l e m'
  | made (t : Thread numListener numWorkers) (r : Request) : m.pc t = .addFull r →
      m' = (m.goto t (.addEmpty m.queue.brk)).withQueue
        (m.queue.malloc (newJobOf r.buffer r.clientFd r.bytesRead)) → Effect m l e m'
  | linked (t : Thread numListener numWorkers) (start newJob : Nat) :
      m.pc t = .addLink start newJob → m'.pc = Function.update m.pc t .addCount →
      m.queue.Keeps m'.queue → m'.queue.brk = m.queue.brk →
      m'.accepted = m.accepted ++ [newJob] → m'.removed = m.removed → Effect m l e m'
  | taken (t : Thread numListener numWorkers) (job : Nat) (pc : Pc) : e = .run t →
      l.head? = some job →
      (m.pc t = .takeUnlink (some job) ∧ pc = .takeCount ∨
        m.pc t = .unlink (some job) ∧ pc = .clearNext job) →
      m'.pc = Function.update m.pc t pc → m.queue.Keeps m'.queue →
      m'.queue.brk = m.queue.brk → m'.accepted = m.accepted →
      m'.removed = m.removed ++ [job] → Effect m l e m'

namespace Effect

variable {e : Move numListener numWorkers}

/-- Only the statement of one thread changes, and the memory keeps the jobs. -/
theorem at_thread (hgoes : (m.pc t).Goes pc) (hpc : m'.pc = Function.update m.pc t pc)
    (keeps : m.queue.Keeps m'.queue) (brk : m'.queue.brk = m.queue.brk)
    (accepted : m'.accepted = m.accepted) (removed : m'.removed = m.removed) :
    Effect m l e m' := by
  refine .quiet (fun u => ?_) keeps brk accepted removed
  by_cases hu : u = t
  · subst hu
    right
    rw [hpc, Function.update_self]
    exact hgoes
  · left
    rw [hpc, Function.update_of_ne hu]

theorem goto (hgoes : (m.pc t).Goes pc) : Effect m l e (m.goto t pc) :=
  at_thread hgoes rfl (Keeps.refl _) rfl rfl rfl

theorem crash : Effect m l e m.crash :=
  .quiet (fun _ => .inl rfl) (Keeps.refl _) rfl rfl rfl

theorem mutexLock (h : m.mutexLock t pc = some m') (hgoes : (m.pc t).Goes pc) :
    Effect m l e m' := by
  simp only [Machine.mutexLock, Option.ite_none_right_eq_some, Option.some.injEq] at h
  obtain ⟨-, rfl⟩ := h
  exact at_thread hgoes rfl (Keeps.refl _) rfl rfl rfl

theorem mutexUnlock (hgoes : (m.pc t).Goes pc) : Effect m l e (m.mutexUnlock t pc) :=
  at_thread hgoes rfl (Keeps.refl _) rfl rfl rfl

theorem addSize (d : Int) (hgoes : (m.pc t).Goes pc) : Effect m l e (m.addSize t d pc) :=
  at_thread hgoes rfl (fun a j hj => by simp [Machine.addSize, withQueue, hj]) rfl rfl rfl

theorem store {p : Nat} {n : Option Nat} (hgoes : (m.pc t).Goes pc) :
    Effect m l e (m.store t p n pc) := by
  cases hp : m.queue.mem p with
  | none =>
    have hset : m.queue.setNext p n = none := by simp [setNext, hp]
    rw [Machine.store, hset]
    exact crash
  | some c =>
    rw [Machine.store, setNext_eq_some hp]
    exact at_thread hgoes rfl (relinks_putCell hp n).keeps rfl rfl rfl

/-- The removal at the head of the list. -/
theorem unlinkHead {pc : Nat → Pc} (h : m.Inv l) {ret : Option Nat} (hret : ret = l.head?)
    (hat : ∀ job, ret = some job → m.pc t = .takeUnlink (some job) ∧ pc job = .takeCount ∨
      m.pc t = .unlink (some job) ∧ pc job = .clearNext job) :
    Effect m l (.run t) (m.unlinkHead t ret pc) := by
  subst hret
  cases l with
  | nil => exact crash
  | cons a l =>
    obtain ⟨cell, q, -, hcell, hset, -, hrel, -⟩ := h.holds.unlink
    simp only [Machine.unlinkHead, List.head?_cons, hcell, Machine.store, hset]
    exact .taken t a (pc a) rfl rfl (hat a rfl) rfl hrel.keeps hrel.brk rfl rfl

end Effect

/-- What a statement does with the jobs. -/
theorem exec_effect (h : m.Inv l) (hm : m.exec t maxQueueSize = some m') :
    Effect m l (.run t) m' := by
  have hfacts := h.facts t
  cases hpc : m.pc t with
  | idle => simp [Machine.exec, hpc] at hm
  | signal => simp [Machine.exec, hpc] at hm
  | waiting => simp [Machine.exec, hpc] at hm
  | testEmpty =>
    simp only [Machine.exec, hpc, Option.some.injEq] at hm
    subst hm
    apply Effect.goto
    split
    · exact Pc.goes_of_none rfl rfl
    · exact Pc.goes_of_none rfl rfl
  | strayUnlock =>
    simp only [Machine.exec, hpc, Option.some.injEq] at hm
    subst hm
    exact .mutexUnlock (Pc.goes_of_none rfl rfl)
  | takeLock =>
    simp only [Machine.exec, hpc] at hm
    exact .mutexLock hm (Pc.goes_of_none rfl rfl)
  | takeHead =>
    simp only [Machine.exec, hpc, h.getWork, Option.some.injEq] at hm
    subst hm
    exact .goto (Pc.goes_of_none rfl rfl)
  | takeUnlink ret =>
    rw [hpc] at hfacts
    simp only [Machine.exec, hpc, Option.some.injEq] at hm
    subst hm
    refine Effect.unlinkHead h hfacts fun job hjob => .inl ⟨?_, rfl⟩
    rw [hpc, hjob]
  | takeCount =>
    simp only [Machine.exec, hpc, Option.some.injEq] at hm
    subst hm
    exact .addSize _ (Pc.goes_of_none rfl rfl)
  | takeUnlock =>
    simp only [Machine.exec, hpc, Option.some.injEq] at hm
    subst hm
    exact .mutexUnlock (Pc.goes_of_none rfl rfl)
  | addLock r =>
    simp only [Machine.exec, hpc] at hm
    exact .mutexLock hm (Pc.goes_of_none rfl rfl)
  | addFull r =>
    simp only [Machine.exec, hpc] at hm
    split at hm
    · cases hm
      exact .goto (Pc.goes_of_none rfl rfl)
    · exact .made t r hpc (Option.some.inj hm).symm
  | addEmpty newJob =>
    have hnew : (m.pc t).newJob = some newJob := by rw [hpc]; rfl
    simp only [Machine.exec, hpc] at hm
    split at hm
    · cases hm
      exact .crash
    · split at hm
      · cases hm
        exact .goto (Pc.goes_making hnew rfl rfl)
      · cases hm
        exact .goto (Pc.goes_making hnew rfl rfl)
  | addWalk start newJob =>
    have hnew : (m.pc t).newJob = some newJob := by rw [hpc]; rfl
    simp only [Machine.exec, hpc] at hm
    split at hm
    · split at hm
      · cases hm
        exact .goto (Pc.goes_making hnew rfl rfl)
      · split at hm
        · cases hm
          exact .crash
        · split at hm
          · cases hm
            exact .goto (Pc.goes_making hnew rfl rfl)
          · cases hm
            exact .goto (Pc.goes_making hnew rfl rfl)
    · cases hm
      exact .crash
  | addNext start newJob =>
    simp only [Machine.exec, hpc] at hm
    split at hm
    · cases hm
      exact .crash
    · cases hm
      exact .store (Pc.goes_making (by rw [hpc]; rfl) rfl rfl)
  | addLink start newJob =>
    rw [hpc] at hfacts
    obtain ⟨-, -, c, -, hc, -, -⟩ := hfacts
    simp only [Machine.exec, hpc, Machine.store, setNext_eq_some hc, Option.some.injEq] at hm
    subst hm
    exact .linked t start newJob hpc rfl (relinks_putCell hc _).keeps rfl rfl rfl
  | addCount =>
    simp only [Machine.exec, hpc, Option.some.injEq] at hm
    subst hm
    exact .addSize _ (Pc.goes_of_none rfl rfl)
  | addUnlock =>
    simp only [Machine.exec, hpc, Option.some.injEq] at hm
    subst hm
    exact .mutexUnlock (Pc.goes_of_none rfl rfl)
  | fullUnlock =>
    simp only [Machine.exec, hpc, Option.some.injEq] at hm
    subst hm
    exact .mutexUnlock (Pc.goes_of_none rfl rfl)
  | lock =>
    simp only [Machine.exec, hpc] at hm
    exact .mutexLock hm (Pc.goes_of_none rfl rfl)
  | test =>
    simp only [Machine.exec, hpc] at hm
    split at hm
    · cases hm
      exact .mutexUnlock (Pc.goes_of_none rfl rfl)
    · cases hm
      exact .goto (Pc.goes_of_none rfl rfl)
  | woken =>
    simp only [Machine.exec, hpc] at hm
    exact .mutexLock hm (Pc.goes_of_none rfl rfl)
  | getWork =>
    simp only [Machine.exec, hpc, h.getWork, Option.some.injEq] at hm
    subst hm
    exact .goto (Pc.goes_of_none rfl rfl)
  | unlink job =>
    rw [hpc] at hfacts
    simp only [Machine.exec, hpc, Option.some.injEq] at hm
    subst hm
    refine Effect.unlinkHead h hfacts fun a ha => .inr ⟨?_, rfl⟩
    rw [hpc, ha]
  | clearNext job =>
    simp only [Machine.exec, hpc, Option.some.injEq] at hm
    subst hm
    exact .store (Pc.goes_holding (by rw [hpc]; rfl) (by rw [hpc]; simp) rfl rfl)
  | count job =>
    simp only [Machine.exec, hpc, Option.some.injEq] at hm
    subst hm
    exact .addSize _ (Pc.goes_holding (by rw [hpc]; rfl) (by rw [hpc]; simp) rfl rfl)
  | unlock job =>
    simp only [Machine.exec, hpc, Option.some.injEq] at hm
    subst hm
    exact .mutexUnlock (Pc.goes_holding (by rw [hpc]; rfl) (by rw [hpc]; simp) rfl rfl)
  | serving job =>
    simp only [Machine.exec, hpc, Option.some.injEq] at hm
    subst hm
    exact .goto (Pc.goes_of_none rfl rfl)

/-- What a move does with the jobs. -/
theorem next_effect {e : Move numListener numWorkers} (h : m.Inv l)
    (hm : next maxQueueSize m e = some m') : Effect m l e m' := by
  cases e with
  | accept i r =>
    simp only [next, Option.ite_none_right_eq_some, Option.some.injEq] at hm
    obtain ⟨-, rfl⟩ := hm
    apply Effect.goto
    split
    · exact Pc.goes_of_none rfl rfl
    · exact Pc.goes_of_none rfl rfl
  | signal i ws =>
    simp only [next, Option.ite_none_right_eq_some, Option.some.injEq] at hm
    obtain ⟨-, rfl⟩ := hm
    refine .quiet ?_ (Keeps.refl _) rfl rfl rfl
    intro u
    have hpc : ((m.wake ws).goto (.inl i) .idle).pc =
        Function.update (m.wake ws).pc (.inl i) .idle := rfl
    by_cases hu : u = .inl i
    · subst hu
      right
      rw [hpc, Function.update_self]
      exact Pc.goes_of_none rfl rfl
    · rw [hpc, Function.update_of_ne hu]
      cases u with
      | inl j => exact .inl rfl
      | inr w =>
        by_cases hw : w ∈ ws
        · right
          have hwoken : (m.wake ws).pc (.inr w) = .woken := by simp [wake, hw]
          rw [hwoken]
          exact Pc.goes_of_none rfl rfl
        · left
          simp [wake, hw]
  | wakeup w =>
    simp only [next, Option.ite_none_right_eq_some, Option.some.injEq] at hm
    obtain ⟨-, rfl⟩ := hm
    exact .goto (Pc.goes_of_none rfl rfl)
  | run t =>
    simp only [next, Option.ite_none_right_eq_some] at hm
    exact exec_effect h hm.2

namespace Effect

variable {e : Move numListener numWorkers}

/-- Every job keeps its fields, apart from its link. -/
theorem keeps (h : Effect m l e m') (hinv : m.Inv l) : m.queue.Keeps m'.queue := by
  cases h with
  | quiet _ keeps _ _ _ => exact keeps
  | made t r _ heq =>
    subst heq
    exact (hinv.holds.malloc _).2
  | linked _ _ _ _ _ keeps _ _ _ => exact keeps
  | taken _ _ _ _ _ _ _ keeps _ _ _ => exact keeps

theorem brk_le (h : Effect m l e m') : m.queue.brk ≤ m'.queue.brk := by
  cases h with
  | quiet _ _ brk _ _ => exact brk.ge
  | made t r _ heq =>
    subst heq
    exact Nat.le_succ _
  | linked _ _ _ _ _ _ brk _ _ => exact brk.ge
  | taken _ _ _ _ _ _ _ _ brk _ _ => exact brk.ge

theorem removed_subset (h : Effect m l e m') : m.removed ⊆ m'.removed := by
  cases h with
  | quiet _ _ _ _ removed => rw [removed]; exact List.Subset.refl _
  | made t r _ heq => subst heq; exact List.Subset.refl _
  | linked _ _ _ _ _ _ _ _ removed => rw [removed]; exact List.Subset.refl _
  | taken _ _ _ _ _ _ _ _ _ _ removed => rw [removed]; exact List.subset_append_left _ _

/-- A thread has had its job before, or the job was the first of the list. -/
theorem holder (h : Effect m l e m') {u : Thread numListener numWorkers} {a : Nat}
    (hu : (m'.pc u).job = some a) :
    ((m.pc u).job = some a ∧ (m'.pc u = m.pc u ∨ m.pc u ≠ .serving a)) ∨
    e = .run u ∧ l.head? = some a ∧ a ∈ m'.removed ∧
      m'.pc = Function.update m.pc u (.clearNext a) := by
  -- a thread whose statement stays the same
  have hsame : m'.pc u = m.pc u →
      (m.pc u).job = some a ∧ (m'.pc u = m.pc u ∨ m.pc u ≠ .serving a) :=
    fun heq => ⟨heq ▸ hu, .inl heq⟩
  cases h with
  | quiet hpc _ _ _ _ =>
    rcases hpc u with heq | hgoes
    · exact .inl (hsame heq)
    · exact .inl ⟨(hgoes.job a hu).1, .inr (hgoes.job a hu).2⟩
  | made t r _ heq =>
    by_cases hut : u = t
    · subst hut
      rw [heq] at hu
      simp [withQueue, Machine.goto, Pc.job] at hu
    · refine .inl (hsame ?_)
      rw [heq]
      exact Function.update_of_ne hut _ _
  | linked t _ _ _ hpc _ _ _ _ =>
    by_cases hut : u = t
    · subst hut
      rw [hpc, Function.update_self] at hu
      cases hu
    · refine .inl (hsame ?_)
      rw [hpc, Function.update_of_ne hut]
  | taken t job pc hmove hhead hat hpc _ _ _ removed =>
    by_cases hut : u = t
    · subst hut
      rw [hpc, Function.update_self] at hu
      rcases hat with ⟨-, rfl⟩ | ⟨-, rfl⟩
      · cases hu
      · obtain rfl : job = a := Option.some.inj hu
        refine .inr ⟨hmove, hhead, ?_, hpc⟩
        rw [removed]
        exact List.mem_append_right _ List.mem_cons_self
    · refine .inl (hsame ?_)
      rw [hpc, Function.update_of_ne hut]

end Effect

/-! ## One place for every job -/

/-- The job that a listener unlinks in the move, to answer a `GetJob` request with it. -/
def answeredBy (m : Machine numListener numWorkers) : Move numListener numWorkers → List Nat
  | .run t =>
    match m.pc t with
    | .takeUnlink (some job) => [job]
    | _ => []
  | _ => []

/-- It is the first job of the list, and no thread has it afterwards that had it not before. -/
theorem taken_of_answeredBy {e : Move numListener numWorkers} (h : m.Inv l)
    (hm : next maxQueueSize m e = some m') {a : Nat} (ha : a ∈ m.answeredBy e) :
    l.head? = some a ∧ m'.removed = m.removed ++ [a] ∧
      ∀ u b, (m'.pc u).job = some b → (m.pc u).job = some b := by
  cases e with
  | run t =>
    cases hpc : m.pc t with
    | takeUnlink ret =>
      cases ret with
      | none => simp [answeredBy, hpc] at ha
      | some job =>
        obtain rfl : a = job := by simpa [answeredBy, hpc] using ha
        have hfacts := h.facts t
        rw [hpc] at hfacts
        have hhead : l.head? = some a := hfacts.symm
        simp only [next, Option.ite_none_right_eq_some, Machine.exec, hpc,
          Option.some.injEq] at hm
        obtain ⟨-, rfl⟩ := hm
        cases l with
        | nil => cases hhead
        | cons b l =>
          obtain rfl : b = a := Option.some.inj hhead
          obtain ⟨cell, q, -, hcell, hset, -, -, -⟩ := h.holds.unlink
          simp only [Machine.unlinkHead, hcell, Machine.store, hset]
          refine ⟨rfl, trivial, ?_⟩
          intro u c hu
          by_cases hut : u = t
          · subst hut
            simp [withQueue, Machine.goto, Pc.job] at hu
          · simpa [withQueue, Machine.goto, Function.update_of_ne hut] using hu
    | _ => simp [answeredBy, hpc] at ha
  | _ => cases ha

/-- Every job has one place, where listeners have taken the jobs `answered`. -/
structure Owned (m : Machine numListener numWorkers) (answered : List Nat) : Prop where
  nodup : m.accepted.Nodup
  below : ∀ a ∈ m.accepted, a < m.queue.brk
  making : ∀ u a, (m.pc u).newJob = some a → a < m.queue.brk ∧ a ∉ m.accepted
  holding : ∀ u a, (m.pc u).job = some a → a ∈ m.removed ∧ a ∉ answered
  single : ∀ u v a, (m.pc u).job = some a → (m.pc v).job = some a → u = v
  answered : ∀ a ∈ answered, a ∈ m.removed

theorem owned_init (left : Job) :
    (init left : Machine numListener numWorkers).Owned [] where
  nodup := List.nodup_nil
  below a ha := by cases ha
  making u a ha := by cases u <;> cases ha
  holding u a ha := by cases u <;> cases ha
  single u v a ha _ := by cases u <;> cases ha
  answered a ha := by cases ha

namespace Owned

variable {answered : List Nat}

theorem crash (ho : m.Owned answered) : m.crash.Owned answered :=
  ⟨ho.nodup, ho.below, ho.making, ho.holding, ho.single, ho.answered⟩

/-- The first job of the list has not been taken. -/
theorem head_notMem_removed (ho : m.Owned answered) (h : m.Inv l) {a : Nat}
    (ha : l.head? = some a) : a ∉ m.removed := by
  have hnodup : (m.removed ++ l).Nodup := h.conserved.nodup_iff.mp ho.nodup
  intro hmem
  exact (List.nodup_append.mp hnodup).2.2 a hmem a (List.mem_of_mem_head? ha) rfl

/-- A move keeps every job in one place. -/
theorem next {e : Move numListener numWorkers} (ho : m.Owned answered) (h : m.Inv l)
    (hm : next maxQueueSize m e = some m') : m'.Owned (answered ++ m.answeredBy e) := by
  have heffect := next_effect h hm
  have htaken : ∀ a ∈ m.answeredBy e, l.head? = some a ∧ m'.removed = m.removed ++ [a] ∧
      ∀ u b, (m'.pc u).job = some b → (m.pc u).job = some b :=
    fun a ha => taken_of_answeredBy h hm ha
  refine ⟨?_, ?_, ?_, ?_, ?_, ?_⟩
  · cases heffect with
    | quiet _ _ _ accepted _ => rw [accepted]; exact ho.nodup
    | made t r _ heq => rw [heq]; exact ho.nodup
    | linked t start newJob hat _ _ _ accepted _ =>
      have hnew := (ho.making t newJob (by rw [hat]; rfl)).2
      rw [accepted]
      exact ho.nodup.append (List.nodup_singleton _) (by simpa using hnew)
    | taken _ _ _ _ _ _ _ _ _ accepted _ => rw [accepted]; exact ho.nodup
  · intro a ha
    have hle := heffect.brk_le
    cases heffect with
    | quiet _ _ _ accepted _ => rw [accepted] at ha; exact (ho.below a ha).trans_le hle
    | made t r _ heq => rw [heq] at ha hle ⊢; exact (ho.below a ha).trans_le hle
    | linked t start newJob hat _ _ _ accepted _ =>
      rw [accepted, List.mem_append, List.mem_singleton] at ha
      rcases ha with ha | rfl
      · exact (ho.below a ha).trans_le hle
      · exact (ho.making t a (by rw [hat]; rfl)).1.trans_le hle
    | taken _ _ _ _ _ _ _ _ _ accepted _ => rw [accepted] at ha; exact (ho.below a ha).trans_le hle
  · intro u a hu
    cases heffect with
    | quiet hpc _ brk accepted _ =>
      rw [brk, accepted]
      rcases hpc u with heq | hgoes
      · rw [heq] at hu
        exact ho.making u a hu
      · exact ho.making u a (hgoes.newJob a hu)
    | made t r _ heq =>
      subst heq
      by_cases hut : u = t
      · subst hut
        obtain rfl : m.queue.brk = a := by
          simpa [withQueue, Machine.goto, Pc.newJob] using hu
        exact ⟨Nat.lt_succ_self _, fun ha => lt_irrefl _ (ho.below _ ha)⟩
      · have hbefore : (m.pc u).newJob = some a := by
          simpa [withQueue, Machine.goto, Function.update_of_ne hut] using hu
        exact ⟨Nat.lt_succ_of_lt (ho.making u a hbefore).1, (ho.making u a hbefore).2⟩
    | linked t start newJob hat hpc _ _ _ _ =>
      by_cases hut : u = t
      · subst hut
        rw [hpc, Function.update_self] at hu
        cases hu
      · rw [hpc, Function.update_of_ne hut] at hu
        have hboth := h.exclusive u t (Pc.inRegion_of_newJob hu) (by rw [hat]; rfl)
        exact absurd hboth hut
    | taken t job pc _ _ hat hpc _ brk accepted _ =>
      rw [brk, accepted]
      by_cases hut : u = t
      · subst hut
        rw [hpc, Function.update_self] at hu
        rcases hat with ⟨-, rfl⟩ | ⟨-, rfl⟩
        · cases hu
        · cases hu
      · rw [hpc, Function.update_of_ne hut] at hu
        exact ho.making u a hu
  · intro u a hu
    rcases heffect.holder hu with ⟨hbefore, -⟩ | ⟨-, hhead, hremoved, -⟩
    · obtain ⟨hmem, hnot⟩ := ho.holding u a hbefore
      refine ⟨heffect.removed_subset hmem, ?_⟩
      rw [List.mem_append, not_or]
      exact ⟨hnot, fun ha => ho.head_notMem_removed h (htaken a ha).1 hmem⟩
    · have hfree := ho.head_notMem_removed h hhead
      refine ⟨hremoved, ?_⟩
      rw [List.mem_append, not_or]
      exact ⟨fun ha => hfree (ho.answered a ha),
        fun ha => hfree (ho.holding u a ((htaken a ha).2.2 u a hu)).1⟩
  · intro u v a hu hv
    rcases heffect.holder hu with ⟨hbu, -⟩ | ⟨-, hhead, -, hpc⟩
    · rcases heffect.holder hv with ⟨hbv, -⟩ | ⟨-, hhead, -, -⟩
      · exact ho.single u v a hbu hbv
      · exact absurd (ho.holding u a hbu).1 (ho.head_notMem_removed h hhead)
    · by_contra hne
      rw [hpc, Function.update_of_ne (Ne.symm hne)] at hv
      exact ho.head_notMem_removed h hhead (ho.holding v a hv).1
  · intro a ha
    rcases List.mem_append.mp ha with ha | ha
    · exact heffect.removed_subset (ho.answered a ha)
    · rw [(htaken a ha).2.1]
      exact List.mem_append_right _ List.mem_cons_self

end Owned

end Machine

end Cs537.P6
