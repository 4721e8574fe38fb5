import Cs537.P3.Wsh

/-!
# The job table and the children

What `waitpid` does to the children, and what keeps the table and the children in step: `Sound`
allows for one id that is taken before its entry is filled, and for one foreground job that has been
reaped before its entry is cleared.
-/

namespace Cs537.P3

open Cs537.Lib

/-! ## Waiting -/

/-- The child has ended and waits to be reaped. -/
def ended (cs : Children) (pid : Int) : Bool :=
  match cs.lookup pid with
  | some (.zombie _) => true
  | _ => false

/-- What `waitpid` does, by the state of the child. -/
theorem waitpid_cases (cs : Children) (pid : Int) (nohang untraced : Bool) :
    (cs.lookup pid = none ∧ waitpid cs pid nohang untraced = (.failed, cs)) ∨
    (∃ exited, cs.lookup pid = some (.zombie exited) ∧
      waitpid cs pid nohang untraced =
        (.reports (if exited then .exited else .signaled), cs.erase pid)) ∨
    (cs.lookup pid = some (.stopped false) ∧ untraced = true ∧
      waitpid cs pid nohang untraced = (.reports .stopped, cs.insert pid (.stopped true))) ∨
    (∃ child, cs.lookup pid = some child ∧ (∀ exited, child ≠ .zombie exited) ∧
      waitpid cs pid nohang untraced = (if nohang then .nothing else .blocks, cs)) := by
  unfold waitpid
  cases hchild : cs.lookup pid with
  | none => exact .inl ⟨rfl, rfl⟩
  | some child =>
    cases child with
    | running =>
      refine .inr (.inr (.inr ⟨_, rfl, fun _ => Child.noConfusion, ?_⟩))
      cases nohang <;> rfl
    | zombie exited => exact .inr (.inl ⟨exited, rfl, rfl⟩)
    | stopped reported =>
      cases reported with
      | false =>
        cases untraced with
        | true => exact .inr (.inr (.inl ⟨rfl, rfl, rfl⟩))
        | false =>
          refine .inr (.inr (.inr ⟨_, rfl, fun _ => Child.noConfusion, ?_⟩))
          cases nohang <;> rfl
      | true =>
        refine .inr (.inr (.inr ⟨_, rfl, fun _ => Child.noConfusion, ?_⟩))
        cases nohang <;> rfl

/-- No child is reaped. -/
def Keeps (cs cs' : Children) : Prop := ∀ pid, cs.lookup pid ≠ none → cs'.lookup pid ≠ none

/-- No child is reaped but `pid`. -/
def KeepsBut (pid : Int) (cs cs' : Children) : Prop :=
  ∀ q, q ≠ pid → cs.lookup q ≠ none → cs'.lookup q ≠ none

theorem keeps_refl (cs : Children) : Keeps cs cs := fun _ h => h

theorem keeps_insert (cs : Children) (pid : Int) (child : Child) :
    Keeps cs (cs.insert pid child) := by
  intro q hq
  by_cases heq : q = pid
  · subst heq
    rw [AList.lookup_insert]
    exact Option.some_ne_none child
  · rwa [AList.lookup_insert_ne heq]

theorem Keeps.but {cs cs' : Children} (h : Keeps cs cs') (pid : Int) : KeepsBut pid cs cs' :=
  fun q _ hq => h q hq

theorem keepsBut_erase (cs : Children) (pid : Int) : KeepsBut pid cs (cs.erase pid) := by
  intro q hne hq
  rwa [AList.lookup_erase_ne hne]

/-- A child that has not ended is not reaped. -/
theorem keeps_waitpid {cs : Children} {pid : Int} (hended : ended cs pid = false)
    (nohang untraced : Bool) : Keeps cs (waitpid cs pid nohang untraced).2 := by
  rcases waitpid_cases cs pid nohang untraced with ⟨-, heq⟩ | ⟨exited, hzombie, -⟩ | ⟨-, -, heq⟩ |
    ⟨child, -, -, heq⟩
  · rw [heq]
    exact keeps_refl cs
  · rw [ended, hzombie] at hended
    cases hended
  · rw [heq]
    exact keeps_insert cs pid _
  · rw [heq]
    exact keeps_refl cs

theorem keeps_cont (cs : Children) (pid : Int) : Keeps cs (cont cs pid) := by
  unfold cont
  split
  · exact keeps_insert cs pid _
  · exact keeps_refl cs

theorem keeps_stop (cs : Children) (pid : Int) : Keeps cs (stop cs pid) := by
  unfold stop
  split
  · exact keeps_insert cs pid _
  · exact keeps_refl cs

theorem keeps_kill (cs : Children) (pid : Int) : Keeps cs (kill cs pid) := by
  unfold kill
  split
  · exact keeps_refl cs
  · exact keeps_refl cs
  · exact keeps_insert cs pid _

theorem keeps_terminate (cs : Children) (pid : Int) : Keeps cs (terminate cs pid) := by
  unfold terminate
  split
  · exact keeps_insert cs pid _
  · exact keeps_refl cs

/-! ## The table -/

/-- The entries that are left after one was cleared. -/
theorem update_none_eq_some {jobArr : Int → Option Job} {i j : Int} {job : Job} :
    Function.update jobArr i none j = some job ↔ j ≠ i ∧ jobArr j = some job := by
  by_cases hji : j = i
  · rw [hji, Function.update_self]
    simp
  · rw [Function.update_of_ne hji]
    simp [hji]

/-- The table and the children. While a job is being started, its id `num` is taken without an
entry; the foreground job with id `loose` may have been reaped and not yet taken out. -/
structure Sound (ids : Int → Int) (jobArr : Int → Option Job) (cs : Children)
    (num loose : Option Int) : Prop where
  range : ∀ i job, jobArr i = some job → 0 ≤ i ∧ i < 256 ∧ job.id = i + 1
  bit : ∀ i, ids i = 0 ∨ ids i = 1
  agree : ∀ i, 0 ≤ i → i < 256 → (ids i = 1 ↔ jobArr i ≠ none ∨ num = some (i + 1))
  live : ∀ i job, jobArr i = some job →
    cs.lookup job.pid ≠ none ∨ loose = some (i + 1) ∧ job.jobStatus = .fg
  distinct : ∀ i j job job', jobArr i = some job → jobArr j = some job' → job.pid = job'.pid → i = j

namespace Sound

variable {ids : Int → Int} {jobArr : Int → Option Job} {cs cs' : Children} {num loose : Option Int}
  {i : Int} {job : Job}

theorem keeps (h : Sound ids jobArr cs num loose) (hkeeps : Keeps cs cs') :
    Sound ids jobArr cs' num loose := by
  refine ⟨h.range, h.bit, h.agree, ?_, h.distinct⟩
  intro i job hjob
  exact (h.live i job hjob).imp_left (hkeeps job.pid)

theorem weaken (h : Sound ids jobArr cs num none) (loose : Option Int) :
    Sound ids jobArr cs num loose := by
  refine ⟨h.range, h.bit, h.agree, ?_, h.distinct⟩
  intro i job hjob
  rcases h.live i job hjob with hlive | ⟨hnone, -⟩
  · exact .inl hlive
  · cases hnone

/-- The job that may have been reaped is not there, or has not. -/
theorem tight (h : Sound ids jobArr cs num loose)
    (hloose : ∀ i job, loose = some (i + 1) → jobArr i = some job → job.jobStatus = .fg →
      cs.lookup job.pid ≠ none) : Sound ids jobArr cs num none := by
  refine ⟨h.range, h.bit, h.agree, ?_, h.distinct⟩
  intro i job hjob
  left
  rcases h.live i job hjob with hlive | ⟨hid, hfg⟩
  · exact hlive
  · exact hloose i job hid hjob hfg

/-- A job whose process may be reaped now is taken out. -/
theorem clear (h : Sound ids jobArr cs num loose) (hjob : jobArr i = some job)
    (hnum : num ≠ some (i + 1)) (hloose : ∀ id, loose = some id → id = i + 1)
    (hothers : KeepsBut job.pid cs cs') :
    Sound (Function.update ids i 0) (Function.update jobArr i none) cs' num none := by
  refine ⟨fun j job' hj => h.range j job' (update_none_eq_some.mp hj).2, ?_, ?_, ?_, ?_⟩
  · intro j
    by_cases hji : j = i
    · rw [hji, Function.update_self]
      exact .inl rfl
    · rw [Function.update_of_ne hji]
      exact h.bit j
  · intro j h0 h1
    by_cases hji : j = i
    · subst hji
      rw [Function.update_self, Function.update_self]
      constructor
      · intro hzero
        cases hzero
      · rintro (hne | hid)
        · exact absurd rfl hne
        · exact absurd hid hnum
    · rw [Function.update_of_ne hji, Function.update_of_ne hji]
      exact h.agree j h0 h1
  · intro j job' hj
    obtain ⟨hji, hj⟩ := update_none_eq_some.mp hj
    left
    refine hothers job'.pid ?_ ?_
    · intro hpid
      exact hji (h.distinct j i job' job hj hjob hpid)
    · rcases h.live j job' hj with hlive | ⟨hid, -⟩
      · exact hlive
      · have := hloose _ hid
        omega
  · intro j k job₁ job₂ hj hk
    exact h.distinct j k job₁ job₂ (update_none_eq_some.mp hj).2 (update_none_eq_some.mp hk).2

/-- The process of a foreground job is reaped. -/
theorem reap (h : Sound ids jobArr cs num none) (hjob : jobArr i = some job)
    (hfg : job.jobStatus = .fg) (hothers : KeepsBut job.pid cs cs') :
    Sound ids jobArr cs' num (some (i + 1)) := by
  refine ⟨h.range, h.bit, h.agree, ?_, h.distinct⟩
  intro j job' hj
  by_cases hji : j = i
  · subst hji
    rw [hjob] at hj
    cases hj
    exact .inr ⟨rfl, hfg⟩
  · left
    refine hothers job'.pid ?_ ?_
    · intro hpid
      exact hji (h.distinct j i job' job hj hjob hpid)
    · rcases h.live j job' hj with hlive | ⟨hnone, -⟩
      · exact hlive
      · cases hnone

/-- A process that no job has is reaped. -/
theorem reap_other (h : Sound ids jobArr cs num none) {pid : Int}
    (hother : ∀ i job, jobArr i = some job → job.pid ≠ pid) (hothers : KeepsBut pid cs cs') :
    Sound ids jobArr cs' num none := by
  refine ⟨h.range, h.bit, h.agree, ?_, h.distinct⟩
  intro i job hjob
  exact (h.live i job hjob).imp_left (hothers job.pid (hother i job hjob))

/-- `job_status` of an entry changes. -/
theorem setStatus (h : Sound ids jobArr cs num loose) (i : Int) (status : JobStatus)
    (hok : status = .fg ∨ ∀ job, jobArr i = some job → cs.lookup job.pid ≠ none) :
    Sound ids (Function.update jobArr i
      ((jobArr i).map fun job => { job with jobStatus := status })) cs num loose := by
  have hold {j : Int} {job' : Job} (hj : Function.update jobArr i
      ((jobArr i).map fun job => { job with jobStatus := status }) j = some job') :
      ∃ job, jobArr j = some job ∧ job.id = job'.id ∧ job.pid = job'.pid ∧
        (j = i ∧ job'.jobStatus = status ∨ job' = job) := by
    by_cases hji : j = i
    · rw [hji, Function.update_self] at hj
      obtain ⟨job, hjob, rfl⟩ := Option.map_eq_some_iff.mp hj
      exact ⟨job, hji ▸ hjob, rfl, rfl, .inl ⟨hji, rfl⟩⟩
    · rw [Function.update_of_ne hji] at hj
      exact ⟨job', hj, rfl, rfl, .inr rfl⟩
  refine ⟨?_, h.bit, ?_, ?_, ?_⟩
  · intro j job' hj
    obtain ⟨job, hjob, hid, -, -⟩ := hold hj
    rw [← hid]
    exact h.range j job hjob
  · intro j h0 h1
    rw [h.agree j h0 h1]
    by_cases hji : j = i
    · rw [hji, Function.update_self]
      simp only [ne_eq, Option.map_eq_none_iff]
    · rw [Function.update_of_ne hji]
  · intro j job' hj
    obtain ⟨job, hjob, -, hpid, hcase⟩ := hold hj
    rw [← hpid]
    rcases h.live j job hjob with hlive | ⟨hid, hfg⟩
    · exact .inl hlive
    · rcases hcase with ⟨rfl, hstatus⟩ | rfl
      · rcases hok with rfl | hlive
        · exact .inr ⟨hid, hstatus⟩
        · exact .inl (hlive job hjob)
      · exact .inr ⟨hid, hfg⟩
  · intro j k job₁ job₂ hj hk hpid
    obtain ⟨job₁', hj, -, hpid₁, -⟩ := hold hj
    obtain ⟨job₂', hk, -, hpid₂, -⟩ := hold hk
    exact h.distinct j k job₁' job₂' hj hk (by rw [hpid₁, hpid₂, hpid])

/-- `setjobid` takes an id that no job has. -/
theorem number (h : Sound ids jobArr cs none none) (h0 : 0 ≤ i) (h1 : i < 256)
    (hfree : ids i = 0) : jobArr i = none ∧
      Sound (Function.update ids i 1) jobArr cs (some (i + 1)) none := by
  have hnone : jobArr i = none := by
    by_contra hjob
    have := (h.agree i h0 h1).mpr (.inl hjob)
    omega
  refine ⟨hnone, h.range, ?_, ?_, h.live, h.distinct⟩
  · intro j
    by_cases hji : j = i
    · rw [hji, Function.update_self]
      exact .inr rfl
    · rw [Function.update_of_ne hji]
      exact h.bit j
  · intro j hj0 hj1
    by_cases hji : j = i
    · subst hji
      rw [Function.update_self]
      exact ⟨fun _ => .inr rfl, fun _ => rfl⟩
    · rw [Function.update_of_ne hji, h.agree j hj0 hj1]
      have hne : (some (i + 1) : Option Int) ≠ some (j + 1) := by
        intro heq
        have := Option.some.inj heq
        omega
      simp only [hne, reduceCtorEq]

/-- `add_job` fills the entry of the new id. -/
theorem add (h : Sound ids jobArr cs (some (i + 1)) none) (h0 : 0 ≤ i) (h1 : i < 256)
    (hnone : jobArr i = none) (status : JobStatus) {pid : Int} (hlive : cs.lookup pid ≠ none)
    (hfresh : ∀ j job, jobArr j = some job → job.pid ≠ pid) :
    Sound ids (Function.update jobArr i (some ⟨i + 1, status, pid⟩)) cs none none := by
  have hold {j : Int} {job : Job}
      (hj : Function.update jobArr i (some ⟨i + 1, status, pid⟩) j = some job) :
      (j = i ∧ job = ⟨i + 1, status, pid⟩) ∨ (j ≠ i ∧ jobArr j = some job) := by
    by_cases hji : j = i
    · rw [hji, Function.update_self] at hj
      exact .inl ⟨hji, (Option.some.inj hj).symm⟩
    · rw [Function.update_of_ne hji] at hj
      exact .inr ⟨hji, hj⟩
  refine ⟨?_, h.bit, ?_, ?_, ?_⟩
  · intro j job hj
    rcases hold hj with ⟨rfl, rfl⟩ | ⟨-, hj⟩
    · exact ⟨h0, h1, rfl⟩
    · exact h.range j job hj
  · intro j hj0 hj1
    rw [h.agree j hj0 hj1]
    by_cases hji : j = i
    · subst hji
      rw [Function.update_self]
      simp only [hnone, ne_eq, not_true_eq_false, or_true, reduceCtorEq, not_false_eq_true, or_false]
    · rw [Function.update_of_ne hji]
      have hne : (some (i + 1) : Option Int) ≠ some (j + 1) := by
        intro heq
        have := Option.some.inj heq
        omega
      simp only [hne, reduceCtorEq]
  · intro j job hj
    rcases hold hj with ⟨rfl, rfl⟩ | ⟨-, hj⟩
    · exact .inl hlive
    · exact h.live j job hj
  · intro j k job₁ job₂ hj hk hpid
    rcases hold hj with ⟨rfl, rfl⟩ | ⟨-, hold₁⟩
    · rcases hold hk with ⟨rfl, -⟩ | ⟨-, hold₂⟩
      · rfl
      · exact absurd hpid.symm (hfresh k job₂ hold₂)
    · rcases hold hk with ⟨rfl, rfl⟩ | ⟨-, hold₂⟩
      · exact absurd hpid (hfresh j job₁ hold₁)
      · exact h.distinct j k job₁ job₂ hold₁ hold₂ hpid

end Sound

end Cs537.P3
