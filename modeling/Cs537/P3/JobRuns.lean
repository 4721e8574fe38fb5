import Cs537.Lib.Run
import Cs537.P3.JobTable

/-!
# Runs of the shell

A job whose process has been reaped must leave the table before the next line is read. Only
`remove_jobs` and `fg_remove` take jobs out, and `fg_remove` does so only if it finds that the
process exited: when `exec_cmds` or `put_foreground` has reaped it already, that depends on the
uninitialised `status`. `pipe_dealer` and the `WNOHANG` poll behind a background command reap
without looking at the table. In the runs in which that does no harm, the table and the children
agree after every `remove_jobs`.
-/

namespace Cs537.P3

open Cs537.Lib

/-! ## The invariant -/

/-- The id that is taken without an entry. -/
def Pc.num : Pc → Option Int
  | .numbered _ _ id => some id
  | _ => none

/-- Where `curr_fg_id` may be set. -/
def Pc.busy : Pc → Bool
  | .prompt | .waiting _ _ | .fgRemove | .exited => true
  | _ => false

namespace Shell

/-- The id of the foreground job whose process may have been reaped. -/
def loose (s : Shell) : Option Int :=
  match s.pc with
  | .fgSet id => some id
  | .prompt | .fgRemove => some s.currFgId
  | _ => none

/-- What holds where the shell is. -/
def Here (s : Shell) : Prop :=
  match s.pc with
  | .forked pid _ =>
    s.children.lookup pid ≠ none ∧ ∀ i job, s.jobArr i = some job → job.pid ≠ pid
  | .numbered pid _ id =>
    (s.children.lookup pid ≠ none ∧ ∀ i job, s.jobArr i = some job → job.pid ≠ pid) ∧
      1 ≤ id ∧ id ≤ 256 ∧ s.jobArr (id - 1) = none
  | .added pid id | .waiting pid id => ∀ job, s.jobArr (id - 1) = some job → job.pid = pid
  | .fgWait id => ∃ job, s.jobArr (id - 1) = some job ∧ job.jobStatus = .fg
  | _ => True

/-- The invariant of the runs. -/
structure Inv (s : Shell) : Prop where
  sound : Sound s.ids s.jobArr s.children s.pc.num s.loose
  quiet : s.pc.busy = false → s.currFgId = -1
  here : s.Here

/-- `fg_remove` does no harm: if the process of the foreground job has been reaped already, the
uninitialised `status` reads as exited; and no process that a signal killed is reaped. -/
def FgOk (s : Shell) (garbage : Status) : Prop :=
  s.currFgId ≠ -1 → ∀ job ∈ s.jobArr (s.currFgId - 1), job.jobStatus = .fg →
    (s.children.lookup job.pid = none → garbage = .exited) ∧
      s.children.lookup job.pid ≠ some (.zombie false)

/-- The steps of the shell that keep the table right: an id is free for each new job; a foreground
process that has ended is reaped while it is the current job and in the foreground; a background
process has not ended when it is polled; `fg_remove` does no harm; and a pipeline reaps no process
of a job. -/
def StepOk (s : Shell) (pid : Int) (garbage : Status) : Pc → Prop
  | .forked _ _ => (findFrom (fun i => s.ids i = 0) 256 0).isSome
  | .waiting child id => ended s.children child →
      s.currFgId = id ∧ (s.jobArr (id - 1)).map Job.jobStatus = some .fg
  | .polling child => ended s.children child = false
  | .fgRemove => s.FgOk garbage
  | .pipeWait => ∀ i ∈ List.range 256, ∀ job ∈ s.jobArr (i : Nat), job.pid ≠ pid
  | _ => True

/-- The events that keep the table right: besides such steps, a line is read after `fg_remove` has
dealt with the last foreground job, and no job that was reaped is marked as stopped. -/
def Careful (s : Shell) : Event → Prop
  | .read _ => s.currFgId = -1
  | .shell pid garbage => s.StepOk pid garbage s.pc
  | .sigchld garbage => s.FgOk garbage
  | .sigtstp =>
    s.currFgId ≠ -1 → ∀ job ∈ s.jobArr (s.currFgId - 1), s.children.lookup job.pid ≠ none
  | _ => True

variable {s s' : Shell} {garbage : Status}

/-! ## Handlers -/

/-- Something happens to a child. -/
theorem Inv.setChildren (h : s.Inv) {cs : Children} (hkeeps : Keeps s.children cs) :
    ({ s with children := cs } : Shell).Inv := by
  refine ⟨h.sound.keeps hkeeps, h.quiet, ?_⟩
  have hhere := h.here
  unfold Here at hhere ⊢
  cases hpc : s.pc with
  | forked pid background =>
    simp only [hpc] at hhere ⊢
    exact ⟨hkeeps pid hhere.1, hhere.2⟩
  | numbered pid background id =>
    simp only [hpc] at hhere ⊢
    exact ⟨⟨hkeeps pid hhere.1.1, hhere.1.2⟩, hhere.2⟩
  | added pid id => simpa only [hpc] using hhere
  | waiting pid id => simpa only [hpc] using hhere
  | fgWait id => simpa only [hpc] using hhere
  | _ => trivial

/-- What `fg_remove` does: nothing but to reset `curr_fg_id`; or it waits for the current job, which
is in the foreground, and clears the entry, or finds it stopped, or leaves the entry of a process
that is gone. -/
theorem fgRemove_cases (hrun : s.fgRemove garbage = some s') :
    (s.currFgId = -1 ∧ s' = s) ∨
    ((∀ job, s.jobArr (s.currFgId - 1) = some job → job.jobStatus ≠ .fg) ∧
      s' = { s with currFgId := -1 }) ∨
    ∃ job, s.currFgId ≠ -1 ∧ s.jobArr (s.currFgId - 1) = some job ∧ job.jobStatus = .fg ∧
      ((∃ cs, KeepsBut job.pid s.children cs ∧
          s' = ({ s with children := cs, currFgId := -1 } : Shell).clear (s.currFgId - 1)) ∨
        s' = { s with children := s.children.insert job.pid (.stopped true), currFgId := -1 } ∨
        (s.children.lookup job.pid = none ∧ garbage ≠ .exited ∨
          s.children.lookup job.pid = some (.zombie false))) := by
  unfold Shell.fgRemove at hrun
  by_cases hidle : s.currFgId = -1
  · rw [if_pos hidle] at hrun
    cases hrun
    exact .inl ⟨hidle, rfl⟩
  · rw [if_neg hidle] at hrun
    right
    cases hjob : s.jobArr (s.currFgId - 1) with
    | none =>
      simp only [hjob] at hrun
      cases hrun
      refine .inl ⟨?_, rfl⟩
      intro job hjob'
      cases hjob'
    | some job =>
      simp only [hjob] at hrun
      by_cases hfg : job.jobStatus = .fg
      · rw [if_pos hfg] at hrun
        refine .inr ⟨job, hidle, rfl, hfg, ?_⟩
        rcases waitpid_cases s.children job.pid false true with ⟨hnone, heq⟩ |
          ⟨exited, hzombie, heq⟩ | ⟨-, -, heq⟩ | ⟨child, -, -, heq⟩
        · -- reaped before: the garbage decides
          rw [heq] at hrun
          by_cases hgarbage : garbage = .exited
          · simp only [Waited.status, hgarbage, if_true] at hrun
            cases hrun
            exact .inl ⟨s.children, (keeps_refl _).but _, rfl⟩
          · exact .inr (.inr (.inl ⟨hnone, hgarbage⟩))
        · cases exited with
          | false => exact .inr (.inr (.inr hzombie))
          | true =>
            rw [heq] at hrun
            simp only [Waited.status, if_true] at hrun
            cases hrun
            exact .inl ⟨_, keepsBut_erase _ _, rfl⟩
        · rw [heq] at hrun
          simp only [Waited.status, reduceCtorEq, if_false] at hrun
          cases hrun
          exact .inr (.inl rfl)
        · rw [heq] at hrun
          cases hrun
      · rw [if_neg hfg] at hrun
        cases hrun
        refine .inl ⟨?_, rfl⟩
        intro job' hjob'
        cases hjob'
        exact hfg

theorem num_of_busy {pc : Pc} (hbusy : pc.busy = true) : pc.num = none := by
  cases pc <;> first | rfl | cases hbusy

/-- Only the current job may have been reaped where `curr_fg_id` may be set. -/
theorem loose_of_busy (hbusy : s.pc.busy = true) {id : Int} (hid : s.loose = some id) :
    s.currFgId = id := by
  unfold loose at hid
  cases hpc : s.pc <;> simp only [hpc, Pc.busy, reduceCtorEq] at hbusy hid <;>
    exact Option.some.inj hid

/-- `fg_remove` where it does no harm: `curr_fg_id` is reset and no reaped job is left. -/
theorem Inv.fgRemove (h : s.Inv) (hbusy : s.pc.busy = true) (hok : s.FgOk garbage)
    (hrun : s.fgRemove garbage = some s') :
    s'.currFgId = -1 ∧ s'.pc = s.pc ∧ Sound s'.ids s'.jobArr s'.children none none ∧
      ∀ i job, s'.jobArr i = some job → s.jobArr i = some job := by
  have hsound := h.sound
  rw [num_of_busy hbusy] at hsound
  have hcurr {i : Int} (hi : s.loose = some (i + 1)) : s.currFgId - 1 = i := by
    have := loose_of_busy hbusy hi
    omega
  rcases fgRemove_cases hrun with ⟨hidle, rfl⟩ | ⟨hnone, rfl⟩ | ⟨job, hcurr', hjob, hfg, hcase⟩
  · refine ⟨hidle, rfl, hsound.tight ?_, fun _ _ hj => hj⟩
    intro i job hi hjob
    have := hsound.range i job hjob
    have := hcurr hi
    omega
  · refine ⟨rfl, rfl, hsound.tight ?_, fun _ _ hj => hj⟩
    intro i job hi hjob hfg
    exact absurd hfg (hnone job (hcurr hi ▸ hjob))
  · rcases hcase with ⟨cs, hkeeps, rfl⟩ | rfl | hgone
    · refine ⟨rfl, rfl, hsound.clear hjob (by simp) ?_ hkeeps,
        fun _ _ hj => (update_none_eq_some.mp hj).2⟩
      intro id hid
      have := loose_of_busy hbusy hid
      omega
    · refine ⟨rfl, rfl, (hsound.keeps (keeps_insert _ _ _)).tight ?_, fun _ _ hj => hj⟩
      intro i job' hi hjob' _
      rw [hcurr hi, hjob'] at hjob
      cases hjob
      rw [AList.lookup_insert]
      exact Option.some_ne_none _
    · obtain ⟨hgarbage, hkilled⟩ := hok hcurr' job hjob hfg
      rcases hgone with ⟨hnone, hne⟩ | hzombie
      · exact absurd (hgarbage hnone) hne
      · exact absurd hzombie hkilled

/-- Where signals arrive, only the wait for a job says anything about the table. -/
theorem here_of_busy (hbusy : s.pc.busy = true) (h : ∀ pid id, s.pc = .waiting pid id →
    ∀ job, s.jobArr (id - 1) = some job → job.pid = pid) : s.Here := by
  unfold Here
  cases hpc : s.pc with
  | waiting pid id => exact h pid id hpc
  | prompt | fgRemove | exited => trivial
  | _ =>
    rw [hpc] at hbusy
    cases hbusy

/-- The handler of `SIGCHLD`. -/
theorem Inv.sigchld (h : s.Inv) (hok : s.FgOk garbage) (hrun : s.fgRemove garbage = some s') :
    s'.Inv := by
  cases hbusy : s.pc.busy with
  | false =>
    unfold Shell.fgRemove at hrun
    rw [if_pos (h.quiet hbusy)] at hrun
    cases hrun
    exact h
  | true =>
    obtain ⟨hcurr, hpc, hsound, hsub⟩ := h.fgRemove hbusy hok hrun
    refine ⟨?_, fun _ => hcurr, ?_⟩
    · rw [hpc, num_of_busy hbusy]
      exact hsound.weaken _
    · refine here_of_busy (hpc ▸ hbusy) fun pid id hwaiting job hjob => ?_
      have hhere := h.here
      rw [Here, ← hpc, hwaiting] at hhere
      exact hhere job (hsub _ job hjob)

/-- The handlers of `SIGINT` and `SIGTSTP` mark the current job. -/
theorem Inv.mark (h : s.Inv) (hcurr : s.currFgId ≠ -1) (status : JobStatus)
    (hok : status = .fg ∨ ∀ job, s.jobArr (s.currFgId - 1) = some job →
      s.children.lookup job.pid ≠ none) : (s.setStatus (s.currFgId - 1) status).Inv := by
  refine ⟨h.sound.setStatus _ _ hok, h.quiet, ?_⟩
  have hbusy : s.pc.busy = true := by
    by_contra hquiet
    exact hcurr (h.quiet (by simpa using hquiet))
  refine here_of_busy hbusy fun pid id hwaiting job hjob => ?_
  have hpc : s.pc = .waiting pid id := hwaiting
  have hhere := h.here
  rw [Here, hpc] at hhere
  simp only [setStatus] at hjob
  by_cases hi : id - 1 = s.currFgId - 1
  · rw [hi, Function.update_self] at hjob
    obtain ⟨job', hjob', rfl⟩ := Option.map_eq_some_iff.mp hjob
    exact hhere job' (hi ▸ hjob')
  · rw [Function.update_of_ne hi] at hjob
    exact hhere job hjob

theorem Inv.sigintHandler (h : s.Inv) : s.sigintHandler.Inv := by
  unfold Shell.sigintHandler
  by_cases hcurr : s.currFgId ≠ -1
  · rw [if_pos hcurr]
    exact h.mark hcurr _ (.inl rfl)
  · rw [if_neg hcurr]
    exact h

theorem Inv.sigtstpHandler (h : s.Inv) (hcareful : s.Careful .sigtstp) :
    s.sigtstpHandler.Inv := by
  unfold Shell.sigtstpHandler
  by_cases hcurr : s.currFgId ≠ -1
  · rw [if_pos hcurr]
    cases hjob : s.jobArr (s.currFgId - 1) with
    | none => exact h
    | some job =>
      have hmark := h.mark hcurr .stopped (.inr (hcareful hcurr))
      exact hmark.setChildren (keeps_stop _ _)
  · rw [if_neg hcurr]
    exact h

/-! ## Steps of the shell -/

section Tight

variable (hsound : Sound s.ids s.jobArr s.children none none) (hcurr : s.currFgId = -1)
include hsound

/-- No job has been reaped. -/
theorem lookup_ne_none {i : Int} {job : Job} (hjob : s.jobArr i = some job) :
    s.children.lookup job.pid ≠ none := by
  rcases hsound.live i job hjob with hlive | ⟨hnone, -⟩
  · exact hlive
  · cases hnone

/-- One round of `remove_jobs`. -/
theorem removeJob_sound {i : Int} (hrun : s.removeJob i = some s') :
    Sound s'.ids s'.jobArr s'.children none none ∧ s'.currFgId = s.currFgId := by
  unfold removeJob at hrun
  by_cases hid : s.ids i = 1
  · rw [if_pos hid] at hrun
    cases hjob : s.jobArr i with
    | none =>
      rw [hjob] at hrun
      cases hrun
    | some job =>
      simp only [hjob] at hrun
      have hlive := lookup_ne_none hsound hjob
      rcases waitpid_cases s.children job.pid true true with ⟨hnone, -⟩ | ⟨exited, -, heq⟩ |
        ⟨-, -, heq⟩ | ⟨child, -, -, heq⟩
      · exact absurd hnone hlive
      · rw [heq] at hrun
        cases hrun
        exact ⟨hsound.clear hjob (by simp) (by simp) (keepsBut_erase _ _), rfl⟩
      · rw [heq] at hrun
        cases hrun
        exact ⟨hsound.clear hjob (by simp) (by simp) ((keeps_insert _ _ _).but _), rfl⟩
      · rw [heq] at hrun
        cases hrun
        exact ⟨hsound, rfl⟩
  · rw [if_neg hid] at hrun
    cases hrun
    exact ⟨hsound, rfl⟩

include hcurr

/-- The shell is somewhere where nothing but the table matters. -/
theorem inv_of_sound {pc : Pc} (hnum : pc.num = none)
    (hhere : ({ s with pc := pc } : Shell).Here) : ({ s with pc := pc } : Shell).Inv := by
  refine ⟨?_, fun _ => hcurr, hhere⟩
  simp only [hnum]
  exact hsound.weaken _

theorem putForeground_inv (id : Int) : (s.putForeground id).Inv := by
  unfold putForeground
  cases hjob : s.jobArr (id - 1) with
  | none => exact inv_of_sound hsound hcurr rfl trivial
  | some job =>
    refine ⟨(hsound.setStatus (id - 1) .fg (.inl rfl)).keeps (keeps_cont _ _), fun _ => hcurr, ?_⟩
    refine ⟨{ job with jobStatus := .fg }, ?_, rfl⟩
    simp only [setStatus, Function.update_self, hjob, Option.map_some]

theorem putBackground_inv (id : Int) : ({ s.putBackground id with pc := .prompt } : Shell).Inv := by
  unfold putBackground
  cases hjob : s.jobArr (id - 1) with
  | none => exact inv_of_sound hsound hcurr rfl trivial
  | some job =>
    simp only
    by_cases hstopped : job.jobStatus = .stopped
    · rw [if_pos hstopped]
      have hset := hsound.setStatus (id - 1) .bg
        (.inr fun job hjob => lookup_ne_none hsound hjob)
      exact ⟨(hset.keeps (keeps_cont _ _)).weaken _, fun _ => hcurr, trivial⟩
    · rw [if_neg hstopped]
      exact inv_of_sound hsound hcurr rfl trivial

/-- `fork` makes a child that no job has. -/
theorem fork_sound {pid : Int} (hrun : s.fork pid = some s') :
    Sound s'.ids s'.jobArr s'.children none none ∧ s'.currFgId = -1 ∧
      s'.children.lookup pid ≠ none ∧ ∀ i job, s'.jobArr i = some job → job.pid ≠ pid := by
  unfold fork at hrun
  by_cases hfree : 1 < pid ∧ (s.children.lookup pid).isNone = true
  · rw [if_pos hfree] at hrun
    cases hrun
    refine ⟨hsound.keeps (keeps_insert _ _ _), hcurr, ?_, ?_⟩
    · simp only [AList.lookup_insert, ne_eq, reduceCtorEq, not_false_eq_true]
    · rintro i job hjob rfl
      exact lookup_ne_none hsound hjob (Option.isNone_iff_eq_none.mp hfree.2)
  · rw [if_neg hfree] at hrun
    cases hrun

/-- `exec_cmds` up to its first wait. -/
theorem execCmds_inv {pid : Int} {c : Command} (hrun : s.execCmds pid c = some s') : s'.Inv := by
  cases c with
  | exit =>
    cases hrun
    exact inv_of_sound hsound hcurr rfl trivial
  | cd =>
    cases hrun
    exact inv_of_sound hsound hcurr rfl trivial
  | jobs =>
    simp only [execCmds] at hrun
    split at hrun
    · cases hrun
      exact inv_of_sound hsound hcurr rfl trivial
    · cases hrun
  | fg id =>
    cases id with
    | some id =>
      cases hrun
      exact putForeground_inv hsound hcurr id
    | none =>
      simp only [execCmds] at hrun
      split at hrun
      · cases hrun
        exact putForeground_inv hsound hcurr _
      · cases hrun
        exact inv_of_sound hsound hcurr rfl trivial
  | bg id =>
    cases id with
    | some id =>
      cases hrun
      exact putBackground_inv hsound hcurr id
    | none =>
      simp only [execCmds] at hrun
      split at hrun
      · cases hrun
        exact putBackground_inv hsound hcurr _
      · cases hrun
        exact inv_of_sound hsound hcurr rfl trivial
  | run background =>
    obtain ⟨t, hfork, rfl⟩ := Option.map_eq_some_iff.mp hrun
    obtain ⟨hsound', hcurr', hlive, hfresh⟩ := fork_sound hsound hcurr hfork
    exact inv_of_sound hsound' hcurr' rfl ⟨hlive, hfresh⟩
  | pipe numCmd =>
    cases hrun
    exact inv_of_sound hsound hcurr rfl trivial

end Tight

/-- The rest of `put_foreground`. -/
theorem Inv.waitForeground {id : Int} (h : s.Inv) (hpc : s.pc = .fgWait id)
    (hrun : s.waitForeground id garbage = some s') : s'.Inv := by
  have hcurr := h.quiet (by rw [hpc]; rfl)
  have hsound := h.sound
  have hhere := h.here
  simp only [Here, loose, Pc.num, hpc] at hsound hhere
  obtain ⟨job, hjob, hfg⟩ := hhere
  have hlive := lookup_ne_none hsound hjob
  have hid : id - 1 + 1 = id := by omega
  unfold Shell.waitForeground at hrun
  simp only [hjob] at hrun
  rcases waitpid_cases s.children job.pid false true with ⟨hnone, -⟩ | ⟨exited, -, heq⟩ |
    ⟨-, -, heq⟩ | ⟨child, -, -, heq⟩
  · exact absurd hnone hlive
  · rw [heq] at hrun
    have hreap := hsound.reap hjob hfg (keepsBut_erase s.children job.pid)
    rw [hid] at hreap
    have hran : ¬ (Waited.reports (if exited then .exited else .signaled)).status garbage =
        .stopped := by
      cases exited <;> simp [Waited.status]
    simp only [if_neg hran] at hrun
    cases hrun
    exact ⟨hreap, fun _ => hcurr, trivial⟩
  · rw [heq] at hrun
    simp only [Waited.status, if_true] at hrun
    cases hrun
    have hkept := hsound.keeps (keeps_insert s.children job.pid (.stopped true))
    have hset := hkept.setStatus (id - 1) .stopped (.inr fun job' hjob' => by
      rw [hjob] at hjob'
      cases hjob'
      rw [AList.lookup_insert]
      exact Option.some_ne_none _)
    exact ⟨hset.weaken _, fun _ => hcurr, trivial⟩
  · rw [heq] at hrun
    cases hrun

/-- The wait of `exec_cmds` for a foreground command. -/
theorem Inv.waiting {pid child id : Int} (h : s.Inv) (hpc : s.pc = .waiting child id)
    (hcareful : ended s.children child = true →
      s.currFgId = id ∧ (s.jobArr (id - 1)).map Job.jobStatus = some .fg)
    (hrun : s.next pid garbage = some s') : s'.Inv := by
  have hsound := h.sound
  have hhere := h.here
  simp only [Here, loose, Pc.num, hpc] at hsound hhere
  simp only [Shell.next, hpc] at hrun
  rcases waitpid_cases s.children child false true with ⟨-, heq⟩ | ⟨exited, hzombie, heq⟩ |
    ⟨-, -, heq⟩ | ⟨_, -, -, heq⟩
  · rw [heq] at hrun
    cases hrun
    exact ⟨hsound, fun hquiet => absurd hquiet Bool.noConfusion, trivial⟩
  · rw [heq] at hrun
    cases hrun
    obtain ⟨hcurr, hstatus⟩ := hcareful (by rw [ended, hzombie])
    obtain ⟨job, hjob, hfg⟩ := Option.map_eq_some_iff.mp hstatus
    obtain rfl := hhere job hjob
    have hreap := hsound.reap hjob hfg (keepsBut_erase s.children job.pid)
    rw [show id - 1 + 1 = s.currFgId by omega] at hreap
    exact ⟨hreap, fun hquiet => absurd hquiet Bool.noConfusion, trivial⟩
  · rw [heq] at hrun
    cases hrun
    exact ⟨(hsound.keeps (keeps_insert _ _ _)).weaken _,
      fun hquiet => absurd hquiet Bool.noConfusion, trivial⟩
  · rw [heq] at hrun
    cases hrun

/-- `setjobid` and the id it returns. -/
theorem setjobid_some {ids : Int → Int} {i : Int}
    (hfind : findFrom (fun i => ids i = 0) 256 0 = some i) :
    setjobid ids = (i + 1, Function.update ids i 1) := by
  unfold setjobid
  rw [hfind]

/-- `add_job` and what follows it. -/
theorem Inv.numbered {pid child id : Int} {background : Bool} (h : s.Inv)
    (hpc : s.pc = .numbered child background id) (hrun : s.next pid garbage = some s') :
    s'.Inv := by
  have hsound := h.sound
  have hhere := h.here
  have hcurr := h.quiet (by rw [hpc]; rfl)
  simp only [loose, Pc.num, Here, hpc] at hsound hhere
  obtain ⟨⟨hlive, hfresh⟩, hlo, hhi, hnone⟩ := hhere
  have hid : id - 1 + 1 = id := by omega
  rw [← hid] at hsound
  have hadd (status : JobStatus) := hsound.add (by omega) (by omega) hnone status hlive hfresh
  rw [hid] at hadd
  cases background with
  | true =>
    simp only [Shell.next, hpc] at hrun
    cases hrun
    exact ⟨hadd .bg, fun _ => hcurr, trivial⟩
  | false =>
    simp only [Shell.next, hpc] at hrun
    cases hrun
    refine ⟨hadd .fg, fun _ => hcurr, ?_⟩
    intro job hjob
    simp only [addJob, Function.update_self] at hjob
    cases hjob
    rfl

/-- The wait of `pipe_dealer`. -/
theorem Inv.pipeWait {pid : Int} (h : s.Inv) (hpc : s.pc = .pipeWait)
    (hcareful : ∀ i ∈ List.range 256, ∀ job ∈ s.jobArr (i : Nat), job.pid ≠ pid)
    (hrun : s.next pid garbage = some s') : s'.Inv := by
  have hsound := h.sound
  have hcurr := h.quiet (by rw [hpc]; rfl)
  simp only [loose, Pc.num, hpc] at hsound
  simp only [Shell.next, hpc] at hrun
  split at hrun
  · cases hrun
    have hother (i : Int) (job : Job) (hjob : s.jobArr i = some job) : job.pid ≠ pid := by
      obtain ⟨h0, h1, -⟩ := hsound.range i job hjob
      obtain ⟨k, rfl⟩ := Int.eq_ofNat_of_zero_le h0
      exact hcareful k (List.mem_range.mpr (by omega)) job hjob
    exact ⟨hsound.reap_other hother (keepsBut_erase _ _), fun _ => hcurr, trivial⟩
  · split at hrun
    · cases hrun
      exact inv_of_sound hsound hcurr rfl trivial
    · cases hrun

/-- A careful step of the shell. -/
theorem Inv.next {pid : Int} (h : s.Inv) (hcareful : s.Careful (.shell pid garbage))
    (hrun : s.next pid garbage = some s') : s'.Inv := by
  have hsound := h.sound
  have hhere := h.here
  have hquiet := h.quiet
  cases hpc : s.pc with
  | prompt =>
    simp only [Shell.next, hpc] at hrun
    cases hrun
  | removing i c =>
    simp only [loose, Pc.num, Pc.busy, hpc] at hsound hquiet
    simp only [Shell.next, hpc] at hrun
    by_cases hi : i < 256
    · rw [if_pos hi] at hrun
      obtain ⟨t, hround, rfl⟩ := Option.map_eq_some_iff.mp hrun
      obtain ⟨hsound', hcurr⟩ := removeJob_sound hsound hround
      exact inv_of_sound hsound' (hcurr.trans (hquiet trivial)) rfl trivial
    · rw [if_neg hi] at hrun
      cases hrun
      exact inv_of_sound hsound (hquiet trivial) rfl trivial
  | ready c =>
    simp only [loose, Pc.num, Pc.busy, hpc] at hsound hquiet
    simp only [Shell.next, hpc] at hrun
    exact execCmds_inv hsound (hquiet trivial) hrun
  | forked child background =>
    simp only [loose, Pc.num, Pc.busy, Here, hpc] at hsound hquiet hhere
    simp only [Careful, StepOk, hpc] at hcareful
    obtain ⟨i, hfind⟩ := Option.isSome_iff_exists.mp hcareful
    obtain ⟨h0, h1, hfree, -⟩ := findFrom_eq_some hfind
    simp only [Shell.next, hpc, setjobid_some hfind] at hrun
    cases hrun
    obtain ⟨hnone, hsound'⟩ := hsound.number h0 (by omega) (of_decide_eq_true hfree)
    refine ⟨hsound', fun _ => hquiet trivial, hhere, by omega, by omega, ?_⟩
    rw [show i + 1 - 1 = i by omega]
    exact hnone
  | numbered child background id => exact h.numbered hpc hrun
  | added child id =>
    simp only [loose, Pc.num, Here, hpc] at hsound hhere
    simp only [Shell.next, hpc] at hrun
    cases hrun
    exact ⟨hsound, fun hquiet => absurd hquiet Bool.noConfusion, hhere⟩
  | waiting child id =>
    simp only [Careful, StepOk, hpc] at hcareful
    exact h.waiting hpc hcareful hrun
  | polling child =>
    simp only [loose, Pc.num, Pc.busy, hpc] at hsound hquiet
    simp only [Careful, StepOk, hpc] at hcareful
    simp only [Shell.next, hpc] at hrun
    cases hrun
    exact ⟨(hsound.keeps (keeps_waitpid hcareful true false)).weaken _, fun _ => hquiet trivial,
      trivial⟩
  | fgWait id =>
    simp only [Shell.next, hpc] at hrun
    exact h.waitForeground hpc hrun
  | fgSet id =>
    simp only [loose, Pc.num, hpc] at hsound
    simp only [Shell.next, hpc] at hrun
    cases hrun
    exact ⟨hsound, fun hquiet => absurd hquiet Bool.noConfusion, trivial⟩
  | fgRemove =>
    simp only [Careful, StepOk, hpc] at hcareful
    simp only [Shell.next, hpc] at hrun
    obtain ⟨t, hremove, rfl⟩ := Option.map_eq_some_iff.mp hrun
    obtain ⟨hcurr, -, hsound', -⟩ := h.fgRemove (by rw [hpc]; rfl) hcareful hremove
    exact inv_of_sound hsound' hcurr rfl trivial
  | piping left =>
    simp only [loose, Pc.num, Pc.busy, hpc] at hsound hquiet
    cases left with
    | zero =>
      simp only [Shell.next, hpc] at hrun
      cases hrun
      exact inv_of_sound hsound (hquiet trivial) rfl trivial
    | succ left =>
      simp only [Shell.next, hpc] at hrun
      obtain ⟨t, hfork, rfl⟩ := Option.map_eq_some_iff.mp hrun
      obtain ⟨hsound', hcurr', -, -⟩ := fork_sound hsound (hquiet trivial) hfork
      exact inv_of_sound hsound' hcurr' rfl trivial
  | pipeWait =>
    simp only [Careful, StepOk, hpc] at hcareful
    exact h.pipeWait hpc hcareful hrun
  | exited =>
    simp only [Shell.next, hpc] at hrun
    cases hrun

/-- A careful event. -/
theorem Inv.step {e : Event} (h : s.Inv) (hcareful : s.Careful e) (hstep : s.step e = some s') :
    s'.Inv := by
  cases e with
  | read c =>
    simp only [Shell.step] at hstep
    split at hstep
    · rename_i hpc
      cases hstep
      have hsound := h.sound
      simp only [loose, Pc.num, hpc] at hsound
      refine inv_of_sound (hsound.tight ?_) hcareful rfl trivial
      intro i job hi hjob
      obtain ⟨h0, -⟩ := hsound.range i job hjob
      have hcurr : s.currFgId = -1 := hcareful
      have := Option.some.inj hi
      omega
    · cases hstep
  | shell pid garbage => exact h.next hcareful hstep
  | sigchld garbage =>
    simp only [Shell.step] at hstep
    split at hstep
    · cases hstep
    · exact h.sigchld hcareful hstep
  | sigint =>
    simp only [Shell.step] at hstep
    split at hstep
    · cases hstep
    · cases hstep
      exact h.sigintHandler
  | sigtstp =>
    simp only [Shell.step] at hstep
    split at hstep
    · cases hstep
    · cases hstep
      exact h.sigtstpHandler hcareful
  | exits pid =>
    cases hstep
    exact h.setChildren (keeps_terminate _ _)
  | killed pid =>
    cases hstep
    exact h.setChildren (keeps_kill _ _)
  | stops pid =>
    cases hstep
    exact h.setChildren (keeps_stop _ _)
  | continues pid =>
    cases hstep
    exact h.setChildren (keeps_cont _ _)

theorem start_inv : start.Inv := by
  refine ⟨⟨?_, fun _ => .inl rfl, ?_, ?_, ?_⟩, fun _ => rfl, trivial⟩
  · intro i job hjob
    cases hjob
  · intro i _ _
    simp [start, Pc.num]
  · intro i job hjob
    cases hjob
  · intro i j job job' hjob
    cases hjob

/-! ## The property -/

theorem tracks_of_sound (hsound : Sound s.ids s.jobArr s.children none none) : s.Tracks := by
  constructor
  · intro i h0 h1
    rw [hsound.agree i h0 h1]
    simp only [reduceCtorEq, or_false]
  · intro i job _ _ hjob
    exact lookup_ne_none hsound hjob

/-- Where ids and jobs agree, `setjobid` returns the smallest id that is free. -/
theorem smallestId_of_sound (hsound : Sound s.ids s.jobArr s.children none none) :
    s.SmallestId := by
  have htracks := tracks_of_sound hsound
  rintro ⟨k, hk0, hk1, hknone⟩
  have hzero {i : Int} (h0 : 0 ≤ i) (h1 : i < 256) : s.ids i = 0 ↔ s.jobArr i = none := by
    have hagree := htracks.agree i h0 h1
    rcases hsound.bit i with hbit | hbit
    · rw [hbit] at hagree ⊢
      simpa using hagree
    · rw [hbit] at hagree ⊢
      simpa using hagree
  cases hfind : findFrom (fun i => s.ids i = 0) 256 0 with
  | none =>
    have := findFrom_eq_none hfind k hk0 (by omega)
    simp only [decide_eq_false_iff_not] at this
    exact absurd ((hzero hk0 hk1).mpr hknone) this
  | some i =>
    obtain ⟨h0, h1, hfree, hbefore⟩ := findFrom_eq_some hfind
    refine ⟨i, h0, by omega, ?_, (hzero h0 (by omega)).mp (of_decide_eq_true hfree), ?_⟩
    · rw [setjobid_some hfind]
    · intro j hj0 hji hnone
      have := hbefore j hj0 hji
      rw [decide_eq_false_iff_not] at this
      exact this ((hzero hj0 (by omega)).mpr hnone)

/-- In every run of careful events, after every `remove_jobs` an id is taken exactly if there is a
job with it, and no job has been reaped; and then, as well as where it is called, `setjobid` returns
the smallest id that no job has. -/
theorem jobs_tracked {es : List Event} (run : Run (guarded Careful (stepOf step)) start es s) :
    (∀ c, s.pc = .ready c → s.Tracks ∧ s.SmallestId) ∧
      ∀ pid background, s.pc = .forked pid background → s.Tracks ∧ s.SmallestId := by
  have hinv : s.Inv := run.invariant Inv start_inv fun t e u ht hstep => ht.step hstep.1 hstep.2
  have hsound := hinv.sound
  constructor
  · intro c hpc
    simp only [loose, Pc.num, hpc] at hsound
    exact ⟨tracks_of_sound hsound, smallestId_of_sound hsound⟩
  · intro pid background hpc
    simp only [loose, Pc.num, hpc] at hsound
    exact ⟨tracks_of_sound hsound, smallestId_of_sound hsound⟩

instance (s : Shell) (garbage : Status) : Decidable (s.FgOk garbage) :=
  inferInstanceAs (Decidable (_ → ∀ job ∈ s.jobArr (s.currFgId - 1), _))

instance (s : Shell) (pid : Int) (garbage : Status) :
    (pc : Pc) → Decidable (s.StepOk pid garbage pc)
  | .forked _ _ => inferInstanceAs (Decidable (_ = true))
  | .waiting _ _ => inferInstanceAs (Decidable (_ → _ ∧ _))
  | .polling _ => inferInstanceAs (Decidable (_ = false))
  | .fgRemove => inferInstanceAs (Decidable (s.FgOk garbage))
  | .pipeWait => inferInstanceAs (Decidable (∀ i ∈ List.range 256, _))
  | .prompt | .removing _ _ | .ready _ | .numbered _ _ _ | .added _ _ | .fgWait _ | .fgSet _
  | .piping _ | .exited => isTrue trivial

instance (s : Shell) : (e : Event) → Decidable (s.Careful e)
  | .read _ => inferInstanceAs (Decidable (_ = _))
  | .shell pid garbage => inferInstanceAs (Decidable (s.StepOk pid garbage s.pc))
  | .sigchld garbage => inferInstanceAs (Decidable (s.FgOk garbage))
  | .sigtstp => inferInstanceAs (Decidable (_ → ∀ job ∈ s.jobArr (s.currFgId - 1), _))
  | .sigint | .exits _ | .killed _ | .stops _ | .continues _ => isTrue trivial

/-- A line is read and `remove_jobs` runs. -/
def readLine (c : Command) : List Event :=
  .read c :: List.replicate 257 (.shell 0 .exited)

/-- A foreground command ends, and the handler of `SIGCHLD` takes its job out. -/
def runCommand : List Event :=
  readLine (.run false) ++
    [.shell 2 .exited, .shell 0 .exited, .shell 0 .exited, .shell 0 .exited, .exits 2,
      .shell 0 .exited, .sigchld .exited] ++ readLine .jobs

/-- The theorem at that run. -/
theorem jobs_tracked_runCommand :
    ∃ s, Run (guarded Careful (stepOf step)) start runCommand s ∧ s.pc = .ready .jobs ∧
      s.Tracks ∧ s.SmallestId := by
  have hobs : (runOf (fun s e => if s.Careful e then s.step e else none) start
      runCommand).map (fun s => s.pc) = some (.ready .jobs) := by
    decide +kernel
  obtain ⟨s, hrun, hpc⟩ := Option.map_eq_some_iff.mp hobs
  exact ⟨s, run_guarded_of_runOf hrun, hpc, (jobs_tracked (run_guarded_of_runOf hrun)).1 _ hpc⟩

/-- A background command is running when a pipeline of two commands is run. `wait` reaps the three
of them. -/
def pipeBesideJob : List Event :=
  readLine (.run true) ++ [.shell 2 .exited, .shell 0 .exited, .shell 0 .exited, .shell 0 .exited] ++
    readLine (.pipe 2) ++
    [.shell 0 .exited, .shell 3 .exited, .shell 4 .exited, .shell 0 .exited, .exits 2, .exits 3,
      .exits 4, .shell 2 .exited, .shell 3 .exited, .shell 4 .exited, .shell 0 .exited] ++
    readLine .jobs

/-- After that the job is still in the table, and its process is gone. -/
theorem reaped_job_stays :
    ∃ s, Run (stepOf step) start pipeBesideJob s ∧ s.pc = .ready .jobs ∧
      s.jobArr 0 = some ⟨1, .bg, 2⟩ ∧ s.children.lookup 2 = none ∧ ¬ s.Tracks := by
  have hobs : (runOf step start pipeBesideJob).map
      (fun s => decide (s.pc = .ready .jobs ∧ s.jobArr 0 = some ⟨1, .bg, 2⟩ ∧
        s.children.lookup 2 = none)) = some true := by
    decide +kernel
  obtain ⟨s, hrun, hfacts⟩ := Option.map_eq_some_iff.mp hobs
  obtain ⟨hpc, hjob, hnone⟩ := of_decide_eq_true hfacts
  refine ⟨s, run_of_runOf hrun, hpc, hjob, hnone, ?_⟩
  intro htracks
  exact htracks.live 0 _ (by decide) (by decide) hjob hnone

end Shell

end Cs537.P3
