import Cs537.P3.JobRuns

/-!
# What `remove_jobs` takes out

`remove_jobs` asks `waitpid` about every job, with flags that make it report stops as well as ends,
and takes out the job if anything is reported. So a job whose stop nobody has been told of leaves
the table, and a job whose process was reaped elsewhere stays.
-/

namespace Cs537.P3

open Cs537.Lib

/-! ## Reports -/

/-- The child has changed in a way that `waitpid` with `WUNTRACED` reports. -/
def pending : Option Child → Bool
  | some (.zombie _) | some (.stopped false) => true
  | _ => false

/-- The child after it was reported. -/
def reported : Option Child → Option Child
  | some (.zombie _) => none
  | some (.stopped false) => some (.stopped true)
  | child => child

@[simp] theorem pending_reported (child : Option Child) : pending (reported child) = false := by
  cases child with
  | none => rfl
  | some child =>
    cases child with
    | running => rfl
    | zombie exited => rfl
    | stopped reported => cases reported <;> rfl

@[simp] theorem reported_reported (child : Option Child) :
    reported (reported child) = reported child := by
  cases child with
  | none => rfl
  | some child =>
    cases child with
    | running => rfl
    | zombie exited => rfl
    | stopped reported => cases reported <;> rfl

/-- What the `waitpid` of `remove_jobs` finds, and what it leaves. -/
theorem waitpid_poll (cs : Children) (pid : Int) : ∃ r cs',
    waitpid cs pid true true = (r, cs') ∧
      ((∃ status, r = .reports status) ↔ pending (cs.lookup pid) = true) ∧
      ∀ q, cs'.lookup q = if q = pid then reported (cs.lookup pid) else cs.lookup q := by
  have hsame {child : Option Child} (hchild : cs.lookup pid = child)
      (hreported : reported child = child) (q : Int) :
      cs.lookup q = if q = pid then reported child else cs.lookup q := by
    by_cases hq : q = pid
    · rw [if_pos hq, hq, hchild, hreported]
    · rw [if_neg hq]
  unfold waitpid
  cases hchild : cs.lookup pid with
  | none => exact ⟨_, _, rfl, by simp [pending], hsame hchild rfl⟩
  | some child =>
    cases child with
    | running => exact ⟨_, _, rfl, by simp [pending], hsame hchild rfl⟩
    | zombie exited =>
      refine ⟨_, _, rfl, by simp [pending], ?_⟩
      intro q
      by_cases hq : q = pid
      · rw [if_pos hq, hq, AList.lookup_erase]
        rfl
      · rw [if_neg hq, AList.lookup_erase_ne hq]
    | stopped told =>
      cases told with
      | true => exact ⟨_, _, rfl, by simp [pending], hsame hchild rfl⟩
      | false =>
        refine ⟨_, _, rfl, by simp [pending], ?_⟩
        intro q
        by_cases hq : q = pid
        · rw [if_pos hq, hq, AList.lookup_insert]
          rfl
        · rw [if_neg hq, AList.lookup_insert_ne hq]

namespace Shell

variable {s t u : Shell}

/-! ## The loop -/

/-- The first `k` rounds of the loop of `remove_jobs`. -/
def removeRounds (s : Shell) (k : Nat) : Option Shell :=
  (List.range k).foldlM (fun (s : Shell) (i : Nat) => s.removeJob i) s

/-- `remove_jobs` (`wsh.c:35-47`). -/
def removeJobs (s : Shell) : Option Shell := s.removeRounds 256

/-- An id that is taken, and the job with it. -/
def Taken (s : Shell) (i : Int) (job : Job) : Prop := s.ids i = 1 ∧ s.jobArr i = some job

/-- What one round does. -/
theorem removeJob_cases (s : Shell) (i : Int) :
    (s.ids i ≠ 1 ∧ s.removeJob i = some s) ∨
    (s.ids i = 1 ∧ s.jobArr i = none ∧ s.removeJob i = none) ∨
    ∃ job cs, s.Taken i job ∧
      (∀ q, cs.lookup q =
        if q = job.pid then reported (s.children.lookup job.pid) else s.children.lookup q) ∧
      s.removeJob i = some (if pending (s.children.lookup job.pid) then
        { s with children := cs }.clear i else { s with children := cs }) := by
  unfold removeJob
  by_cases hid : s.ids i = 1
  · rw [if_pos hid]
    cases hjob : s.jobArr i with
    | none => exact .inr (.inl ⟨hid, rfl, rfl⟩)
    | some job =>
      obtain ⟨r, cs, hwait, hreports, hlookup⟩ := waitpid_poll s.children job.pid
      refine .inr (.inr ⟨job, cs, ⟨hid, hjob⟩, hlookup, ?_⟩)
      simp only [hwait]
      by_cases hpending : pending (s.children.lookup job.pid) = true
      · obtain ⟨status, rfl⟩ := hreports.mpr hpending
        rw [if_pos hpending]
      · rw [if_neg hpending]
        cases r with
        | reports status => exact absurd (hreports.mp ⟨status, rfl⟩) hpending
        | blocks | failed | nothing => rfl
  · rw [if_neg hid]
    exact .inl ⟨hid, rfl⟩

/-- The first `k` entries have the process `pid` among theirs. -/
def Asked (s : Shell) (k : Int) (pid : Int) : Prop :=
  ∃ i job, 0 ≤ i ∧ i < k ∧ s.Taken i job ∧ job.pid = pid

/-- The entries that are taken out: something is to be reported of their process, and no entry
before them has the same one. -/
def Leaves (s : Shell) (i : Int) : Prop :=
  ∃ job, s.Taken i job ∧ pending (s.children.lookup job.pid) = true ∧ ¬ s.Asked i job.pid

/-- The shell `t` after `k` rounds of the loop that began in `s`. -/
structure Removed (s : Shell) (k : Nat) (t : Shell) : Prop where
  gone : ∀ i : Int, 0 ≤ i → i < k → s.Leaves i → t.ids i = 0 ∧ t.jobArr i = none
  kept : ∀ i : Int, ¬ (0 ≤ i ∧ i < k ∧ s.Leaves i) → t.ids i = s.ids i ∧ t.jobArr i = s.jobArr i
  asked : ∀ pid, s.Asked k pid → t.children.lookup pid = reported (s.children.lookup pid)
  rest : ∀ pid, ¬ s.Asked k pid → t.children.lookup pid = s.children.lookup pid

theorem asked_succ {k : Nat} {pid : Int} : s.Asked (k + 1 : Nat) pid ↔
    s.Asked k pid ∨ ∃ job, s.Taken k job ∧ job.pid = pid := by
  constructor
  · rintro ⟨i, job, h0, hk, htaken, hpid⟩
    by_cases hi : i = k
    · exact .inr ⟨job, hi ▸ htaken, hpid⟩
    · exact .inl ⟨i, job, h0, by omega, htaken, hpid⟩
  · rintro (⟨i, job, h0, hk, htaken, hpid⟩ | ⟨job, htaken, hpid⟩)
    · exact ⟨i, job, h0, by omega, htaken, hpid⟩
    · exact ⟨k, job, by omega, by omega, htaken, hpid⟩

theorem Taken.unique {i : Int} {job job' : Job} (h : s.Taken i job) (h' : s.Taken i job') :
    job = job' :=
  Option.some.inj (h.2.symm.trans h'.2)

theorem removed_zero (s : Shell) : Removed s 0 s := by
  have hnone (pid : Int) : ¬ s.Asked (0 : Nat) pid := by
    rintro ⟨i, job, h0, hk, -⟩
    omega
  exact ⟨fun i h0 hk _ => by omega, fun _ _ => ⟨rfl, rfl⟩, fun pid h => absurd h (hnone pid),
    fun _ _ => rfl⟩

/-- A round in which nothing is taken out. -/
theorem Removed.keep {k : Nat} (h : Removed s k t) (hleaves : ¬ s.Leaves k) (hids : u.ids = t.ids)
    (hjobs : u.jobArr = t.jobArr)
    (hasked : ∀ pid, s.Asked (k + 1 : Nat) pid →
      u.children.lookup pid = reported (s.children.lookup pid))
    (hrest : ∀ pid, ¬ s.Asked (k + 1 : Nat) pid →
      u.children.lookup pid = s.children.lookup pid) : Removed s (k + 1) u := by
  refine ⟨?_, ?_, hasked, hrest⟩
  · intro i h0 hk hi
    have hne : i ≠ k := fun heq => hleaves (heq ▸ hi)
    rw [hids, hjobs]
    exact h.gone i h0 (by omega) hi
  · intro i hi
    rw [hids, hjobs]
    exact h.kept i fun hold => hi ⟨hold.1, by omega, hold.2.2⟩

/-- A round in which an entry is taken out. -/
theorem Removed.takeOut {k : Nat} (h : Removed s k t) (hleaves : s.Leaves k) {cs : Children}
    (hasked : ∀ pid, s.Asked (k + 1 : Nat) pid →
      cs.lookup pid = reported (s.children.lookup pid))
    (hrest : ∀ pid, ¬ s.Asked (k + 1 : Nat) pid → cs.lookup pid = s.children.lookup pid) :
    Removed s (k + 1) (({ t with children := cs } : Shell).clear k) := by
  refine ⟨?_, ?_, hasked, hrest⟩
  · intro i h0 hk hi
    by_cases hik : i = k
    · subst hik
      exact ⟨Function.update_self .., Function.update_self ..⟩
    · exact ⟨(Function.update_of_ne hik ..).trans (h.gone i h0 (by omega) hi).1,
        (Function.update_of_ne hik ..).trans (h.gone i h0 (by omega) hi).2⟩
  · intro i hi
    have hik : i ≠ k := by
      rintro rfl
      exact hi ⟨by omega, by omega, hleaves⟩
    have hkept := h.kept i fun hold => hi ⟨hold.1, by omega, hold.2.2⟩
    exact ⟨(Function.update_of_ne hik ..).trans hkept.1,
      (Function.update_of_ne hik ..).trans hkept.2⟩

/-- The entry of the next round leaves exactly if its `waitpid` has something to report. -/
theorem Removed.leaves_iff {k : Nat} (h : Removed s k t) {job : Job} (hs : s.Taken k job) :
    s.Leaves k ↔ pending (t.children.lookup job.pid) = true := by
  by_cases hasked : s.Asked k job.pid
  · rw [h.asked _ hasked, pending_reported]
    constructor
    · rintro ⟨job', htaken', -, hfirst⟩
      rw [← hs.unique htaken'] at hfirst
      exact absurd hasked hfirst
    · intro hfalse
      cases hfalse
  · rw [h.rest _ hasked]
    constructor
    · rintro ⟨job', htaken', hpending, -⟩
      rwa [hs.unique htaken']
    · exact fun hpending => ⟨job, hs, hpending, hasked⟩

/-- The children after the `waitpid` of the next round. -/
theorem Removed.children {k : Nat} (h : Removed s k t) {job : Job} (hs : s.Taken k job)
    {cs : Children} (hlookup : ∀ q, cs.lookup q =
      if q = job.pid then reported (t.children.lookup job.pid) else t.children.lookup q) :
    (∀ pid, s.Asked (k + 1 : Nat) pid → cs.lookup pid = reported (s.children.lookup pid)) ∧
      ∀ pid, ¬ s.Asked (k + 1 : Nat) pid → cs.lookup pid = s.children.lookup pid := by
  have hask (pid : Int) : s.Asked (k + 1 : Nat) pid ↔ s.Asked k pid ∨ pid = job.pid := by
    rw [asked_succ]
    constructor
    · rintro (hasked | ⟨job', htaken', rfl⟩)
      · exact .inl hasked
      · exact .inr (by rw [hs.unique htaken'])
    · rintro (hasked | rfl)
      · exact .inl hasked
      · exact .inr ⟨job, hs, rfl⟩
  have hold : reported (t.children.lookup job.pid) = reported (s.children.lookup job.pid) := by
    by_cases hasked : s.Asked k job.pid
    · rw [h.asked _ hasked, reported_reported]
    · rw [h.rest _ hasked]
  constructor
  · intro pid hpid
    rw [hlookup]
    by_cases heq : pid = job.pid
    · rw [if_pos heq, hold, heq]
    · rw [if_neg heq]
      exact h.asked pid (((hask pid).mp hpid).resolve_right heq)
  · intro pid hpid
    rw [hask, not_or] at hpid
    rw [hlookup, if_neg hpid.2]
    exact h.rest pid hpid.1

/-- One more round. -/
theorem Removed.round {k : Nat} (h : Removed s k t) (hrun : t.removeJob k = some u) :
    Removed s (k + 1) u := by
  obtain ⟨hids, hjobs⟩ := h.kept k (by omega)
  rcases removeJob_cases t k with ⟨hid, heq⟩ | ⟨-, -, heq⟩ | ⟨job, cs, htaken, hlookup, heq⟩
  · -- the id is free
    obtain rfl : t = u := Option.some.inj (heq.symm.trans hrun)
    have hfree (job : Job) : ¬ s.Taken k job := by
      intro htaken
      rw [hids] at hid
      exact hid htaken.1
    have hsame (pid : Int) : s.Asked (k + 1 : Nat) pid ↔ s.Asked k pid := by
      rw [asked_succ]
      exact or_iff_left fun ⟨job, htaken, _⟩ => hfree job htaken
    refine h.keep ?_ rfl rfl ?_ ?_
    · rintro ⟨job, htaken, -⟩
      exact hfree job htaken
    · exact fun pid hasked => h.asked pid ((hsame pid).mp hasked)
    · exact fun pid hasked => h.rest pid (mt (hsame pid).mpr hasked)
  · rw [heq] at hrun
    cases hrun
  · have hs : s.Taken k job := ⟨hids ▸ htaken.1, hjobs ▸ htaken.2⟩
    obtain ⟨hasked, hrest⟩ := h.children hs hlookup
    by_cases hpending : pending (t.children.lookup job.pid) = true
    · rw [if_pos hpending] at heq
      obtain rfl := Option.some.inj (heq.symm.trans hrun)
      exact h.takeOut ((h.leaves_iff hs).mpr hpending) hasked hrest
    · rw [if_neg hpending] at heq
      obtain rfl := Option.some.inj (heq.symm.trans hrun)
      exact h.keep (mt (h.leaves_iff hs).mp hpending) rfl rfl hasked hrest

/-- A round goes through unless an entry is missing. -/
theorem Removed.defined {k : Nat} (h : Removed s k t) :
    (∃ u, t.removeJob k = some u) ↔ (s.ids k = 1 → s.jobArr k ≠ none) := by
  obtain ⟨hids, hjobs⟩ := h.kept k (by omega)
  rw [← hids, ← hjobs]
  rcases removeJob_cases t k with ⟨hid, heq⟩ | ⟨hid, hnone, heq⟩ | ⟨job, cs, htaken, -, heq⟩
  · exact iff_of_true ⟨t, heq⟩ fun hone => absurd hone hid
  · refine iff_of_false ?_ fun hentry => hentry hid hnone
    rintro ⟨u, hu⟩
    rw [heq] at hu
    cases hu
  · refine iff_of_true ⟨_, heq⟩ fun _ => ?_
    rw [htaken.2]
    exact Option.some_ne_none job

theorem removeRounds_succ (s : Shell) (k : Nat) :
    s.removeRounds (k + 1) = (s.removeRounds k).bind fun t => t.removeJob k := by
  rw [removeRounds, List.range_succ, List.foldlM_append]
  simp [removeRounds]

/-- After `k` rounds. -/
theorem removed_rounds (k : Nat) :
    (∀ t, s.removeRounds k = some t → Removed s k t) ∧
      ((∃ t, s.removeRounds k = some t) ↔
        ∀ i : Int, 0 ≤ i → i < k → s.ids i = 1 → s.jobArr i ≠ none) := by
  induction k with
  | zero =>
    constructor
    · rintro t ht
      obtain rfl : s = t := Option.some.inj ht
      exact removed_zero s
    · exact iff_of_true ⟨s, rfl⟩ fun i h0 hk => by omega
  | succ k ih =>
    obtain ⟨hremoved, hdefined⟩ := ih
    rw [removeRounds_succ]
    constructor
    · intro u hu
      obtain ⟨t, ht, hround⟩ := Option.bind_eq_some_iff.mp hu
      exact (hremoved t ht).round hround
    · constructor
      · rintro ⟨u, hu⟩ i h0 hk
        obtain ⟨t, ht, hround⟩ := Option.bind_eq_some_iff.mp hu
        by_cases hik : i = k
        · rw [hik]
          exact (hremoved t ht).defined.mp ⟨u, hround⟩
        · exact hdefined.mp ⟨t, ht⟩ i h0 (by omega)
      · intro hentries
        obtain ⟨t, ht⟩ := hdefined.mpr fun i h0 hk => hentries i h0 (by omega)
        obtain ⟨u, hu⟩ := (hremoved t ht).defined.mpr (hentries k (by omega) (by omega))
        exact ⟨u, Option.bind_eq_some_iff.mpr ⟨t, ht, hu⟩⟩

theorem removed_of_removeJobs (h : s.removeJobs = some t) : Removed s 256 t :=
  (removed_rounds 256).1 t h

/-! ## The rounds as steps of the shell -/

/-- A round does not look at where the shell is. -/
theorem removeJob_setPc (s : Shell) (pc : Pc) (i : Int) :
    ({ s with pc := pc } : Shell).removeJob i = (s.removeJob i).map ({ · with pc := pc }) := by
  unfold removeJob
  by_cases hid : s.ids i = 1
  · rw [if_pos hid, if_pos hid]
    cases s.jobArr i with
    | none => rfl
    | some job =>
      simp only
      split <;> rfl
  · rw [if_neg hid, if_neg hid]
    rfl

/-- The loop is what the shell does when nothing comes between its rounds. -/
theorem run_removeJobs (c : Command) (h : s.removeJobs = some t) (pid : Int) (garbage : Status) :
    Run (stepOf step) { s with pc := .removing 0 c } (List.replicate 256 (.shell pid garbage))
      { t with pc := .removing 256 c } := by
  have hrounds : ∀ k ≤ 256, ∀ t, s.removeRounds k = some t →
      Run (stepOf step) { s with pc := .removing 0 c } (List.replicate k (.shell pid garbage))
        { t with pc := .removing k c } := by
    intro k
    induction k with
    | zero =>
      rintro - t ht
      obtain rfl : s = t := Option.some.inj ht
      exact .nil
    | succ k ih =>
      intro hk u hu
      rw [removeRounds_succ] at hu
      obtain ⟨t, ht, hround⟩ := Option.bind_eq_some_iff.mp hu
      rw [List.replicate_succ']
      refine .snoc (ih (by omega) t ht) ?_
      have hlt : k < 256 := hk
      simp only [stepOf, step, next, if_pos hlt, removeJob_setPc, hround, Option.map_some]
  exact hrounds 256 le_rfl t h

/-! ## Only finished jobs -/

/-- The process has come to its end; it may have been reaped. -/
def Terminated (cs : Children) (pid : Int) : Prop := cs.lookup pid = none ∨ ended cs pid = true

/-- `remove_jobs` takes out the jobs whose process has terminated, and every other job keeps its id
and its entry. -/
def RemovesTerminated (s : Shell) : Prop :=
  ∃ t, s.removeJobs = some t ∧ ∀ i job, 0 ≤ i → i < 256 → s.Taken i job →
    (Terminated s.children job.pid → t.ids i = 0 ∧ t.jobArr i = none) ∧
    (¬ Terminated s.children job.pid → t.Taken i job)

/-- Every id that is taken has an entry, no process of a job has been reaped, the shell has been
told of every stop, and no two jobs have one process that has ended. -/
structure RemovalOk (s : Shell) : Prop where
  entries : ∀ i, 0 ≤ i → i < 256 → s.ids i = 1 → s.jobArr i ≠ none
  unreaped : ∀ i job, 0 ≤ i → i < 256 → s.Taken i job → s.children.lookup job.pid ≠ none
  told : ∀ i job, 0 ≤ i → i < 256 → s.Taken i job →
    s.children.lookup job.pid ≠ some (.stopped false)
  distinct : ∀ i j job job', 0 ≤ i → i < 256 → 0 ≤ j → j < 256 → s.Taken i job → s.Taken j job' →
    job.pid = job'.pid → ended s.children job.pid = true → i = j

/-- The first entry with a process. -/
theorem exists_first {i : Int} {job : Job} (h0 : 0 ≤ i) (htaken : s.Taken i job) :
    ∃ j job', 0 ≤ j ∧ j ≤ i ∧ s.Taken j job' ∧ job'.pid = job.pid ∧ ¬ s.Asked j job.pid := by
  induction hn : i.toNat using Nat.strong_induction_on generalizing i job with
  | _ n ih =>
    by_cases hasked : s.Asked i job.pid
    · obtain ⟨k, job', hk0, hki, htaken', hpid⟩ := hasked
      obtain ⟨j, job'', hj0, hjk, hj, hpid', hfirst⟩ := ih k.toNat (by omega) hk0 htaken' rfl
      rw [hpid] at hpid' hfirst
      exact ⟨j, job'', hj0, by omega, hj, hpid', hfirst⟩
    · exact ⟨i, job, h0, Int.le_refl i, htaken, rfl, hasked⟩

theorem pending_iff {cs : Children} {pid : Int} : pending (cs.lookup pid) = true ↔
    ended cs pid = true ∨ cs.lookup pid = some (.stopped false) := by
  unfold ended
  cases cs.lookup pid with
  | none => simp [pending]
  | some child =>
    cases child with
    | running => simp [pending]
    | zombie exited => simp [pending]
    | stopped told => cases told <;> simp [pending]

/-- A job leaves the table exactly if `Leaves` says so. -/
theorem Removed.taken_iff (h : Removed s 256 t) {i : Int} {job : Job} (h0 : 0 ≤ i) (h1 : i < 256)
    (htaken : s.Taken i job) : t.Taken i job ↔ ¬ s.Leaves i := by
  constructor
  · intro ht hleaves
    have hgone := (h.gone i h0 h1 hleaves).1
    rw [ht.1] at hgone
    exact absurd hgone (by decide)
  · intro hleaves
    obtain ⟨hids, hjobs⟩ := h.kept i fun hold => hleaves hold.2.2
    exact ⟨hids.trans htaken.1, hjobs.trans htaken.2⟩

/-- `remove_jobs` takes out the finished jobs and no others if and only if no report is missing and
none is pending of a stop. -/
theorem removesTerminated_iff (s : Shell) : s.RemovesTerminated ↔ s.RemovalOk := by
  constructor
  · rintro ⟨t, ht, hjobs⟩
    have hremoved := removed_of_removeJobs ht
    have hleaves {i : Int} {job : Job} (h0 : 0 ≤ i) (h1 : i < 256) (htaken : s.Taken i job) :
        s.Leaves i ↔ Terminated s.children job.pid := by
      rw [← not_iff_not, ← hremoved.taken_iff h0 h1 htaken]
      constructor
      · intro hstays hterminated
        have hgone := ((hjobs i job h0 h1 htaken).1 hterminated).1
        rw [hstays.1] at hgone
        exact absurd hgone (by decide)
      · exact (hjobs i job h0 h1 htaken).2
    refine ⟨(removed_rounds 256).2.mp ⟨t, ht⟩, ?_, ?_, ?_⟩
    · intro i job h0 h1 htaken hnone
      obtain ⟨job', htaken', hpending, -⟩ := (hleaves h0 h1 htaken).mpr (.inl hnone)
      rw [← htaken.unique htaken', hnone] at hpending
      cases hpending
    · intro i job h0 h1 htaken hstopped
      -- the first entry with this process is taken out
      obtain ⟨j, job', hj0, hji, hj, hpid, hfirst⟩ := exists_first h0 htaken
      have hgone : s.Leaves j := ⟨job', hj, by rw [hpid, hstopped]; rfl, by rwa [hpid]⟩
      rcases (hleaves hj0 (by omega) hj).mp hgone with hnone | hended
      · rw [hpid, hstopped] at hnone
        cases hnone
      · rw [hpid, ended, hstopped] at hended
        cases hended
    · intro i j job job' hi0 hi1 hj0 hj1 hi hj hpid hended
      obtain ⟨job₁, hi', -, hfirst⟩ := (hleaves hi0 hi1 hi).mpr (.inr hended)
      obtain ⟨job₂, hj', -, hfirst'⟩ := (hleaves hj0 hj1 hj).mpr (.inr (hpid ▸ hended))
      rw [← hi.unique hi'] at hfirst
      rw [← hj.unique hj'] at hfirst'
      rcases Int.lt_trichotomy i j with hlt | heq | hlt
      · exact absurd ⟨i, job, hi0, hlt, hi, hpid⟩ hfirst'
      · exact heq
      · exact absurd ⟨j, job', hj0, hlt, hj, hpid.symm⟩ hfirst
  · intro hok
    obtain ⟨t, ht⟩ := (removed_rounds 256).2.mpr hok.entries
    have hremoved : Removed s 256 t := removed_of_removeJobs ht
    refine ⟨t, ht, ?_⟩
    intro i job h0 h1 htaken
    constructor
    · rintro (hnone | hended)
      · exact absurd hnone (hok.unreaped i job h0 h1 htaken)
      · refine hremoved.gone i h0 h1 ⟨job, htaken, pending_iff.mpr (.inl hended), ?_⟩
        rintro ⟨j, job', hj0, hji, hj, hpid⟩
        have := hok.distinct j i job' job hj0 (by omega) h0 h1 hj htaken hpid (hpid ▸ hended)
        omega
    · intro hrunning
      refine (hremoved.taken_iff h0 h1 htaken).mpr ?_
      rintro ⟨job', htaken', hpending, -⟩
      rw [← htaken.unique htaken'] at hpending
      rcases pending_iff.mp hpending with hended | hstopped
      · exact hrunning (.inr hended)
      · exact hok.told i job h0 h1 htaken hstopped

/-- A background job is stopped by a signal from elsewhere before the next line is read. -/
def stopFromElsewhere : List Event :=
  readLine (.run true) ++
    [.shell 2 .exited, .shell 0 .exited, .shell 0 .exited, .shell 0 .exited, .stops 2, .read .jobs]

/-- `remove_jobs` takes the stopped job out. -/
theorem stopped_job_leaves : ∃ s, Run (stepOf step) start stopFromElsewhere s ∧
    s.pc = .removing 0 .jobs ∧ s.Taken 0 ⟨1, .bg, 2⟩ ∧
    s.children.lookup 2 = some (.stopped false) ∧
    (∀ t, s.removeJobs = some t → t.jobArr 0 = none) ∧ ¬ s.RemovesTerminated := by
  have hobs : (runOf step start stopFromElsewhere).map
      (fun s => decide (s.pc = .removing 0 .jobs ∧ (s.ids 0 = 1 ∧ s.jobArr 0 = some ⟨1, .bg, 2⟩) ∧
        s.children.lookup 2 = some (.stopped false))) = some true := by
    decide +kernel
  obtain ⟨s, hrun, hfacts⟩ := Option.map_eq_some_iff.mp hobs
  obtain ⟨hpc, htaken, hstopped⟩ := of_decide_eq_true hfacts
  have hleaves : s.Leaves 0 := by
    refine ⟨_, htaken, by rw [hstopped]; rfl, ?_⟩
    rintro ⟨i, job, h0, h1, -⟩
    omega
  have hgone (t : Shell) (ht : s.removeJobs = some t) : t.ids 0 = 0 ∧ t.jobArr 0 = none :=
    (removed_of_removeJobs ht).gone 0 (Int.le_refl 0) (by decide) hleaves
  refine ⟨s, run_of_runOf hrun, hpc, htaken, hstopped, fun t ht => (hgone t ht).2, ?_⟩
  rintro ⟨t, ht, hjobs⟩
  have hrunning : ¬ Terminated s.children 2 := by
    unfold Terminated ended
    rw [hstopped]
    simp
  have hstays := (hjobs 0 _ (Int.le_refl 0) (by decide) htaken).2 hrunning
  have hzero := (hgone t ht).1
  rw [hstays.1] at hzero
  exact absurd hzero (by decide)

end Shell

end Cs537.P3
