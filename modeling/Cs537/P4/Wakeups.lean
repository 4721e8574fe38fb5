import Cs537.P4.SleepRuns

/-!
# Which wakeups are lost

`wakeup1` tests `sleeptime` on every channel, so a process that sleeps on a pipe, the log or a
sleep lock while its `sleeptime` is positive is passed over. A process leaves `sys_sleep` with a
positive `sleeptime` in one way only: it was killed there before its count-down ran out. It then
sleeps on other channels on its way through `exit`.
-/

namespace Cs537.P4

open Cs537.Lib

namespace Kernel

variable {nproc : Nat} {k k' : Kernel nproc} {initproc p : Fin nproc}

/-! ## Who can have a positive count -/

/-- The count-down of a process at a position. Outside `sys_sleep` it has run out unless the
process was killed, and a process inside `sys_sleep` sleeps on no other channel than `&ticks`. -/
def Spent (pc : Pc) (q : Proc nproc) : Prop :=
  match pc with
  | .elsewhere => ProcState.live q.state = true → q.killed = false → q.sleeptime ≤ 0
  | .stored n _ => n < 2 ^ 31 ∧ (n ≤ 0 → q.sleeptime ≤ 0) ∧ q.state ≠ .sleeping
  | .looping c => c.n < 2 ^ 31 ∧ (c.n ≤ 0 → q.sleeptime ≤ 0) ∧ q.state ≠ .sleeping
  | .asleep c => c.n < 2 ^ 31 ∧ (c.n ≤ 0 → q.sleeptime ≤ 0) ∧
      (q.state = .sleeping → q.chan = some .ticks)

/-- What changes in a slot without harm: the count-down does not grow, a killed process stays so,
and the process does not go to sleep. -/
theorem Spent.mono {pc : Pc} {q q' : Proc nproc} (h : Spent pc q)
    (hsleep : q'.sleeptime ≤ max 0 q.sleeptime) (hkilled : q'.killed = false → q.killed = false)
    (hlive : ProcState.live q'.state = true → ProcState.live q.state = true)
    (hstate : q'.state = .sleeping → q.state = .sleeping ∧ q'.chan = q.chan) : Spent pc q' := by
  cases pc with
  | elsewhere =>
    intro hl hk
    have := h (hlive hl) (hkilled hk)
    omega
  | stored n w =>
    obtain ⟨hn, hle, hs⟩ := h
    refine ⟨hn, fun h0 => ?_, fun hq => hs (hstate hq).1⟩
    have := hle h0
    omega
  | looping c =>
    obtain ⟨hn, hle, hs⟩ := h
    refine ⟨hn, fun h0 => ?_, fun hq => hs (hstate hq).1⟩
    have := hle h0
    omega
  | asleep c =>
    obtain ⟨hn, hle, hs⟩ := h
    refine ⟨hn, fun h0 => ?_, fun hq => ?_⟩
    · have := hle h0
      omega
    · rw [(hstate hq).2]
      exact hs (hstate hq).1

/-- A process that sleeps on another channel than `&ticks` and was not killed has no count-down
left. -/
theorem Spent.sleeptime_le {pc : Pc} {q : Proc nproc} (h : Spent pc q) (hs : q.state = .sleeping)
    (hchan : q.chan ≠ some .ticks) (hkilled : q.killed = false) : q.sleeptime ≤ 0 := by
  cases pc with
  | elsewhere => exact h (by rw [hs]; rfl) hkilled
  | stored n w => exact absurd hs h.2.2
  | looping c => exact absurd hs h.2.2
  | asleep c => exact absurd (h.2.2 hs) hchan

/-- The count-downs of all processes. -/
def Spends (k : Kernel nproc) : Prop := ∀ p, Spent (k.pc p) (k.proc p)

theorem wakeup1Slot_spent {pc : Pc} {q : Proc nproc} (h : Spent pc q)
    (chan : Option (Chan nproc)) : Spent pc (wakeup1Slot chan q) := by
  apply h.mono
  · rw [wakeup1Slot_sleeptime]
    unfold countDown
    split <;> omega
  · unfold wakeup1Slot
    split
    · exact fun hk => hk
    · split <;> exact fun hk => hk
  · rw [wakeup1Slot_live]
    exact fun hl => hl
  · unfold wakeup1Slot
    split
    · intro hs
      cases hs
    · split <;> exact fun hs => ⟨hs, rfl⟩

theorem Spends.wakeup1 (h : k.Spends) (chan : Option (Chan nproc)) : (wakeup1 chan k).Spends :=
  fun p => wakeup1Slot_spent (h p) chan

theorem Spends.timer (h : k.Spends) : (timer k).Spends := fun p => wakeup1Slot_spent (h p) _

theorem Spends.setProc (h : k.Spends) {i : Fin nproc} {q : Proc nproc}
    (hslot : Spent (k.pc i) q) : (k.setProc i q).Spends := by
  intro p
  rw [setProc_proc]
  by_cases hp : p = i
  · subst hp
    rw [if_pos rfl]
    exact hslot
  · rw [if_neg hp]
    exact h p

theorem Spends.setPc (h : k.Spends) {i : Fin nproc} {pc : Pc} (hpc : Spent pc (k.proc i)) :
    (k.setPc i pc).Spends := by
  intro p
  rw [setPc_pc]
  by_cases hp : p = i
  · subst hp
    rw [if_pos rfl]
    exact hpc
  · rw [if_neg hp]
    exact h p

/-- Overwriting the slot of a process and moving it at once. -/
theorem Spends.setBoth (h : k.Spends) {i : Fin nproc} {q : Proc nproc} {pc : Pc}
    (hslot : Spent pc q) : ((k.setProc i q).setPc i pc).Spends := by
  intro p
  rw [setPc_pc]
  change Spent _ ((k.setProc i q).proc p)
  rw [setProc_proc]
  by_cases hp : p = i
  · rw [if_pos hp, if_pos hp]
    exact hslot
  · rw [if_neg hp, if_neg hp]
    exact h p

/-- The scheduler moves a process between `RUNNABLE` and `RUNNING`. -/
theorem Spends.dispatch (h : k.Spends) {i : Fin nproc} {state : ProcState}
    (chan : Option (Chan nproc)) (hlive : ProcState.live (k.proc i).state = true)
    (hstate : state ≠ .sleeping) :
    (k.setProc i { k.proc i with state := state, chan := chan }).Spends := by
  apply h.setProc
  apply (h i).mono
  · simp only
    omega
  · exact fun hk => hk
  · exact fun _ => hlive
  · exact fun hs => absurd hs hstate

theorem Spends.reparent (h : k.Spends) (curproc i : Fin nproc) :
    (reparent initproc curproc k i).Spends := by
  unfold Kernel.reparent
  by_cases hparent : (k.proc i).parent = some curproc
  · rw [if_pos hparent]
    have hset : (k.setProc i { k.proc i with parent := some initproc }).Spends :=
      h.setProc ((h i).mono (by simp only; omega) (fun hk => hk) (fun hl => hl) fun hs => ⟨hs, rfl⟩)
    simp only
    split
    · exact hset.wakeup1 _
    · exact hset
  · rw [if_neg hparent]
    exact h

theorem Spends.foldl_reparent (curproc : Fin nproc) (l : List (Fin nproc)) :
    ∀ {k : Kernel nproc}, k.Spends → (l.foldl (Kernel.reparent initproc curproc) k).Spends := by
  induction l with
  | nil => exact fun h => h
  | cons i l ih => exact fun h => ih (h.reparent curproc i)

theorem Spends.exit (h : k.Spends) {curproc : Fin nproc} (hpc : k.pc curproc = .elsewhere) :
    (exit initproc curproc k).Spends := by
  unfold Kernel.exit
  apply Spends.setProc
  · exact (h.wakeup1 _).foldl_reparent curproc _
  · rw [foldl_reparent_pc]
    change Spent (k.pc curproc) _
    rw [hpc]
    intro hlive
    cases hlive

theorem Spends.kill (h : k.Spends) (pid : Int) : (kill pid k).Spends := by
  unfold Kernel.kill
  split
  · exact h
  · rename_i i _
    apply h.setProc
    simp only
    split
    · rename_i hs
      apply (h i).mono
      · simp only
        omega
      · intro hk
        cases hk
      · intro _
        rw [hs]
        rfl
      · intro hs'
        cases hs'
    · apply (h i).mono
      · simp only
        omega
      · intro hk
        cases hk
      · exact fun hl => hl
      · exact fun hs => ⟨hs, rfl⟩

/-- Going to sleep on another channel, outside `sys_sleep`. -/
theorem Spends.sleep (h : k.Spends) (chan : Chan nproc) {curproc : Fin nproc}
    (hrun : (k.proc curproc).state = .running) (hpc : k.pc curproc = .elsewhere) :
    (sleep chan curproc k).Spends := by
  have hslot := h curproc
  rw [hpc] at hslot
  apply h.setProc
  rw [hpc]
  intro _ hk
  exact hslot (by rw [hrun]; rfl) hk

theorem Spends.wait (h : k.Spends) (ht : k.Tracks) {curproc : Fin nproc}
    (hrun : (k.proc curproc).state = .running) (hpc : k.pc curproc = .elsewhere) :
    (wait curproc k).Spends := by
  rcases wait_cases curproc k with ⟨i, hz, hk⟩ | hk | hk
  · have hout : k.pc i = .elsewhere := by
      apply ht.elsewhere_of_not_live
      rw [hz]
      rfl
    rw [hk]
    apply h.setProc
    rw [hout]
    intro hlive
    cases hlive
  · rw [hk]
    exact h
  · rw [hk]
    exact h.sleep _ hrun hpc

theorem Spends.fork (h : k.Spends) (ht : k.Tracks) (curproc : Fin nproc) (result : ForkEnd) :
    (fork curproc result k).Spends := by
  rcases fork_cases curproc result k with hk | ⟨i, q, hu, hq, hk⟩
  · rw [hk]
    exact h
  · have hpc : k.pc i = .elsewhere := by
      apply ht.elsewhere_of_not_live
      rw [hu]
      rfl
    rw [hk]
    apply Spends.setProc h
    rw [hpc]
    intro hlive _
    rcases hq with hunused | ⟨-, hsleeptime⟩
    · rw [hunused] at hlive
      cases hlive
    · rw [hsleeptime]

/-- `sys_sleep` is left with a positive count-down only by a process that was killed: as long as
the loop test holds, some of the `n` ticks are missing, and each tick takes one off. -/
theorem Spends.sleepLoop (h : k.Spends) {c : SleepCall} (hn : c.n < 2 ^ 31)
    (hle : c.n ≤ 0 → (k.proc p).sleeptime ≤ 0)
    (hcounts : Counts (.looping c) (k.proc p).sleeptime k.wakeups k.ticks)
    (hrun : (k.proc p).state = .running) : (sleepLoop c p k).Spends := by
  have hstate : (k.proc p).state ≠ .sleeping := by
    rw [hrun]
    decide
  unfold Kernel.sleepLoop
  split
  · exact Spends.setPc h ⟨hn, hle, hstate⟩
  · rename_i hout
    apply Spends.setPc h
    intro _ hkilled
    by_cases h0 : c.n ≤ 0
    · exact hle h0
    · have hover : ¬ sleepsOn c.n k.ticks c.ticks0 = true := fun hon => hout ⟨hon, hkilled⟩
      obtain ⟨⟨-, hleft⟩, hticks, hpace⟩ := hcounts
      have hsleep := hleft (by omega)
      unfold sleepsOn at hover
      rw [decide_eq_true_eq, Int.not_lt, Int.emod_eq_of_lt (by omega) (by omega)] at hover
      omega

/-- Every step of the kernel keeps the count-downs in order. -/
theorem next_spends {e : Event nproc} (h : k.Spends) (ht : k.Tracks)
    (hnext : next initproc k e = some k') : k'.Spends := by
  cases steps_of_next hnext with
  | tick _ => exact h.timer
  | wakeup _ => exact h.wakeup1 _
  | kill pid => exact h.kill pid
  | trapKill _ hpc =>
    apply h.setProc
    rw [hpc]
    intro _ hk
    cases hk
  | exit _ hpc _ => exact h.exit hpc
  | schedule hready => exact h.dispatch none (by rw [hready]; rfl) (by decide)
  | yield hrun _ => exact h.dispatch _ (by rw [hrun]; rfl) (by decide)
  | sleep hrun hpc _ => exact h.sleep _ hrun hpc
  | wait hrun hpc => exact h.wait ht hrun hpc
  | fork result _ _ => exact h.fork ht _ result
  | @sysSleep p n hrun hpc _ hmax =>
    apply h.setBoth
    refine ⟨hmax, fun h0 => h0, ?_⟩
    simp only [hrun]
    decide
  | @acquireTickslock p n w hpc hrun _ =>
    have hslot := h p
    have hcounts := (ht p).1
    rw [hpc] at hslot hcounts
    refine h.sleepLoop hslot.1 hslot.2.1 ⟨hcounts, le_rfl, ?_⟩ hrun
    have := hcounts.1
    simp only
    omega
  | @sleepTicks p c hpc _ =>
    have hslot := h p
    rw [hpc] at hslot
    exact h.setBoth ⟨hslot.1, hslot.2.1, fun _ => rfl⟩
  | @wakeTicks p c hpc hrun _ =>
    have hslot := h p
    have hcounts := (ht p).1
    rw [hpc] at hslot hcounts
    exact h.sleepLoop hslot.1 hslot.2.1 hcounts hrun

/-! ## The calls of `wakeup1` -/

/-- The calls of `wakeup1` in the loop of `exit` over the slots `l`: the channel, and the kernel
as the call finds it. -/
def reparentCalls (initproc curproc : Fin nproc) :
    List (Fin nproc) → Kernel nproc → List (Option (Chan nproc) × Kernel nproc)
  | [], _ => []
  | i :: l, k =>
    (if (k.proc i).parent = some curproc ∧ (k.proc i).state = .zombie then
      [(some (.proc initproc), k.setProc i { k.proc i with parent := some initproc })]
    else []) ++ reparentCalls initproc curproc l (reparent initproc curproc k i)

/-- The calls of `wakeup1` that an event makes. -/
def wakeupCalls (initproc : Fin nproc) (k : Kernel nproc) :
    Event nproc → List (Option (Chan nproc) × Kernel nproc)
  | .tick => [(some .ticks, { k with ticks := k.ticks + 1 })]
  | .wakeup chan => [(some chan, k)]
  | .exit p =>
    let chan := (k.proc p).parent.map .proc
    (chan, k) :: reparentCalls initproc p (List.finRange nproc) (wakeup1 chan k)
  | _ => []

/-- Process `p` is `SLEEPING` on a channel. -/
def On (k : Kernel nproc) (chan : Option (Chan nproc)) (p : Fin nproc) : Prop :=
  (k.proc p).state = .sleeping ∧ (k.proc p).chan = chan

instance (k : Kernel nproc) (chan : Option (Chan nproc)) (p : Fin nproc) :
    Decidable (k.On chan p) := inferInstanceAs (Decidable (_ ∧ _))

/-- A call of `wakeup1` on a channel other than `&ticks` finds no process `SLEEPING` on it that
was killed with some of its count-down left. -/
def FindsNoKilledCount (initproc : Fin nproc) (k : Kernel nproc) (e : Event nproc) : Prop :=
  ∀ call ∈ wakeupCalls initproc k e, call.1 ≠ some .ticks →
    ∀ p, call.2.On call.1 p → (call.2.proc p).killed = true → (call.2.proc p).sleeptime ≤ 0

/-- After a call of `wakeup1` on a channel other than `&ticks`, no process is `SLEEPING` on it. -/
def LeavesNone (initproc : Fin nproc) (k : Kernel nproc) (e : Event nproc) (_ : Kernel nproc) :
    Prop :=
  ∀ call ∈ wakeupCalls initproc k e, call.1 ≠ some .ticks →
    ∀ p, ¬ (wakeup1 call.1 call.2).On call.1 p

/-- Who is left after a call of `wakeup1`. -/
theorem on_wakeup1_iff (chan : Option (Chan nproc)) :
    (wakeup1 chan k).On chan p ↔ k.On chan p ∧ 0 < (k.proc p).sleeptime := by
  unfold On
  change ((wakeup1Slot chan (k.proc p)).state = .sleeping ∧
    (wakeup1Slot chan (k.proc p)).chan = chan) ↔ _
  unfold wakeup1Slot
  split
  · rename_i hwoken
    constructor
    · rintro ⟨hs, -⟩
      cases hs
    · rintro ⟨-, hpos⟩
      omega
  · rename_i hnot
    split
    · rename_i hpos
      exact ⟨fun hon => ⟨hon, hpos⟩, fun hon => hon.1⟩
    · rename_i hle
      constructor
      · rintro ⟨hs, hchan⟩
        exact absurd ⟨hs, hchan, by omega⟩ hnot
      · rintro ⟨-, hpos⟩
        omega

/-- The kernel that a call of `wakeup1` in the loop of `exit` finds. -/
theorem Spends.reparentCalls (curproc : Fin nproc) (l : List (Fin nproc)) :
    ∀ {k : Kernel nproc}, k.Spends →
      ∀ call ∈ reparentCalls initproc curproc l k, call.2.Spends := by
  induction l with
  | nil => exact fun _ call hcall => absurd hcall List.not_mem_nil
  | cons i l ih =>
    intro k h call hcall
    rw [Kernel.reparentCalls, List.mem_append] at hcall
    rcases hcall with hcall | hcall
    · rw [List.mem_ite_nil_right, List.mem_singleton] at hcall
      obtain ⟨-, rfl⟩ := hcall
      exact h.setProc
        ((h i).mono (by simp only; omega) (fun hk => hk) (fun hl => hl) fun hs => ⟨hs, rfl⟩)
    · exact ih (h.reparent curproc i) call hcall

theorem Spends.wakeupCalls (h : k.Spends) (e : Event nproc) :
    ∀ call ∈ wakeupCalls initproc k e, call.2.Spends := by
  intro call hcall
  cases e with
  | tick =>
    rw [Kernel.wakeupCalls, List.mem_singleton] at hcall
    subst hcall
    exact h
  | wakeup chan =>
    rw [Kernel.wakeupCalls, List.mem_singleton] at hcall
    subst hcall
    exact h
  | exit p =>
    rw [Kernel.wakeupCalls, List.mem_cons] at hcall
    rcases hcall with rfl | hcall
    · exact h
    · exact (h.wakeup1 _).reparentCalls p _ call hcall
  | _ => exact absurd hcall List.not_mem_nil

theorem findsNoKilledCount_iff_leavesNone (h : k.Spends) (e : Event nproc) :
    k.FindsNoKilledCount initproc e ↔ LeavesNone initproc k e k' := by
  constructor
  · intro hfinds call hcall hchan p hon
    obtain ⟨hon, hpos⟩ := (on_wakeup1_iff call.1).mp hon
    have hspent := h.wakeupCalls e call hcall p
    have hle : (call.2.proc p).sleeptime ≤ 0 := by
      cases hk : (call.2.proc p).killed with
      | true => exact hfinds call hcall hchan p hon hk
      | false => exact hspent.sleeptime_le hon.1 (by rw [hon.2]; exact hchan) hk
    omega
  · intro hnone call hcall hchan p hon _
    by_contra hpos
    exact hnone call hcall hchan p ((on_wakeup1_iff call.1).mpr ⟨hon, by omega⟩)

/-! ## Runs -/

/-- No process is in `sys_sleep` and no count-down is running, as after booting. -/
def Rested (k : Kernel nproc) : Prop := ∀ p, k.pc p = .elsewhere ∧ (k.proc p).sleeptime ≤ 0

theorem Rested.spends (h : k.Rested) : k.Spends := by
  intro p
  rw [(h p).1]
  exact fun _ _ => (h p).2

/-- Wakeups on ordinary channels reach every sleeper exactly in the runs where no process sleeps
on with a count-down it was killed in: for any number of processes and any interleaving, each
call of `wakeup1` on a channel other than `&ticks` leaves no process asleep on the channel if and
only if each finds no process asleep on it that was killed and has a positive `sleeptime`. -/
theorem no_wakeup_lost_iff (initproc : Fin nproc) {k : Kernel nproc} (hrested : k.Rested)
    (es : List (Event nproc)) (k' : Kernel nproc) :
    Run (guarded (FindsNoKilledCount initproc) (stepOf (next initproc))) k es k' ↔
      Run (outcome (LeavesNone initproc) (stepOf (next initproc))) k es k' := by
  have hquiet : k.Quiet := fun p => (hrested p).1
  apply Run.guarded_iff_outcome (fun u => u.Tracks ∧ u.Spends) ⟨hquiet.tracks, hrested.spends⟩
  · rintro t e u ⟨ht, hs⟩ _ hstep
    exact ⟨next_tracks ht hstep, next_spends hs ht hstep⟩
  · rintro t e u ⟨-, hs⟩ hstep
    exact findsNoKilledCount_iff_leavesNone hs e

instance (initproc : Fin nproc) (k : Kernel nproc) (e : Event nproc) :
    Decidable (k.FindsNoKilledCount initproc e) := inferInstanceAs (Decidable (∀ _, _))

theorem booted_rested : booted.Rested := fun _ => ⟨rfl, Int.le_refl 0⟩

/-- A process that sleeps on the log without having been in `sys_sleep` is woken. -/
theorem no_wakeup_lost_iff_log :
    booted.Rested ∧ ∃ k, Run (outcome (LeavesNone 0) (stepOf (next 0))) booted
      [.sleep 1 (.other 0), .wakeup (.other 0)] k := by
  have htrace : (runOf (fun k e => if k.FindsNoKilledCount 0 e then next 0 k e else none) booted
      [.sleep 1 (.other 0), .wakeup (.other 0)]).isSome = true := by decide
  obtain ⟨k, hk⟩ := Option.isSome_iff_exists.mp htrace
  exact ⟨booted_rested, k, (no_wakeup_lost_iff 0 booted_rested _ k).mp (run_guarded_of_runOf hk)⟩

-- the numerals of `Fin 2`
local instance : NeZero 2 := ⟨by decide⟩

/-- The second process is killed in `sys_sleep(2)`, leaves it and waits for the log in `exit`. -/
def killedOnLog : List (Event 2) :=
  sleepTwo ++ [.kill 2, .schedule 1, .wakeTicks 1, .sleep 1 (.other 0)]

/-- It then sleeps through `wakeup(&log)`. -/
theorem wakeup_lost_after_kill :
    ¬ ∀ (nproc : Nat) (initproc : Fin nproc) (k t u : Kernel nproc) (es : List (Event nproc))
      (e : Event nproc), k.Rested → Run (stepOf (next initproc)) k es t →
        next initproc t e = some u → LeavesNone initproc t e u := by
  intro hall
  have htrace : (runOf (next 0) booted killedOnLog).map
      (fun t => decide ((wakeup1 (some (.other 0)) t).On (some (.other 0)) 1)) = some true := by
    decide
  obtain ⟨t, ht, hobs⟩ := Option.map_eq_some_iff.mp htrace
  have hleft := of_decide_eq_true hobs
  have hnext : next 0 t (.wakeup (.other 0)) = some (wakeup1 (some (.other 0)) t) := by
    simp [next]
  exact hall 2 0 booted t _ _ _ booted_rested (run_of_runOf ht) hnext (some (.other 0), t)
    List.mem_cons_self (by simp) 1 hleft

end Kernel

end Cs537.P4
