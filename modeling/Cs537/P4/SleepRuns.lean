import Cs537.Lib.Run
import Cs537.P4.Proc

/-!
# When tick sleepers wake up

`sys_sleep(n)` stores `n` in `sleeptime`, and every call of `wakeup1`, on whatever channel,
takes one off it. So the count-down of a sleeper is not one of ticks: it reaches zero after
`n` calls of `wakeup1`, and the first tick after that makes the process `RUNNABLE`. Both
results below compare that with the `n` ticks that `sys_sleep` was asked for.
-/

namespace Cs537.P4

open Cs537.Lib

namespace Kernel

variable {nproc : Nat} {k k' : Kernel nproc} {initproc p : Fin nproc}

/-! ## The count-down -/

/-- What one call of `wakeup1` does to `sleeptime`. -/
def countDown (sleeptime : Int) : Int := if 0 < sleeptime then sleeptime - 1 else sleeptime

theorem wakeup1Slot_sleeptime (chan : Option (Chan nproc)) (q : Proc nproc) :
    (wakeup1Slot chan q).sleeptime = countDown q.sleeptime := by
  unfold wakeup1Slot countDown
  split
  · rename_i h
    rw [if_neg (by omega)]
  · split
    · rfl
    · rfl

/-- `sleeptime` is what `n` leaves after `calls` calls of `wakeup1`. -/
def LeftOf (n sleeptime calls : Int) : Prop :=
  0 ≤ calls ∧ (0 < n → sleeptime = max 0 (n - calls))

theorem LeftOf.countDown {n sleeptime calls : Int} (h : LeftOf n sleeptime calls) :
    LeftOf n (countDown sleeptime) (calls + 1) := by
  refine ⟨by have := h.1; omega, ?_⟩
  intro hn
  have hs := h.2 hn
  unfold Kernel.countDown
  split <;> omega

/-- The part of a process's position that counts: since the store of `sleeptime` the count-down
has followed the calls of `wakeup1`, and every tick since `ticks0` was such a call. -/
def Counts (pc : Pc) (sleeptime : Int) (wakeups ticks : Nat) : Prop :=
  match pc with
  | .elsewhere => True
  | .stored n wakeups0 => LeftOf n sleeptime ((wakeups : Int) - wakeups0)
  | .looping c | .asleep c =>
    LeftOf c.n sleeptime ((wakeups : Int) - c.wakeups0) ∧ c.ticks0 ≤ ticks ∧
      (ticks : Int) - c.ticks0 ≤ (wakeups : Int) - c.wakeups0

/-- A call of `wakeup1`, with or without a tick, moves the count on. -/
theorem Counts.countDown {pc : Pc} {sleeptime : Int} {wakeups ticks : Nat} {d : Nat}
    (h : Counts pc sleeptime wakeups ticks) (hd : d ≤ 1) :
    Counts pc (countDown sleeptime) (wakeups + 1) (ticks + d) := by
  have next {n : Int} {w : Nat} (hl : LeftOf n sleeptime ((wakeups : Int) - w)) :
      LeftOf n (Kernel.countDown sleeptime) (((wakeups + 1 : Nat) : Int) - w) := by
    have := hl.countDown
    rwa [show (wakeups : Int) - w + 1 = ((wakeups + 1 : Nat) : Int) - w by omega] at this
  cases pc with
  | elsewhere => trivial
  | stored n w => exact next h
  | looping c =>
    obtain ⟨hl, hle, hpace⟩ := h
    exact ⟨next hl, by omega, by omega⟩
  | asleep c =>
    obtain ⟨hl, hle, hpace⟩ := h
    exact ⟨next hl, by omega, by omega⟩

/-- What holds of every process in every run. -/
def Tracks (k : Kernel nproc) : Prop :=
  ∀ p, Counts (k.pc p) (k.proc p).sleeptime k.wakeups k.ticks ∧
    (k.pc p ≠ .elsewhere → ProcState.live (k.proc p).state = true)

theorem wakeup1Slot_live (chan : Option (Chan nproc)) (q : Proc nproc) :
    ProcState.live (wakeup1Slot chan q).state = ProcState.live q.state := by
  unfold wakeup1Slot
  split
  · rename_i h
    rw [h.1]
    rfl
  · split <;> rfl

theorem Tracks.wakeup1 (h : k.Tracks) (chan : Option (Chan nproc)) :
    (wakeup1 chan k).Tracks := by
  intro p
  obtain ⟨hcounts, hlive⟩ := h p
  constructor
  · simp only [Kernel.wakeup1, wakeup1Slot_sleeptime]
    exact hcounts.countDown (Nat.zero_le 1)
  · simp only [Kernel.wakeup1, wakeup1Slot_live]
    exact hlive

theorem Tracks.timer (h : k.Tracks) : (timer k).Tracks := by
  intro p
  obtain ⟨hcounts, hlive⟩ := h p
  constructor
  · simp only [Kernel.timer, Kernel.wakeup1, wakeup1Slot_sleeptime]
    exact hcounts.countDown le_rfl
  · simp only [Kernel.timer, Kernel.wakeup1, wakeup1Slot_live]
    exact hlive

/-- Overwriting a slot keeps the count when it keeps `sleeptime` and a process that is in
`sys_sleep` keeps being one. -/
theorem Tracks.setProc (h : k.Tracks) (i : Fin nproc) (q : Proc nproc)
    (hslot : k.pc i = .elsewhere ∨
      (q.sleeptime = (k.proc i).sleeptime ∧ ProcState.live q.state = true)) :
    (k.setProc i q).Tracks := by
  intro p
  rw [setProc_proc]
  by_cases hp : p = i
  · subst hp
    rw [if_pos rfl]
    change Counts (k.pc p) q.sleeptime k.wakeups k.ticks ∧ (k.pc p ≠ .elsewhere → _)
    rcases hslot with hpc | ⟨hsleep, hlive⟩
    · rw [hpc]
      exact ⟨trivial, fun hne => absurd rfl hne⟩
    · rw [hsleep]
      exact ⟨(h p).1, fun _ => hlive⟩
  · rw [if_neg hp]
    exact h p

/-- Moving a process to a position from which the count holds. -/
theorem Tracks.setPc (h : k.Tracks) (i : Fin nproc) (pc : Pc)
    (hcounts : Counts pc (k.proc i).sleeptime k.wakeups k.ticks)
    (hlive : pc ≠ .elsewhere → ProcState.live (k.proc i).state = true) :
    (k.setPc i pc).Tracks := by
  intro p
  rw [setPc_pc]
  by_cases hp : p = i
  · subst hp
    rw [if_pos rfl]
    exact ⟨hcounts, hlive⟩
  · rw [if_neg hp]
    exact h p

/-- `nextpid` and `tickslock` are not part of the count. -/
theorem Tracks.congr (h : k.Tracks) (hproc : k'.proc = k.proc) (hpc : k'.pc = k.pc)
    (hticks : k'.ticks = k.ticks) (hwakeups : k'.wakeups = k.wakeups) : k'.Tracks := by
  intro p
  rw [hproc, hpc, hticks, hwakeups]
  exact h p

theorem Tracks.elsewhere_of_not_live (h : k.Tracks) {i : Fin nproc}
    (hstate : ProcState.live (k.proc i).state = false) : k.pc i = .elsewhere := by
  by_contra hpc
  rw [(h i).2 hpc] at hstate
  cases hstate

theorem Tracks.reparent (h : k.Tracks) (curproc i : Fin nproc) :
    (reparent initproc curproc k i).Tracks := by
  unfold Kernel.reparent
  by_cases hparent : (k.proc i).parent = some curproc
  · rw [if_pos hparent]
    have hset : (k.setProc i { k.proc i with parent := some initproc }).Tracks := by
      apply h.setProc
      by_cases hpc : k.pc i = .elsewhere
      · exact .inl hpc
      · exact .inr ⟨rfl, (h i).2 hpc⟩
    simp only
    split
    · exact hset.wakeup1 _
    · exact hset
  · rw [if_neg hparent]
    exact h

theorem Tracks.foldl_reparent (curproc : Fin nproc) (l : List (Fin nproc)) :
    ∀ {k : Kernel nproc}, k.Tracks → (l.foldl (Kernel.reparent initproc curproc) k).Tracks := by
  induction l with
  | nil => exact fun h => h
  | cons i l ih => exact fun h => ih (h.reparent curproc i)

theorem reparent_pc (curproc i : Fin nproc) (k : Kernel nproc) :
    (reparent initproc curproc k i).pc = k.pc := by
  unfold reparent
  split
  · simp only
    split <;> rfl
  · rfl

theorem foldl_reparent_pc (curproc : Fin nproc) (l : List (Fin nproc)) :
    ∀ k : Kernel nproc, (l.foldl (reparent initproc curproc) k).pc = k.pc := by
  induction l with
  | nil => exact fun _ => rfl
  | cons i l ih => exact fun k => (ih _).trans (reparent_pc curproc i k)

theorem Tracks.exit (h : k.Tracks) (curproc : Fin nproc) (hpc : k.pc curproc = .elsewhere) :
    (exit initproc curproc k).Tracks := by
  unfold Kernel.exit
  apply Tracks.setProc
  · exact (h.wakeup1 _).foldl_reparent curproc _
  · rw [foldl_reparent_pc]
    exact .inl hpc

theorem Tracks.kill (h : k.Tracks) (pid : Int) : (kill pid k).Tracks := by
  unfold Kernel.kill
  split
  · exact h
  · rename_i i _
    apply h.setProc
    by_cases hpc : k.pc i = .elsewhere
    · exact .inl hpc
    · have hlive := (h i).2 hpc
      right
      simp only
      split
      · exact ⟨rfl, rfl⟩
      · exact ⟨rfl, hlive⟩

theorem Tracks.sleep (h : k.Tracks) (chan : Chan nproc) (curproc : Fin nproc) :
    (sleep chan curproc k).Tracks := by
  apply h.setProc
  exact .inr ⟨rfl, rfl⟩

theorem Tracks.wait (h : k.Tracks) (curproc : Fin nproc) : (wait curproc k).Tracks := by
  rcases wait_cases curproc k with ⟨i, hz, hk⟩ | hk | hk
  · rw [hk]
    apply h.setProc
    left
    apply h.elsewhere_of_not_live
    rw [hz]
    rfl
  · rw [hk]
    exact h
  · rw [hk]
    exact h.sleep _ _

theorem Tracks.fork (h : k.Tracks) (curproc : Fin nproc) (result : ForkEnd) :
    (fork curproc result k).Tracks := by
  rcases fork_cases curproc result k with hk | ⟨i, q, hu, -, hk⟩
  · rw [hk]
    exact h
  · have hpc : k.pc i = .elsewhere := by
      apply h.elsewhere_of_not_live
      rw [hu]
      rfl
    rw [hk]
    exact (h.setProc i q (.inl hpc)).congr rfl rfl rfl rfl

/-- The head of the loop of `sys_sleep` keeps the count of the call it belongs to. -/
theorem Tracks.sleepLoop (h : k.Tracks) (c : SleepCall)
    (hcounts : Counts (.looping c) (k.proc p).sleeptime k.wakeups k.ticks)
    (hrun : (k.proc p).state = .running) : (sleepLoop c p k).Tracks := by
  unfold Kernel.sleepLoop
  split
  · refine Tracks.congr (h.setPc p (.looping c) hcounts ?_) rfl rfl rfl rfl
    intro _
    rw [hrun]
    rfl
  · refine Tracks.congr (h.setPc p .elsewhere trivial ?_) rfl rfl rfl rfl
    intro hne
    exact absurd rfl hne

/-- Every step of the kernel keeps the count of every sleeper. -/
theorem next_tracks {e : Event nproc} (h : k.Tracks) (hnext : next initproc k e = some k') :
    k'.Tracks := by
  cases steps_of_next hnext with
  | tick _ => exact h.timer
  | wakeup _ => exact h.wakeup1 _
  | kill pid => exact h.kill pid
  | trapKill _ hpc => exact h.setProc _ _ (.inl hpc)
  | exit _ hpc _ => exact h.exit _ hpc
  | schedule _ => exact h.setProc _ _ (.inr ⟨rfl, rfl⟩)
  | yield _ _ => exact h.setProc _ _ (.inr ⟨rfl, rfl⟩)
  | sleep _ _ _ => exact h.sleep _ _
  | wait _ _ => exact h.wait _
  | fork result _ _ => exact h.fork _ result
  | @sysSleep p n hrun hpc _ _ =>
    apply (h.setProc p _ (.inl hpc)).setPc
    · rw [setProc_proc, if_pos rfl]
      change LeftOf n n ((k.wakeups : Int) - k.wakeups)
      unfold LeftOf
      omega
    · intro _
      rw [setProc_proc, if_pos rfl]
      simp only [hrun, ProcState.live]
  | @acquireTickslock p n w hpc hrun _ =>
    have hcounts := (h p).1
    rw [hpc] at hcounts
    apply h.sleepLoop _ _ hrun
    refine ⟨hcounts, le_rfl, ?_⟩
    have := hcounts.1
    simp only
    omega
  | @sleepTicks p c hpc _ =>
    have hcounts := (h p).1
    rw [hpc] at hcounts
    refine Tracks.congr ((h.sleep .ticks p).setPc p (.asleep c) ?_ ?_) rfl rfl rfl rfl
    · simp only [Kernel.sleep, setProc_proc, if_pos]
      exact hcounts
    · intro _
      simp only [Kernel.sleep, setProc_proc, if_pos]
      rfl
  | @wakeTicks p c hpc hrun _ =>
    have hcounts := (h p).1
    rw [hpc] at hcounts
    exact h.sleepLoop c hcounts hrun

/-! ## Who stays asleep -/

/-- Process `p` is `SLEEPING` on `&ticks`. -/
def OnTicks (k : Kernel nproc) (p : Fin nproc) : Prop :=
  (k.proc p).state = .sleeping ∧ (k.proc p).chan = some .ticks

instance (k : Kernel nproc) (p : Fin nproc) : Decidable (k.OnTicks p) :=
  inferInstanceAs (Decidable (_ ∧ _))

/-- A `wakeup1` on another channel passes over the tick sleepers. -/
theorem OnTicks.wakeup1 (h : k.OnTicks p) {chan : Option (Chan nproc)}
    (hchan : chan ≠ some .ticks) : (wakeup1 chan k).OnTicks p := by
  have hslot : wakeup1Slot chan (k.proc p) =
      if (k.proc p).sleeptime > 0 then
        { k.proc p with sleeptime := (k.proc p).sleeptime - 1 }
      else k.proc p := by
    unfold wakeup1Slot
    apply if_neg
    rintro ⟨-, heq, -⟩
    exact hchan (heq.symm.trans h.2)
  unfold OnTicks
  simp only [Kernel.wakeup1, hslot]
  split
  · exact h
  · exact h

/-- Overwriting the slot of a process that does not sleep on `&ticks`. -/
theorem OnTicks.setProc (h : k.OnTicks p) {i : Fin nproc} (q : Proc nproc)
    (hi : (k.proc i).state ≠ .sleeping) : (k.setProc i q).OnTicks p := by
  have hne : p ≠ i := by
    rintro rfl
    exact hi h.1
  unfold OnTicks
  rw [setProc_proc, if_neg hne]
  exact h

theorem OnTicks.reparent (h : k.OnTicks p) (curproc i : Fin nproc) :
    (reparent initproc curproc k i).OnTicks p := by
  unfold Kernel.reparent
  by_cases hparent : (k.proc i).parent = some curproc
  · rw [if_pos hparent]
    have hset : (k.setProc i { k.proc i with parent := some initproc }).OnTicks p := by
      unfold OnTicks
      rw [setProc_proc]
      by_cases hp : p = i
      · subst hp
        rw [if_pos rfl]
        exact h
      · rw [if_neg hp]
        exact h
    simp only
    split
    · apply hset.wakeup1
      simp
    · exact hset
  · rw [if_neg hparent]
    exact h

theorem OnTicks.foldl_reparent (curproc : Fin nproc) (l : List (Fin nproc)) :
    ∀ {k : Kernel nproc}, k.OnTicks p →
      (l.foldl (Kernel.reparent initproc curproc) k).OnTicks p := by
  induction l with
  | nil => exact fun h => h
  | cons i l ih => exact fun h => ih (h.reparent curproc i)

theorem OnTicks.exit (h : k.OnTicks p) {curproc : Fin nproc} (hne : p ≠ curproc) :
    (exit initproc curproc k).OnTicks p := by
  unfold Kernel.exit OnTicks
  rw [setProc_proc, if_neg hne]
  apply OnTicks.foldl_reparent
  apply h.wakeup1
  cases (k.proc curproc).parent <;> simp

theorem OnTicks.kill (h : k.OnTicks p) (pid : Int) :
    (kill pid k).OnTicks p ∨ ((kill pid k).proc p).killed = true := by
  unfold Kernel.kill
  split
  · exact .inl h
  · rename_i i _
    by_cases hp : p = i
    · right
      simp only [setProc_proc, if_pos hp]
      split <;> rfl
    · left
      unfold OnTicks
      simp only [setProc_proc, if_neg hp]
      exact h

theorem OnTicks.wait (h : k.OnTicks p) {curproc : Fin nproc}
    (hrun : (k.proc curproc).state = .running) : (wait curproc k).OnTicks p := by
  rcases wait_cases curproc k with ⟨i, hz, hk⟩ | hk | hk
  · rw [hk]
    apply h.setProc
    rw [hz]
    decide
  · rw [hk]
    exact h
  · rw [hk]
    apply h.setProc
    rw [hrun]
    decide

theorem OnTicks.fork (h : k.OnTicks p) (curproc : Fin nproc) (result : ForkEnd) :
    (fork curproc result k).OnTicks p := by
  rcases fork_cases curproc result k with hk | ⟨i, q, hu, -, hk⟩
  · rw [hk]
    exact h
  · rw [hk]
    apply h.setProc
    rw [hu]
    decide

theorem OnTicks.sleepLoop (h : k.OnTicks p) (c : SleepCall) (curproc : Fin nproc) :
    (sleepLoop c curproc k).OnTicks p := by
  unfold Kernel.sleepLoop
  split <;> exact h

/-- Except for a tick, no step wakes a process that sleeps on `&ticks` unless it is killed. -/
theorem next_onTicks {e : Event nproc} (h : k.OnTicks p) (he : e ≠ .tick)
    (hnext : next initproc k e = some k') : k'.OnTicks p ∨ (k'.proc p).killed = true := by
  have running {i : Fin nproc} (hrun : (k.proc i).state = .running) :
      (k.proc i).state ≠ .sleeping := by
    rw [hrun]
    decide
  cases steps_of_next hnext with
  | tick _ => exact absurd rfl he
  | wakeup hchan =>
    left
    apply h.wakeup1
    simpa using hchan
  | kill pid => exact h.kill pid
  | trapKill hrun _ => exact .inl (h.setProc _ (running hrun))
  | exit hrun _ _ =>
    left
    apply h.exit
    rintro rfl
    exact running hrun h.1
  | schedule hready =>
    left
    apply h.setProc
    rw [hready]
    decide
  | yield hrun _ => exact .inl (h.setProc _ (running hrun))
  | sleep hrun _ _ => exact .inl (h.setProc _ (running hrun))
  | wait hrun _ => exact .inl (h.wait hrun)
  | fork result _ _ => exact .inl (h.fork _ result)
  | sysSleep hrun _ _ _ => exact .inl (h.setProc _ (running hrun))
  | acquireTickslock _ _ _ => exact .inl (h.sleepLoop _ _)
  | sleepTicks _ hrun => exact .inl (h.setProc _ (running hrun))
  | wakeTicks _ _ _ => exact .inl (h.sleepLoop _ _)

/-- What a tick does to a process that sleeps on `&ticks`. -/
theorem timer_onTicks (h : k.OnTicks p) :
    if (k.proc p).sleeptime ≤ 0 then ((timer k).proc p).state = .runnable
    else (timer k).OnTicks p := by
  have hslot : (timer k).proc p = wakeup1Slot (some .ticks) (k.proc p) := rfl
  unfold OnTicks
  rw [hslot]
  by_cases hle : (k.proc p).sleeptime ≤ 0
  · rw [if_pos hle]
    unfold wakeup1Slot
    rw [if_pos ⟨h.1, h.2, hle⟩]
  · rw [if_neg hle]
    unfold wakeup1Slot
    rw [if_neg (fun hc => hle hc.2.2), if_pos (by omega)]
    exact h

theorem timer_killed (k : Kernel nproc) (p : Fin nproc) :
    ((timer k).proc p).killed = (k.proc p).killed := by
  change (wakeup1Slot (some .ticks) (k.proc p)).killed = _
  unfold wakeup1Slot
  split
  · rfl
  · split <;> rfl

/-! ## Runs -/

/-- The call of `sys_sleep` that process `p` sleeps in, if its argument is positive and `p` is
`SLEEPING` on `&ticks`. -/
def sleeper (k : Kernel nproc) (p : Fin nproc) : Option SleepCall :=
  match k.pc p with
  | .asleep c => if 0 < c.n ∧ k.OnTicks p then some c else none
  | _ => none

theorem mem_sleeper {c : SleepCall} :
    c ∈ k.sleeper p ↔ k.pc p = .asleep c ∧ 0 < c.n ∧ k.OnTicks p := by
  unfold sleeper
  cases k.pc p with
  | asleep d =>
    simp only [Option.mem_def, Option.ite_none_right_eq_some, Option.some.injEq, Pc.asleep.injEq]
    constructor
    · rintro ⟨h, rfl⟩
      exact ⟨rfl, h⟩
    · rintro ⟨rfl, h⟩
      exact ⟨h, rfl⟩
  | elsewhere | stored _ _ | looping _ => simp

/-- No process is in `sys_sleep`. -/
def Quiet (k : Kernel nproc) : Prop := ∀ p, k.pc p = .elsewhere

theorem Quiet.tracks (h : k.Quiet) : k.Tracks := by
  intro p
  rw [h p]
  exact ⟨trivial, fun hne => absurd rfl hne⟩

/-- A tick sleeper's count-down has run out exactly when `n` calls of `wakeup1` were made. -/
theorem Tracks.sleeptime_le_zero_iff (h : k.Tracks) {c : SleepCall} (hc : c ∈ k.sleeper p) :
    (k.proc p).sleeptime ≤ 0 ↔ c.n ≤ (k.wakeups : Int) - c.wakeups0 := by
  obtain ⟨hpc, hn, -⟩ := mem_sleeper.mp hc
  have hcounts := (h p).1
  rw [hpc] at hcounts
  have hleft := hcounts.1.2 hn
  omega

/-- A tick before a sleeper's `n`-th comes while fewer than `n` calls of `wakeup1`, on any
channel, have been made since the sleeper stored `sleeptime`. -/
def TickFindsCount (k : Kernel nproc) (e : Event nproc) : Prop :=
  e = .tick → ∀ p, ∀ c ∈ k.sleeper p, (k.proc p).killed = false →
    (k.ticks : Int) + 1 - c.ticks0 < c.n → (k.wakeups : Int) - c.wakeups0 < c.n

instance (k : Kernel nproc) (e : Event nproc) : Decidable (k.TickFindsCount e) :=
  inferInstanceAs (Decidable (_ → _))

/-- A step that makes a tick sleeper `RUNNABLE` comes after its `n` ticks, or the process was
killed. -/
def WakesInTime (k : Kernel nproc) (_ : Event nproc) (k' : Kernel nproc) : Prop :=
  ∀ p, ∀ c ∈ k.sleeper p, (k'.proc p).state = .runnable →
    c.n ≤ (k'.ticks : Int) - c.ticks0 ∨ (k'.proc p).killed = true

theorem tickFindsCount_iff_wakesInTime {e : Event nproc} (h : k.Tracks)
    (hnext : next initproc k e = some k') : k.TickFindsCount e ↔ WakesInTime k e k' := by
  by_cases he : e = .tick
  · subst he
    simp only [next, Option.ite_none_right_eq_some, Option.some.injEq] at hnext
    obtain ⟨-, rfl⟩ := hnext
    have hticks : ((timer k).ticks : Int) = k.ticks + 1 := rfl
    constructor
    · intro hcount p c hc hrun
      by_contra hlate
      rw [not_or, timer_killed, hticks] at hlate
      have hcalls := hcount rfl p c hc (by simpa using hlate.2) (by omega)
      have htimer := timer_onTicks (mem_sleeper.mp hc).2.2
      rw [if_neg (by rw [h.sleeptime_le_zero_iff hc]; omega)] at htimer
      rw [htimer.1] at hrun
      cases hrun
    · intro hwakes _ p c hc hlive hearly
      by_contra hcalls
      have htimer := timer_onTicks (mem_sleeper.mp hc).2.2
      rw [if_pos (by rw [h.sleeptime_le_zero_iff hc]; omega)] at htimer
      have := hwakes p c hc htimer
      rw [timer_killed, hlive, hticks] at this
      rcases this with hdue | hkilled
      · omega
      · cases hkilled
  · constructor
    · intro _ p c hc hrun
      rcases next_onTicks (mem_sleeper.mp hc).2.2 he hnext with hon | hkilled
      · rw [hon.1] at hrun
        cases hrun
      · exact .inr hkilled
    · intro _ htick
      exact absurd htick he

/-- Tick sleepers are not woken early exactly in the runs where other wakeups never use up a
count-down: for any number of processes and any interleaving of ticks, wakeups on other
channels, exits, kills and scheduling, a run wakes no tick sleeper that was not killed before
its `n` ticks if and only if at every tick before a sleeper's `n`-th, fewer than `n` calls of
`wakeup1` have been made since it stored `sleeptime`. -/
theorem sleepers_wake_in_time_iff (initproc : Fin nproc) {k : Kernel nproc} (hquiet : k.Quiet)
    (es : List (Event nproc)) (k' : Kernel nproc) :
    Run (guarded TickFindsCount (stepOf (next initproc))) k es k' ↔
      Run (outcome WakesInTime (stepOf (next initproc))) k es k' := by
  apply Run.guarded_iff_outcome Tracks hquiet.tracks
  · intro t e u ht _ hstep
    exact next_tracks ht hstep
  · intro t e u ht hstep
    exact tickFindsCount_iff_wakesInTime ht hstep

/-- The first process and a second one that runs, with no other slot in use. -/
def booted : Kernel 2 where
  proc i :=
    { state := if i = 0 then .runnable else .running
      pid := if i = 0 then 1 else 2
      parent := if i = 0 then none else some 0
      chan := none
      killed := false
      sleeptime := 0 }
  nextpid := 3
  ticks := 0
  tickslock := none
  pc _ := .elsewhere
  wakeups := 0

theorem booted_quiet : booted.Quiet := fun _ => rfl

/-- The second process calls `sys_sleep(2)` and is now `SLEEPING`. -/
def sleepTwo : List (Event 2) := [.sysSleep 1 2, .acquireTickslock 1, .sleepTicks 1]

/-- With ticks alone, `sys_sleep(2)` is not woken early. -/
theorem sleepers_wake_in_time_iff_ticks_only :
    booted.Quiet ∧ ∃ k, Run (outcome WakesInTime (stepOf (next 0))) booted
      (sleepTwo ++ [.tick, .tick, .tick]) k := by
  have htrace : (runOf (fun k e => if k.TickFindsCount e then next 0 k e else none) booted
      (sleepTwo ++ [.tick, .tick, .tick])).isSome = true := by decide
  obtain ⟨k, hk⟩ := Option.isSome_iff_exists.mp htrace
  exact ⟨booted_quiet, k,
    (sleepers_wake_in_time_iff 0 booted_quiet _ k).mp (run_guarded_of_runOf hk)⟩

/-- Two wakeups on a pipe use up the count-down of `sys_sleep(2)`, and the first tick wakes the
process. -/
theorem sleepers_wake_early_after_wakeups :
    ¬ ∀ (nproc : Nat) (initproc : Fin nproc) (k t u : Kernel nproc) (es : List (Event nproc))
      (e : Event nproc), k.Quiet → Run (stepOf (next initproc)) k es t →
        next initproc t e = some u → WakesInTime t e u := by
  intro hall
  have htrace : (runOf (next 0) booted (sleepTwo ++ [.wakeup (.other 0), .wakeup (.other 0)])).map
      (fun t => (t.sleeper 1, t.tickslock, ((timer t).proc 1).state, (timer t).ticks,
        ((timer t).proc 1).killed)) =
      some (some ⟨2, 0, 0⟩, none, .runnable, 1, false) := by decide
  obtain ⟨t, ht, hobs⟩ := Option.map_eq_some_iff.mp htrace
  simp only [Prod.mk.injEq] at hobs
  obtain ⟨hsleeper, hfree, hrun, hticks, hlive⟩ := hobs
  have hnext : next 0 t .tick = some (timer t) := if_pos hfree
  rcases hall 2 0 booted t _ _ _ booted_quiet (run_of_runOf ht) hnext 1 _ hsleeper hrun with
    hdue | hkilled
  · rw [hticks] at hdue
    exact absurd hdue (by decide)
  · rw [hlive] at hkilled
    cases hkilled

/-- At a sleeper's `n`-th tick, at least one call of `wakeup1` besides those of the earlier ticks
has been made since it stored `sleeptime`. -/
def TickFindsExtraCall (k : Kernel nproc) (e : Event nproc) : Prop :=
  e = .tick → ∀ p, ∀ c ∈ k.sleeper p, (k.ticks : Int) + 1 - c.ticks0 = c.n →
    (k.ticks : Int) - c.ticks0 < (k.wakeups : Int) - c.wakeups0

instance (k : Kernel nproc) (e : Event nproc) : Decidable (k.TickFindsExtraCall e) :=
  inferInstanceAs (Decidable (_ → _))

/-- After a tick, no process sleeps on `&ticks` whose `n` ticks are over. -/
def NoneOversleeps (_ : Kernel nproc) (e : Event nproc) (k' : Kernel nproc) : Prop :=
  e = .tick → ∀ p, ∀ c ∈ k'.sleeper p, (k'.ticks : Int) - c.ticks0 < c.n

/-- A process that sleeps on `&ticks` after a tick did so before it. -/
theorem sleeper_of_timer {c : SleepCall} (hc : c ∈ (timer k).sleeper p) : c ∈ k.sleeper p := by
  obtain ⟨hpc, hn, hstate, hchan⟩ := mem_sleeper.mp hc
  have hslot : (timer k).proc p = wakeup1Slot (some .ticks) (k.proc p) := rfl
  rw [hslot] at hstate hchan
  unfold wakeup1Slot at hstate hchan
  apply mem_sleeper.mpr
  refine ⟨hpc, hn, ?_⟩
  split at hstate
  · cases hstate
  · rename_i hnot
    rw [if_neg hnot] at hchan
    split at hstate
    · rename_i hpos
      rw [if_pos hpos] at hchan
      exact ⟨hstate, hchan⟩
    · rename_i hpos
      rw [if_neg hpos] at hchan
      exact ⟨hstate, hchan⟩

theorem tickFindsExtraCall_iff_noneOversleeps {e : Event nproc} (h : k.Tracks)
    (hnext : next initproc k e = some k') :
    k.TickFindsExtraCall e ↔ NoneOversleeps k e k' := by
  by_cases he : e = .tick
  · subst he
    simp only [next, Option.ite_none_right_eq_some, Option.some.injEq] at hnext
    obtain ⟨-, rfl⟩ := hnext
    have hticks : ((timer k).ticks : Int) = k.ticks + 1 := rfl
    constructor
    · intro hextra _ p c hc
      have hc' := sleeper_of_timer hc
      have hpace := (h p).1
      rw [(mem_sleeper.mp hc').1] at hpace
      obtain ⟨-, -, hpace⟩ := hpace
      have hbefore := hextra rfl p c hc'
      have htimer := timer_onTicks (mem_sleeper.mp hc').2.2
      by_contra hlate
      rw [if_pos (by rw [h.sleeptime_le_zero_iff hc']; omega),
        (mem_sleeper.mp hc).2.2.1] at htimer
      cases htimer
    · intro hnone _ p c hc hdue
      obtain ⟨hpc, hn, hon⟩ := mem_sleeper.mp hc
      by_contra hcalls
      have htimer := timer_onTicks hon
      rw [if_neg (by rw [h.sleeptime_le_zero_iff hc]; omega)] at htimer
      have := hnone rfl p c (mem_sleeper.mpr ⟨hpc, hn, htimer⟩)
      omega
  · constructor
    · intro _ htick
      exact absurd htick he
    · intro _ htick
      exact absurd htick he

/-- Tick sleepers do not oversleep exactly in the runs where something else than the ticks has
moved their count-down: `wakeup1` tests `sleeptime` before it takes one off, so ticks alone
make a process `RUNNABLE` at tick `n + 1`. A run leaves no process asleep on `&ticks` after
its `n`-th tick if and only if, at the `n`-th tick of every sleeper, a call of `wakeup1`
besides those of its earlier ticks has been made since it stored `sleeptime`. -/
theorem sleepers_wake_by_deadline_iff (initproc : Fin nproc) {k : Kernel nproc}
    (hquiet : k.Quiet) (es : List (Event nproc)) (k' : Kernel nproc) :
    Run (guarded TickFindsExtraCall (stepOf (next initproc))) k es k' ↔
      Run (outcome NoneOversleeps (stepOf (next initproc))) k es k' := by
  apply Run.guarded_iff_outcome Tracks hquiet.tracks
  · intro t e u ht _ hstep
    exact next_tracks ht hstep
  · intro t e u ht hstep
    exact tickFindsExtraCall_iff_noneOversleeps ht hstep

/-- With one wakeup on another channel, `sys_sleep(2)` ends at its second tick. -/
theorem sleepers_wake_by_deadline_iff_one_wakeup :
    booted.Quiet ∧ ∃ k, Run (outcome NoneOversleeps (stepOf (next 0))) booted
      (sleepTwo ++ [.wakeup (.other 0), .tick, .tick]) k := by
  have htrace : (runOf (fun k e => if k.TickFindsExtraCall e then next 0 k e else none) booted
      (sleepTwo ++ [.wakeup (.other 0), .tick, .tick])).isSome = true := by decide
  obtain ⟨k, hk⟩ := Option.isSome_iff_exists.mp htrace
  exact ⟨booted_quiet, k,
    (sleepers_wake_by_deadline_iff 0 booted_quiet _ k).mp (run_guarded_of_runOf hk)⟩

/-- After `sys_sleep(2)` and two ticks the process still sleeps. -/
theorem sleepers_oversleep_with_ticks_only :
    ¬ ∀ (nproc : Nat) (initproc : Fin nproc) (k t u : Kernel nproc) (es : List (Event nproc))
      (e : Event nproc), k.Quiet → Run (stepOf (next initproc)) k es t →
        next initproc t e = some u → NoneOversleeps t e u := by
  intro hall
  have htrace : (runOf (next 0) booted (sleepTwo ++ [.tick])).map
      (fun t => (t.tickslock, (timer t).sleeper 1, (timer t).ticks)) =
      some (none, some ⟨2, 0, 0⟩, 2) := by decide
  obtain ⟨t, ht, hobs⟩ := Option.map_eq_some_iff.mp htrace
  simp only [Prod.mk.injEq] at hobs
  obtain ⟨hfree, hsleeper, hticks⟩ := hobs
  have hnext : next 0 t .tick = some (timer t) := if_pos hfree
  have hdue := hall 2 0 booted t _ _ _ booted_quiet (run_of_runOf ht) hnext rfl 1 _ hsleeper
  rw [hticks] at hdue
  exact absurd hdue (by decide)

end Kernel

end Cs537.P4
