import Cs537.P4.Scheduling

/-!
# Ticks

The `ticks` of a process, an `int`, count the times that a processor has switched to it.
-/

namespace Cs537.P4

open Cs537.Lib

namespace Machine

variable {ncpu nproc : Nat} {initproc p q : Fin nproc} {m m' s t : Machine ncpu nproc}
  {e : Event ncpu nproc} {c d : Fin ncpu} {es : List (Event ncpu nproc)} {k : Kernel nproc}

variable {i : Fin nproc}

theorem allocInfo_cases (k : Kernel nproc) (e : Kernel.Event nproc) (info : Fin nproc → SchedInfo)
    (i : Fin nproc) : allocInfo k e info i = info i ∨
      (k.proc i).state = .unused ∧ allocInfo k e info i = ⟨0, 0, 0⟩ := by
  have hreset : ∀ j, freeSlot k = some j →
      Function.update info j ⟨0, 0, 0⟩ i = info i ∨ (k.proc i).state = .unused ∧
        Function.update info j ⟨0, 0, 0⟩ i = ⟨0, 0, 0⟩ := by
    intro j hfind
    have hunused : (k.proc j).state = .unused := by
      simpa [freeSlot] using List.find?_some hfind
    rw [Function.update_apply]
    by_cases hij : i = j
    · rw [if_pos hij, hij]
      exact .inr ⟨hunused, rfl⟩
    · rw [if_neg hij]
      exact .inl rfl
  unfold allocInfo
  split
  · cases hfind : freeSlot k with
    | none => exact .inl rfl
    | some j => exact hreset j hfind
  · cases hfind : freeSlot k with
    | none => exact .inl rfl
    | some j => exact hreset j hfind
  · exact .inl rfl

/-- A call of `fork` is made while `nextpid` can still grow. -/
def pidLeft (m : Machine ncpu nproc) : Event ncpu nproc → Bool
  | .call _ e => m.kernel.family.pidLeft e
  | _ => true

/-- The kernel of a machine does steps of the kernel. -/
theorem kernel_next (hnext : next initproc m e = some m') (hleft : m.pidLeft e) :
    m'.kernel = m.kernel ∨ ∃ e', m.kernel.family.pidLeft e' ∧
      Kernel.next initproc m.kernel e' = some m'.kernel := by
  cases steps_of_next hnext with
  | @interrupt e k hintr _ hk =>
    right
    refine ⟨e, ?_, hk⟩
    cases e with
    | tick | wakeup _ | kill _ => rfl
    | _ => cases hintr
  | @call c p e k _ _ _ hk =>
    right
    refine ⟨e, hleft, ?_⟩
    rw [(back_kernel { m with kernel := k, info := allocInfo m.kernel e m.info } c p).1]
    exact hk
  | switch _ _ _ hk => exact .inr ⟨_, rfl, hk⟩
  | nice _ _ | acquire _ _ | pass _ _ _ | release _ _ => exact .inl rfl

theorem family_of_run
    (run : Run (guarded (fun m e => m.pidLeft e) (stepOf (next initproc))) (boot ncpu initproc) es
      m) : m.kernel.family.Sound initproc := by
  refine run.invariant (fun m => m.kernel.family.Sound initproc) (Kernel.sound_userinit initproc) ?_
  rintro t e u h ⟨hleft, hstep⟩
  rcases kernel_next hstep hleft with hsame | ⟨e', hleft', hk⟩
  · rw [hsame]
    exact h
  · exact h.moves (Kernel.moves_of_next hk) hleft'

/-- What `allocproc`, `nice` and the scheduler may store. -/
structure Valid (info : SchedInfo) : Prop where
  priority : info.priority = 0
  nice : 0 ≤ info.nice ∧ info.nice ≤ 20
  ticks : i32 info.ticks = info.ticks

theorem valid_zero : Valid ⟨0, 0, 0⟩ := ⟨rfl, by decide, by decide⟩

theorem valid_setNice {info : SchedInfo} (h : Valid info) (newnice : Int) :
    Valid (setNice newnice info).2 := by
  unfold setNice
  split
  · exact h
  · rename_i hrange
    rw [not_or] at hrange
    exact ⟨h.priority, ⟨Int.not_lt.mp hrange.1, Int.not_lt.mp hrange.2⟩, h.ticks⟩

theorem i32_i32 (x : Int) : i32 (i32 x) = i32 x := i32_of_mem (i32_mem x).1 (i32_mem x).2

theorem i32_i32_add (x y : Int) : i32 (i32 x + y) = i32 (x + y) := by
  unfold i32
  omega

/-- What a step does to the entry of a slot in use: it counts switches, and `nice` stays valid. -/
theorem info_next (hnext : next initproc m e = some m') (hvalid : ∀ i, Valid (m.info i)) :
    (∀ i, Valid (m'.info i)) ∧ ∃ l, m'.switches = m.switches ++ l ∧
      ∀ i, (m.kernel.proc i).state ≠ .unused →
        (m'.info i).ticks = i32 ((m.info i).ticks + ((l.map Prod.snd).count i : Nat)) := by
  have hnone : ∀ {i}, (m.info i).ticks =
      i32 ((m.info i).ticks + (([] : List (Fin nproc)).count i : Nat)) := by
    intro i
    exact (hvalid i).ticks.symm.trans (congrArg i32 (Int.add_zero _).symm)
  cases steps_of_next hnext with
  | interrupt _ _ _ | acquire _ _ | pass _ _ _ | release _ _ =>
    exact ⟨hvalid, [], (List.append_nil _).symm, fun i _ => hnone⟩
  | @call c p e k _ _ _ _ =>
    obtain ⟨-, hswitches, hinfo⟩ := back_kernel
      { m with kernel := k, info := allocInfo m.kernel e m.info } c p
    rw [hinfo, hswitches]
    refine ⟨fun i => ?_, [], (List.append_nil _).symm, fun i hused => ?_⟩
    · dsimp only
      rcases allocInfo_cases m.kernel e m.info i with heq | ⟨-, heq⟩
      · rw [heq]
        exact hvalid i
      · rw [heq]
        exact valid_zero
    · dsimp only
      rcases allocInfo_cases m.kernel e m.info i with heq | ⟨hunused, -⟩
      · rw [heq]
        exact hnone
      · exact absurd hunused hused
  | @nice c p newnice _ =>
    refine ⟨fun i => ?_, [], (List.append_nil _).symm, fun i _ => ?_⟩
    · dsimp only
      rw [Function.update_apply]
      split
      · exact valid_setNice (hvalid p) newnice
      · exact hvalid i
    · dsimp only
      rw [Function.update_apply]
      split
      · rename_i hi
        unfold setNice
        split
        · rw [hi]
          exact hnone
        · rw [hi]
          exact hnone
      · exact hnone
  | @switch c p k _ _ _ _ =>
    refine ⟨fun i => ?_, [(c, p)], rfl, fun i _ => ?_⟩
    · dsimp only
      rw [Function.update_apply]
      split
      · exact ⟨(hvalid p).priority, (hvalid p).nice, i32_i32 _⟩
      · exact hvalid i
    · dsimp only
      rw [Function.update_apply, List.map_singleton, List.count_singleton]
      by_cases hi : i = p
      · rw [if_pos hi, hi, if_pos (beq_self_eq_true p)]
        rfl
      · rw [if_neg hi, if_neg (by simpa using Ne.symm hi)]
        exact hnone

theorem valid_of_run
    (run : Run (guarded (fun m e => m.pidLeft e) (stepOf (next initproc))) (boot ncpu initproc) es
      m) : ∀ i, Valid (m.info i) :=
  run.of_guarded.invariant (fun m => ∀ i, Valid (m.info i)) (fun _ => valid_zero)
    fun _ _ _ h hstep => (info_next hstep h).1

/-- Between two moments at which a slot has the same pid its ticks count the switches to it. -/
theorem ticks_of_run
    (boots : Run (guarded (fun m e => m.pidLeft e) (stepOf (next initproc))) (boot ncpu initproc) es
      s) {es' : List (Event ncpu nproc)}
    (run : Run (guarded (fun m e => m.pidLeft e) (stepOf (next initproc))) s es' t)
    (hused : (s.kernel.proc i).state ≠ .unused) :
    ∃ new, t.switches = s.switches ++ new ∧ s.kernel.nextpid ≤ t.kernel.nextpid ∧
      ((t.kernel.proc i).state ≠ .unused → (t.kernel.proc i).pid = (s.kernel.proc i).pid →
        (t.info i).ticks = i32 ((s.info i).ticks + ((new.map Prod.snd).count i : Nat))) := by
  have hfresh := (family_of_run boots).fresh i fun hfree => hused (Kernel.stage_eq_free.mp hfree)
  induction run with
  | nil =>
    refine ⟨[], (List.append_nil _).symm, Int.le_refl _, fun _ _ => ?_⟩
    exact (valid_of_run boots i).ticks.symm.trans (congrArg i32 (Int.add_zero _).symm)
  | @snoc es' u v e before hstep ih =>
    obtain ⟨new, hnew, hle, hticks⟩ := ih
    obtain ⟨hleft, hnext⟩ := hstep
    obtain ⟨-, l, hl, hcount⟩ := info_next hnext (valid_of_run (boots.trans before))
    have hkeeps : u.kernel.nextpid ≤ v.kernel.nextpid ∧ ((v.kernel.proc i).state ≠ .unused →
        (v.kernel.proc i).pid = (s.kernel.proc i).pid →
        (u.kernel.proc i).state ≠ .unused ∧ (u.kernel.proc i).pid = (s.kernel.proc i).pid) := by
      rcases kernel_next hnext hleft with hsame | ⟨e', hleft', hk⟩
      · rw [hsame]
        exact ⟨Int.le_refl _, fun hstate hpid => ⟨hstate, hpid⟩⟩
      · have hmove := Kernel.moves_of_next hk
        refine ⟨hmove.nextpid_le (family_of_run (boots.trans before)) hleft',
          fun hstate hpid => ?_⟩
        have hold : (v.kernel.proc i).pid < s.kernel.nextpid := hpid ▸ hfresh
        obtain ⟨hfree, heq⟩ := hmove.keeps_pid
          (fun hfree => hstate (Kernel.stage_eq_free.mp hfree)) (Int.lt_of_lt_of_le hold hle)
        exact ⟨fun hunused => hfree (Kernel.stage_eq_free.mpr hunused), heq.symm.trans hpid⟩
    refine ⟨new ++ l, by rw [hl, hnew, List.append_assoc], Int.le_trans hle hkeeps.1,
      fun hstate hpid => ?_⟩
    obtain ⟨hstate', hpid'⟩ := hkeeps.2 hstate hpid
    rw [hcount i hstate', hticks hstate' hpid', i32_i32_add, List.map_append, List.count_append,
      Nat.cast_add, Int.add_assoc]

/-- Between two moments at which a slot belongs to the same process the `ticks` there have grown by
the number of switches to it, as an `int`. The priority is always 0, `nice` in its range. -/
theorem ticks_count_switches
    (boots : Run (guarded (fun m e => m.pidLeft e) (stepOf (next initproc))) (boot ncpu initproc) es
      s) {es' : List (Event ncpu nproc)}
    (run : Run (guarded (fun m e => m.pidLeft e) (stepOf (next initproc))) s es' t)
    (hused : (s.kernel.proc i).state ≠ .unused) (hused' : (t.kernel.proc i).state ≠ .unused)
    (hpid : (t.kernel.proc i).pid = (s.kernel.proc i).pid) :
    ∃ new, t.switches = s.switches ++ new ∧
      (t.info i).ticks = i32 ((s.info i).ticks + ((new.map Prod.snd).count i : Nat)) ∧
      (t.info i).priority = 0 ∧ 0 ≤ (t.info i).nice ∧ (t.info i).nice ≤ 20 := by
  obtain ⟨new, hnew, -, hticks⟩ := ticks_of_run boots run hused
  have hvalid := valid_of_run (boots.trans run) i
  exact ⟨new, hnew, hticks hused' hpid, hvalid.priority, hvalid.nice⟩

/-- The first process before and after a `yield`. -/
theorem ticks_count_switches_yield : ∃ s t,
    Run (guarded (fun m e => m.pidLeft e) (stepOf (next 0))) (boot 1 (0 : Fin 2))
      [.acquire 0, .look 0, .nice 0 5] s ∧
    Run (guarded (fun m e => m.pidLeft e) (stepOf (next 0))) s
      [.call 0 (.yield 0), .look 0, .release 0, .acquire 0, .look 0] t ∧
    (t.info 0).ticks = 2 ∧
    ∃ new, t.switches = s.switches ++ new ∧
      (t.info 0).ticks = i32 ((s.info 0).ticks + ((new.map Prod.snd).count 0 : Nat)) ∧
      (t.info 0).priority = 0 ∧ 0 ≤ (t.info 0).nice ∧ (t.info 0).nice ≤ 20 := by
  have hruns : (runOf (fun m e => if m.pidLeft e then next 0 m e else none) (boot 1 (0 : Fin 2))
      [.acquire 0, .look 0, .nice 0 5]).any
      (fun s => (s.kernel.proc 0).state = .running ∧ (s.kernel.proc 0).pid = 1 ∧
        (runOf (fun m e => if m.pidLeft e then next 0 m e else none) s
          [.call 0 (.yield 0), .look 0, .release 0, .acquire 0, .look 0]).any
          (fun t => (t.kernel.proc 0).state = .running ∧ (t.kernel.proc 0).pid = 1 ∧
            (t.info 0).ticks = 2)) = true := by
    decide +kernel
  obtain ⟨s, hs, hrest⟩ := (Option.any_eq_true _ _).mp hruns
  obtain ⟨hrun, hpid, hrest⟩ := of_decide_eq_true hrest
  obtain ⟨t, ht, hrest⟩ := (Option.any_eq_true _ _).mp hrest
  obtain ⟨hrun', hpid', hticks⟩ := of_decide_eq_true hrest
  have hused : (s.kernel.proc 0).state ≠ .unused := by
    rw [hrun]
    decide
  have hused' : (t.kernel.proc 0).state ≠ .unused := by
    rw [hrun']
    decide
  have first := run_guarded_of_runOf hs
  have second := run_guarded_of_runOf ht
  exact ⟨s, t, first, second, hticks,
    ticks_count_switches first second hused hused' (hpid'.trans hpid.symm)⟩

end Machine

end Cs537.P4
