import Cs537.Lib.Monitor
import Cs537.P5.Recovery

/-!
# Room in the log

`begin_op` lets an operation in only if there is room for all that the operations going on may log,
`MAXOPBLOCKS` blocks each, and sleeps otherwise. Here is when that keeps `log_write` from its panic,
and that nobody sleeps for ever for want of a wakeup.
-/

namespace Cs537.P5

open Cs537.Lib

namespace LogSystem

variable {sb : Superblock} {s s' : LogSystem} {a : Store Nat Nat Block} {disk : Nat → Block}
  {es : List Event}

/-! ## Sleeping in `begin_op` -/

/-- The processes that sleep on `&log`. -/
def monitor : Monitor LogSystem Nat Unit where
  asleep s p := if s.asleep p then some () else none
  blocked s _ := s.blocked = true

theorem asleep_monitor {p : Nat} : monitor.asleep s p = some () ↔ s.asleep p = true := by
  unfold monitor
  simp

theorem blocked_of_committing (h : s.committing = true) : s.blocked = true := by
  unfold blocked
  rw [h]
  rfl

/-- What is needed to go on where the committing process stands. -/
theorem Sim.committing (h : s.Sim sb a) (hrec : s.pc.recovering = false) (hpc : s.pc ≠ .quiet) :
    s.committing = true := by
  have hphase := h.phase
  cases hpc' : s.pc with
  | quiet => exact absurd hpc' hpc
  | writing _ | heading | closing =>
    rw [hpc'] at hphase
    exact hphase.2.1
  | installing _ r | erasing r =>
    rw [hpc'] at hphase hrec
    cases r with
    | true => cases hrec
    | false => exact hphase.2
  | booting =>
    rw [hpc'] at hrec
    cases hrec

/-- Nobody sleeps during the recovery. -/
def AwakeAtBoot (s : LogSystem) : Prop := s.pc.recovering = true → ∀ p, s.asleep p = false

/-- The process that commits leaves the sleepers asleep until it has ended. -/
theorem wakes_of_committing (hasleep : s'.asleep = s.asleep) (hcommitting : s'.committing = true) :
    monitor.Wakes s s' := by
  refine Monitor.Wakes.of_blocked ?_ fun _ _ => blocked_of_committing hcommitting
  intro p c hp
  rw [asleep_monitor] at hp ⊢
  rwa [← hasleep]

theorem wakes_of_awake (hawake : ∀ p, s'.asleep p = false) : monitor.Wakes s s' := by
  refine Monitor.Wakes.of_awake fun p => ?_
  exact if_neg (by rw [hawake p]; exact Bool.false_ne_true)

theorem wakes_beginOp (s : LogSystem) (p : Nat) : monitor.Wakes s (s.beginOp p) := by
  unfold beginOp
  cases hblocked : s.blocked with
  | true => exact ⟨fun _ _ _ => .inr hblocked, fun _ _ hfree => absurd hblocked hfree⟩
  | false =>
    refine ⟨fun _ _ hp => .inl hp, fun _ hc => ?_⟩
    have hc' : s.blocked = true := hc
    rw [hblocked] at hc'
    cases hc'

/-- A change that lengthens `lh`. -/
theorem wakes_of_le (hasleep : s'.asleep = s.asleep) (hcommitting : s'.committing = s.committing)
    (houtstanding : s'.outstanding = s.outstanding) (hlh : s.lh.length ≤ s'.lh.length) :
    monitor.Wakes s s' := by
  refine Monitor.Wakes.of_blocked ?_ ?_
  · intro p c hp
    rw [asleep_monitor] at hp ⊢
    rwa [← hasleep]
  · intro _ hc
    have hblocked : s.blocked = true := hc
    refine show s'.blocked = true from ?_
    unfold blocked at hblocked ⊢
    rw [hcommitting, houtstanding]
    rw [Bool.or_eq_true, decide_eq_true_eq] at hblocked ⊢
    exact hblocked.imp_right fun hfull => Nat.lt_of_lt_of_le hfull (Nat.add_le_add_right hlh _)

theorem wakes_endOp {p : Nat} (hend : s.endOp p = some s') : monitor.Wakes s s' := by
  unfold endOp at hend
  dsimp only at hend
  split at hend
  · cases hend
  · split at hend
    · cases hend
      exact wakes_of_committing rfl rfl
    · cases hend
      exact wakes_of_awake fun _ => rfl

/-- A step of the committing process. -/
theorem work_committing (hwork : s.work sb = some s') (hpc : s.pc ≠ .closing) :
    s'.asleep = s.asleep ∧ s'.committing = s.committing := by
  unfold work at hwork
  cases hpc' : s.pc with
  | quiet =>
    rw [hpc'] at hwork
    cases hwork
  | closing => exact absurd hpc' hpc
  | heading | erasing _ | booting =>
    rw [hpc'] at hwork
    cases hwork
    exact ⟨rfl, rfl⟩
  | writing tail | installing tail _ =>
    rw [hpc'] at hwork
    dsimp only at hwork
    split at hwork
    · cases hwork
      exact ⟨rfl, rfl⟩
    · cases hwork
      exact ⟨rfl, rfl⟩

theorem work_closing (hwork : s.work sb = some s') (hpc : s.pc = .closing) :
    ∀ p, s'.asleep p = false := by
  unfold work at hwork
  rw [hpc] at hwork
  cases hwork
  exact fun _ => rfl

/-- A recovery goes on, or begins with a boot. -/
theorem work_recovering (hwork : s.work sb = some s') (hrec : s'.pc.recovering = true) :
    s.pc.recovering = true := by
  unfold work at hwork
  cases hpc : s.pc with
  | quiet =>
    rw [hpc] at hwork
    cases hwork
  | booting => rfl
  | closing | heading =>
    rw [hpc] at hwork
    cases hwork
    cases hrec
  | erasing r =>
    rw [hpc] at hwork
    cases hwork
    cases r with
    | true => rfl
    | false => cases hrec
  | writing tail =>
    rw [hpc] at hwork
    dsimp only at hwork
    split at hwork
    · cases hwork
      cases hrec
    · cases hwork
      cases hrec
  | installing tail r =>
    rw [hpc] at hwork
    dsimp only at hwork
    cases r with
    | true => rfl
    | false =>
      split at hwork
      · cases hwork
        cases hrec
      · cases hwork
        cases hrec

theorem AwakeAtBoot.next (h : s.AwakeAtBoot) {e : Event} (hstep : s.next sb e = some s') :
    s'.AwakeAtBoot := by
  cases e with
  | begin p =>
    simp only [LogSystem.next, Option.ite_none_right_eq_some, Option.some.injEq] at hstep
    obtain ⟨⟨hrec, -, -⟩, rfl⟩ := hstep
    intro hrec'
    have hpc : (s.beginOp p).pc = s.pc := by
      unfold beginOp
      split <;> rfl
    rw [hpc, hrec] at hrec'
    cases hrec'
  | write p b data =>
    simp only [LogSystem.next, Option.ite_none_right_eq_some] at hstep
    obtain ⟨-, -, rfl⟩ := logWrite_eq_some hstep.2
    exact h
  | finish p =>
    simp only [LogSystem.next, Option.ite_none_right_eq_some] at hstep
    have hend := hstep.2
    unfold endOp at hend
    dsimp only at hend
    split at hend
    · cases hend
    · split at hend
      · cases hend
        intro hrec'
        dsimp only at hrec'
        split at hrec' <;> cases hrec'
      · cases hend
        exact fun _ _ => rfl
  | work =>
    by_cases hpc : s.pc = .closing
    · exact fun _ => work_closing hstep hpc
    · obtain ⟨hasleep, -⟩ := work_committing hstep hpc
      intro hrec'
      rw [hasleep]
      exact h (work_recovering hstep hrec')
  | evict b =>
    simp only [LogSystem.next, Option.ite_none_right_eq_some, Option.some.injEq] at hstep
    obtain ⟨-, rfl⟩ := hstep
    exact h
  | kill p =>
    cases hstep
    intro hrec q
    dsimp only
    by_cases hq : q = p
    · rw [hq, Function.update_self]
    · rw [Function.update_of_ne hq]
      exact h hrec q
  | crash =>
    cases hstep
    exact fun _ _ => rfl

/-- No step loses a wakeup. -/
theorem Sim.wakes (h : s.Sim sb a) (hboot : s.AwakeAtBoot) {e : Event}
    (hstep : s.next sb e = some s') : monitor.Wakes s s' := by
  cases e with
  | begin p =>
    simp only [LogSystem.next, Option.ite_none_right_eq_some, Option.some.injEq] at hstep
    obtain ⟨-, rfl⟩ := hstep
    exact wakes_beginOp s p
  | write p b data =>
    simp only [LogSystem.next, Option.ite_none_right_eq_some] at hstep
    obtain ⟨-, -, rfl⟩ := logWrite_eq_some hstep.2
    refine wakes_of_le rfl rfl rfl ?_
    dsimp only
    split
    · exact le_refl _
    · rw [List.length_append]
      exact Nat.le_add_right _ _
  | finish p =>
    simp only [LogSystem.next, Option.ite_none_right_eq_some] at hstep
    exact wakes_endOp hstep.2
  | work =>
    by_cases hpc : s.pc = .closing
    · exact wakes_of_awake (work_closing hstep hpc)
    · obtain ⟨hasleep, hcommitting⟩ := work_committing hstep hpc
      cases hrec : s.pc.recovering with
      | true =>
        refine wakes_of_awake ?_
        rw [hasleep]
        exact hboot hrec
      | false =>
        refine wakes_of_committing hasleep (hcommitting.trans (h.committing hrec ?_))
        intro hquiet
        have hwork : s.work sb = some s' := hstep
        unfold LogSystem.work at hwork
        rw [hquiet] at hwork
        cases hwork
  | evict b =>
    simp only [LogSystem.next, Option.ite_none_right_eq_some, Option.some.injEq] at hstep
    obtain ⟨-, rfl⟩ := hstep
    exact wakes_of_le rfl rfl rfl (le_refl _)
  | kill p =>
    cases hstep
    refine Monitor.Wakes.of_blocked ?_ fun _ hc => hc
    intro q c hq
    rw [asleep_monitor] at hq ⊢
    dsimp only at hq
    by_cases hqp : q = p
    · rw [hqp, Function.update_self] at hq
      cases hq
    · rwa [Function.update_of_ne hqp] at hq
  | crash =>
    cases hstep
    exact wakes_of_awake fun _ => rfl

theorem sound_run (hfits : Fits sb (disk sb.logstart).head)
    (run : Run (stepOf (LogSystem.next sb)) (boot disk) es s) :
    (∃ a, s.Sim sb a) ∧ s.AwakeAtBoot ∧ monitor.Sound s := by
  refine run.invariant (fun s => (∃ a, s.Sim sb a) ∧ s.AwakeAtBoot ∧ monitor.Sound s) ?_ ?_
  · refine ⟨⟨_, sim_boot hfits fun _ _ => rfl⟩, fun _ _ => rfl, ?_⟩
    intro p c hp
    rw [asleep_monitor] at hp
    cases hp
  · rintro t e u ⟨⟨a, hsim⟩, hboot, hsound⟩ hstep
    obtain ⟨-, a', -, hsim', -⟩ := hsim.step hstep
    exact ⟨⟨a', hsim'⟩, hboot.next hstep, hsound.step (hsim.wakes hboot hstep)⟩

/-- When nothing goes on nobody sleeps. -/
theorem awake_of_idle (hsim : s.Sim sb a) (hsound : monitor.Sound s) (hpc : s.pc = .quiet)
    (hops : s.ops = []) (p : Nat) : s.asleep p = false := by
  by_contra hp
  have hblocked : s.blocked = true := hsound p () (asleep_monitor.mpr (by simpa using hp))
  have hphase := hsim.phase
  rw [hpc] at hphase
  obtain ⟨-, hcommitting, hempty⟩ := hphase
  unfold blocked at hblocked
  rw [hcommitting, hempty hops, hsim.outstanding, hops] at hblocked
  cases hblocked

theorem ops_of_work (hsim : s.Sim sb a) (hops : s.ops = []) {n : Nat}
    (run : Run (stepOf (LogSystem.next sb)) s (List.replicate n .work) s') : s'.ops = [] := by
  obtain ⟨a', hsim', hactive⟩ : ∃ a', s'.Sim sb a' ∧ a'.active = [] := by
    generalize hes : List.replicate n Event.work = es at run
    induction run generalizing n with
    | nil => exact ⟨a, hsim, by rw [hsim.active, hops]; rfl⟩
    | @snoc es t u e _ hstep ih =>
      obtain ⟨hn, hlen, rfl⟩ : ∃ m, es = List.replicate m Event.work ∧ e = Event.work := by
        refine ⟨es.length, List.eq_replicate_iff.mpr ⟨rfl, ?_⟩, ?_⟩
        · intro x hx
          exact List.eq_of_mem_replicate (hes ▸ List.mem_append_left [e] hx)
        · exact List.eq_of_mem_replicate (hes ▸ List.mem_append_right es List.mem_cons_self)
      obtain ⟨a', hsim', hactive⟩ := ih hlen.symm
      rcases hsim'.work hstep with h | ⟨-, h⟩
      · exact ⟨a', h, hactive⟩
      · exact ⟨_, h, hactive⟩
  exact List.map_eq_nil_iff.mp (hsim'.active.symm.trans hactive)

/-- Whoever sleeps in `begin_op` has to, and somebody is there to wake him: an operation, which when
it ends wakes everybody or commits, or the process that commits, which then wakes everybody. -/
theorem begin_op_wakeups (hfits : Fits sb (disk sb.logstart).head)
    (run : Run (stepOf (LogSystem.next sb)) (boot disk) es s) {p : Nat} (hp : s.asleep p = true) :
    s.blocked = true ∧ (s.ops ≠ [] ∨ s.committing = true) ∧
    (∀ q s', s.next sb (.finish q) = some s' →
      (∀ r, s'.asleep r = false) ∨ s'.committing = true) ∧
    (s.committing = true → ∃ n t, Run (stepOf (LogSystem.next sb)) s (List.replicate n .work) t ∧
      t.pc = .quiet ∧ ∀ r, t.asleep r = false) := by
  obtain ⟨⟨a, hsim⟩, hboot, hsound⟩ := sound_run hfits run
  refine ⟨hsound p () (asleep_monitor.mpr hp), ?_, ?_, ?_⟩
  · by_cases hops : s.ops = []
    · right
      by_cases hpc : s.pc = .quiet
      · rw [awake_of_idle hsim hsound hpc hops p] at hp
        cases hp
      · cases hrec : s.pc.recovering with
        | true =>
          rw [hboot hrec p] at hp
          cases hp
        | false => exact hsim.committing hrec hpc
    · exact .inl hops
  · intro q s' hstep
    simp only [LogSystem.next, Option.ite_none_right_eq_some] at hstep
    have hend := hstep.2
    unfold endOp at hend
    dsimp only at hend
    split at hend
    · cases hend
    · split at hend
      · cases hend
        exact .inr rfl
      · cases hend
        exact .inl fun _ => rfl
  · intro hcommitting
    obtain ⟨n, t, hrun, hquiet⟩ := work_ends sb s
    obtain ⟨⟨a', hsim'⟩, -, hsound'⟩ := sound_run hfits (run.trans hrun)
    have hops : s.ops = [] := by
      by_contra hops
      have hquiet' := (hsim.quiet hops).2.2
      rw [hcommitting] at hquiet'
      cases hquiet'
    exact ⟨n, t, hrun, hquiet, awake_of_idle hsim' hsound' hquiet (ops_of_work hsim hops hrun)⟩

/-- The theorem at the fourth operation, for which three others leave no room. -/
theorem begin_op_wakeups_fourth :
    ∃ s, runOf (LogSystem.next .mkfs) (boot blank)
        [.work, .work, .work, .begin 1, .begin 2, .begin 3, .begin 4] = some s ∧
      s.asleep 4 = true ∧ s.blocked = true ∧ (s.ops ≠ [] ∨ s.committing = true) := by
  have hruns : ((runOf (LogSystem.next .mkfs) (boot blank)
      [.work, .work, .work, .begin 1, .begin 2, .begin 3, .begin 4]).any fun s => s.asleep 4) := by
    decide +kernel
  obtain ⟨s, hs, hp⟩ := (Option.any_eq_true _ _).mp hruns
  obtain ⟨hblocked, hthere, -, -⟩ := begin_op_wakeups fits_blank (run_of_runOf hs) hp
  exact ⟨s, hs, hp, hblocked, hthere⟩

/-! ## The panic of `log_write` -/

/-- An operation that calls `log_write` has then logged no more than `k` blocks. -/
def Within (k : Nat) (s : LogSystem) : Event → Prop
  | .write p b _ => ∀ o ∈ s.ops, o.1 = p → (o.2.insert b).length ≤ k
  | _ => True

instance (k : Nat) (s : LogSystem) (e : Event) : Decidable (Within k s e) := by
  cases e <;> unfold Within <;> infer_instance

variable (sb) in
/-- An operation changes a block, and `log_write` panics. -/
def Overflows (s : LogSystem) : Event → Prop
  | .write p b data => p ∈ s.ops.map Prod.fst ∧ Home sb b ∧ b < 2 ^ 32 ∧
      s.next sb (.write p b data) = none
  | _ => False

/-- How many blocks the operations may still log. -/
def spare (k : Nat) (ops : List (Nat × List Nat)) : Nat := (ops.map fun o => k - o.2.length).sum

theorem spare_le (k : Nat) (ops : List (Nat × List Nat)) : spare k ops ≤ ops.length * k := by
  induction ops with
  | nil => exact Nat.zero_le _
  | cons o ops ih =>
    simp only [spare, List.map_cons, List.sum_cons, List.length_cons] at ih ⊢
    rw [Nat.succ_mul]
    omega

theorem spare_eraseP (k p : Nat) (ops : List (Nat × List Nat)) :
    spare k (ops.eraseP (·.1 = p)) ≤ spare k ops := by
  induction ops with
  | nil => exact le_refl _
  | cons o ops ih =>
    by_cases ho : o.1 = p
    · rw [List.eraseP_cons_of_pos (by simpa using ho)]
      simp only [spare, List.map_cons, List.sum_cons]
      omega
    · rw [List.eraseP_cons_of_neg (by simpa using ho)]
      simp only [spare, List.map_cons, List.sum_cons] at ih ⊢
      omega

theorem length_insert_le (l : List Nat) (b : Nat) : l.length ≤ (l.insert b).length := by
  by_cases hb : b ∈ l
  · rw [List.insert_of_mem hb]
  · rw [List.insert_of_not_mem hb]
    exact Nat.le_succ _

theorem spare_charge (k p b : Nat) (ops : List (Nat × List Nat)) :
    spare k (charge p b ops) ≤ spare k ops := by
  induction ops with
  | nil => exact le_refl _
  | cons o ops ih =>
    have hlength := length_insert_le o.2 b
    simp only [spare, charge, List.map_cons, List.sum_cons] at ih ⊢
    split
    · dsimp only
      omega
    · omega

/-- A block that is new uses up some of what is spare. -/
theorem spare_charge_lt {k p b : Nat} {ops : List (Nat × List Nat)} (hp : p ∈ ops.map Prod.fst)
    (hwithin : ∀ o ∈ ops, o.1 = p → (o.2.insert b).length ≤ k) (hnew : ∀ o ∈ ops, b ∉ o.2) :
    spare k (charge p b ops) < spare k ops := by
  induction ops with
  | nil => cases hp
  | cons o ops ih =>
    have hrest := spare_charge k p b ops
    simp only [spare, charge, List.map_cons, List.sum_cons] at ih hrest ⊢
    by_cases ho : o.1 = p
    · have hle := hwithin o List.mem_cons_self ho
      rw [List.insert_of_not_mem (hnew o List.mem_cons_self), List.length_cons] at hle
      rw [if_pos ho]
      dsimp only
      rw [List.insert_of_not_mem (hnew o List.mem_cons_self), List.length_cons]
      omega
    · rw [if_neg ho]
      rw [List.map_cons, List.mem_cons] at hp
      have hlt := ih (hp.resolve_left fun h => ho h.symm)
        (fun x hx => hwithin x (List.mem_cons_of_mem o hx))
        fun x hx => hnew x (List.mem_cons_of_mem o hx)
      omega

/-- What the operations have logged is in `lh`, and with what they may still log there is a bound
for its length: one operation begins alone, or beside another with room for both. -/
structure Reserved (k : Nat) (s : LogSystem) : Prop where
  logged : ∀ o ∈ s.ops, ∀ b ∈ o.2, b ∈ s.lh
  bound : s.ops ≠ [] → s.lh.length + spare k s.ops ≤ maxOpBlocks + 2 * k

theorem reserved_of_idle {k : Nat} (h : s.ops = []) : s.Reserved k := by
  refine ⟨?_, fun hops => absurd h hops⟩
  rw [h]
  exact fun o ho => absurd ho List.not_mem_nil

theorem Reserved.next {k : Nat} (h : s.Reserved k) (hsim : s.Sim sb a) (hk : k ≤ maxOpBlocks)
    {e : Event} (hwithin : Within k s e) (hstep : s.next sb e = some s') : s'.Reserved k := by
  cases e with
  | begin p =>
    simp only [LogSystem.next, Option.ite_none_right_eq_some, Option.some.injEq] at hstep
    obtain ⟨⟨hrec, -, -⟩, rfl⟩ := hstep
    unfold beginOp
    cases hblocked : s.blocked with
    | true => exact ⟨h.logged, h.bound⟩
    | false =>
      refine ⟨?_, fun _ => ?_⟩
      · intro o ho b hb
        rcases List.mem_cons.mp ho with rfl | ho
        · cases hb
        · exact h.logged o ho b hb
      · unfold blocked at hblocked
        rw [Bool.or_eq_false_iff, decide_eq_false_iff_not, hsim.outstanding] at hblocked
        have hroom := hblocked.2
        have hspare := spare_le k s.ops
        have hlh : s.ops = [] → s.lh = [] := by
          intro hops
          have hphase := hsim.phase
          cases hpc : s.pc with
          | quiet =>
            rw [hpc] at hphase
            exact hphase.2.2 hops
          | writing _ | heading | closing =>
            rw [hpc] at hphase
            rw [hphase.2.1] at hblocked
            cases hblocked.1
          | installing _ r | erasing r =>
            rw [hpc] at hphase hrec
            cases r with
            | true => cases hrec
            | false =>
              rw [hphase.2] at hblocked
              cases hblocked.1
          | booting =>
            rw [hpc] at hrec
            cases hrec
        simp only [spare, List.map_cons, List.sum_cons, List.length_nil, Nat.sub_zero,
          if_false, Bool.false_eq_true] at hspare ⊢
        unfold logSize maxOpBlocks at hroom
        unfold maxOpBlocks at hk ⊢
        cases hops : s.ops with
        | nil =>
          rw [hlh hops]
          simp only [List.map_nil, List.sum_nil, List.length_nil]
          omega
        | cons o ops =>
          rw [hops] at hspare hroom
          have hpos : 1 ≤ (o :: ops).length := Nat.succ_pos _
          have hmul : (o :: ops).length * k ≤ (o :: ops).length * 10 - (10 - k) := by
            obtain ⟨c, hc⟩ := Nat.exists_eq_add_of_le hk
            rw [hc, Nat.mul_add, List.length_cons, Nat.succ_mul ops.length c]
            omega
          omega
  | write p b data =>
    simp only [LogSystem.next, Option.ite_none_right_eq_some] at hstep
    obtain ⟨⟨hp, -, -⟩, hwrite⟩ := hstep
    obtain ⟨-, -, rfl⟩ := logWrite_eq_some hwrite
    have hops : s.ops ≠ [] := by
      rintro hnil
      rw [hnil] at hp
      cases hp
    have hbound := h.bound hops
    refine ⟨?_, fun _ => ?_⟩
    · intro o ho x hx
      dsimp only at ho ⊢
      have hkept : ∀ y ∈ s.lh, y ∈ if b ∈ s.lh then s.lh else s.lh ++ [b] := by
        intro y hy
        split
        · exact hy
        · exact List.mem_append_left _ hy
      have hself : b ∈ if b ∈ s.lh then s.lh else s.lh ++ [b] := by
        split
        · assumption
        · simp
      obtain ⟨o', ho', rfl⟩ := List.mem_map.mp ho
      split at hx
      · rcases List.mem_insert_iff.mp hx with rfl | hx
        · exact hself
        · exact hkept x (h.logged o' ho' x hx)
      · exact hkept x (h.logged o' ho' x hx)
    · dsimp only
      by_cases hb : b ∈ s.lh
      · rw [if_pos hb]
        have hle := spare_charge k p b s.ops
        omega
      · rw [if_neg hb, List.length_append, List.length_singleton]
        have hlt := spare_charge_lt hp hwithin fun o ho hmem => hb (h.logged o ho b hmem)
        omega
  | finish p =>
    simp only [LogSystem.next, Option.ite_none_right_eq_some] at hstep
    have hend := hstep.2
    have hsub : ∀ o ∈ s.ops.eraseP (·.1 = p), o ∈ s.ops := fun o ho => List.mem_of_mem_eraseP ho
    have hlogged : ∀ o ∈ s.ops.eraseP (·.1 = p), ∀ b ∈ o.2, b ∈ s.lh :=
      fun o ho => h.logged o (hsub o ho)
    have hspare := spare_eraseP k p s.ops
    have hbound (hops : s.ops.eraseP (·.1 = p) ≠ []) :
        s.lh.length + spare k (s.ops.eraseP (·.1 = p)) ≤ maxOpBlocks + 2 * k := by
      have hops' : s.ops ≠ [] := by
        rintro hnil
        rw [hnil] at hops
        exact hops rfl
      have := h.bound hops'
      omega
    unfold endOp at hend
    dsimp only at hend
    split at hend
    · cases hend
    · split at hend
      · cases hend
        exact ⟨hlogged, hbound⟩
      · cases hend
        exact ⟨hlogged, hbound⟩
  | work =>
    have hops : s'.ops = [] := by
      have hpc : s.pc ≠ .quiet := by
        rintro hquiet
        have hwork : s.work sb = some s' := hstep
        unfold work at hwork
        rw [hquiet] at hwork
        cases hwork
      have hops : s.ops = [] := by
        by_contra hops
        exact hpc (hsim.quiet hops).1
      have hrun : Run (stepOf (LogSystem.next sb)) s (List.replicate 1 .work) s' :=
        Run.nil.snoc hstep
      exact ops_of_work hsim hops hrun
    exact reserved_of_idle hops
  | evict b =>
    simp only [LogSystem.next, Option.ite_none_right_eq_some, Option.some.injEq] at hstep
    obtain ⟨-, rfl⟩ := hstep
    exact ⟨h.logged, h.bound⟩
  | kill p =>
    cases hstep
    exact ⟨h.logged, h.bound⟩
  | crash =>
    cases hstep
    exact reserved_of_idle rfl

/-- A run in which each operation logs at most `k` blocks. -/
abbrev RunWithin (sb : Superblock) (k : Nat) :=
  Run (guarded (Within k) (stepOf (LogSystem.next sb)))

theorem reserved_run {k : Nat} (hfits : Fits sb (disk sb.logstart).head) (hk : k ≤ maxOpBlocks)
    (run : RunWithin sb k (boot disk) es s) : (∃ a, s.Sim sb a) ∧ s.Reserved k := by
  refine Run.invariant (fun s => (∃ a, s.Sim sb a) ∧ s.Reserved k) ?_ ?_ run
  · exact ⟨⟨_, sim_boot hfits fun _ _ => rfl⟩, reserved_of_idle rfl⟩
  · rintro t e u ⟨⟨a, hsim⟩, hreserved⟩ ⟨hwithin, hstep⟩
    obtain ⟨-, a', -, hsim', -⟩ := hsim.step hstep
    exact ⟨⟨a', hsim'⟩, hreserved.next hsim hk hwithin hstep⟩

/-- A panic needs a log that is as full as the operations can make it. -/
theorem length_of_overflows {k : Nat} (hsim : s.Sim sb a) (hreserved : s.Reserved k) {e : Event}
    (h : s.Overflows sb e) :
    logSize ≤ maxOpBlocks + 2 * k ∨ sb.nlog ≤ maxOpBlocks + 2 * k + 1 := by
  cases e with
  | write p b data =>
    obtain ⟨hp, hb, hsmall, hnone⟩ := h
    have hops : s.ops ≠ [] := by
      rintro hnil
      rw [hnil] at hp
      cases hp
    have hbound := hreserved.bound hops
    simp only [LogSystem.next] at hnone
    rw [if_pos ⟨hp, hb, hsmall⟩] at hnone
    unfold logWrite at hnone
    dsimp only at hnone
    split at hnone
    · rename_i hfull
      omega
    · split at hnone
      · rename_i hzero
        rw [hsim.outstanding] at hzero
        have hpos := List.length_pos_iff.mpr hops
        omega
      · cases hnone
  | begin _ | finish _ | work | evict _ | kill _ | crash => exact h.elim

/-! ### Filling the log -/

/-- A block outside of the log. -/
def fresh (sb : Superblock) (i : Nat) : Nat := sb.logstart + sb.nlog + i

theorem home_fresh (sb : Superblock) (i : Nat) : Home sb (fresh sb i) := by
  unfold Home fresh
  omega

/-- Nobody commits or sleeps; the first `n` fresh blocks are in `lh`. -/
structure Filled (sb : Superblock) (s : LogSystem) (n : Nat) (ops : List (Nat × List Nat)) :
    Prop where
  pc : s.pc = .quiet
  committing : s.committing = false
  awake : ∀ p, s.asleep p = false
  lh : s.lh = (List.range n).map (fresh sb)
  outstanding : s.outstanding = ops.length
  ops : s.ops = ops

variable {n p : Nat} {ops : List (Nat × List Nat)}

theorem Filled.length (h : Filled sb s n ops) : s.lh.length = n := by
  rw [h.lh, List.length_map, List.length_range]

theorem Filled.begin (h : Filled sb s n ops) (hp : p ∉ ops.map Prod.fst)
    (hroom : n + (ops.length + 1) * maxOpBlocks ≤ logSize) :
    ∃ s', s.next sb (.begin p) = some s' ∧ Filled sb s' n ((p, []) :: ops) := by
  have hblocked : s.blocked = false := by
    unfold blocked
    rw [h.committing, h.length, h.outstanding, Bool.false_or, decide_eq_false_iff_not]
    omega
  have henabled : s.pc.recovering = false ∧ p ∉ s.ops.map Prod.fst ∧ s.asleep p = false := by
    rw [h.pc, h.ops]
    exact ⟨rfl, hp, h.awake p⟩
  refine ⟨s.beginOp p, if_pos henabled, ?_⟩
  unfold beginOp
  rw [hblocked]
  exact ⟨h.pc, h.committing, h.awake, h.lh, congrArg (· + 1) h.outstanding,
    congrArg ((p, []) :: ·) h.ops⟩

theorem Filled.finish (h : Filled sb s n ops) (hp : p ∈ ops.map Prod.fst) (htwo : 2 ≤ ops.length) :
    ∃ s', s.next sb (.finish p) = some s' ∧ Filled sb s' n (ops.eraseP (·.1 = p)) := by
  have hlength : (ops.eraseP (·.1 = p)).length = ops.length - 1 := by
    rw [← List.length_map (f := Prod.fst), map_fst_eraseP, List.length_erase_of_mem hp,
      List.length_map]
  have hend : s.endOp p = some { s with
      outstanding := s.outstanding - 1
      ops := s.ops.eraseP (·.1 = p)
      asleep := fun _ => false } := by
    unfold endOp
    dsimp only
    rw [if_neg (by rw [h.committing]; exact Bool.false_ne_true),
      if_neg (by rw [h.outstanding]; omega)]
  refine ⟨_, (if_pos (by rw [h.ops]; exact hp)).trans hend, ?_⟩
  refine ⟨h.pc, h.committing, fun _ => rfl, h.lh, ?_, ?_⟩
  · dsimp only
    rw [h.outstanding, hlength]
  · dsimp only
    rw [h.ops]

theorem Filled.write (h : Filled sb s n ops) {data : Block}
    (hstep : s.next sb (.write p (fresh sb n) data) = some s') :
    Filled sb s' (n + 1) (charge p (fresh sb n) ops) := by
  simp only [LogSystem.next, Option.ite_none_right_eq_some] at hstep
  obtain ⟨-, -, rfl⟩ := logWrite_eq_some hstep.2
  refine ⟨h.pc, h.committing, h.awake, ?_, h.outstanding.trans (length_charge _ _ ops).symm,
    congrArg (charge p (fresh sb n)) h.ops⟩
  dsimp only
  have hnew : fresh sb n ∉ s.lh := by
    rw [h.lh, List.mem_map]
    rintro ⟨i, hi, heq⟩
    have hlt := List.mem_range.mp hi
    unfold fresh at heq
    omega
  rw [if_neg hnew, h.lh, List.range_succ, List.map_append]
  rfl

theorem charge_others {b : Nat} (h : p ∉ ops.map Prod.fst) : charge p b ops = ops := by
  refine (List.map_congr_left ?_).trans (List.map_id _)
  intro o ho
  exact if_neg fun hop => h (List.mem_map.mpr ⟨o, ho, hop⟩)

theorem charge_one {b : Nat} {l : List Nat} {pre post : List (Nat × List Nat)}
    (hpre : p ∉ pre.map Prod.fst) (hpost : p ∉ post.map Prod.fst) :
    charge p b (pre ++ (p, l) :: post) = pre ++ (p, l.insert b) :: post := by
  have hcons : charge p b ((p, l) :: post) = (p, l.insert b) :: charge p b post := by
    rw [charge, List.map_cons, if_pos rfl]
    rfl
  have happend : charge p b (pre ++ (p, l) :: post) =
      charge p b pre ++ charge p b ((p, l) :: post) := List.map_append
  rw [happend, hcons, charge_others hpre, charge_others hpost]

/-- The operation of `p` goes on to log `m` fresh blocks, unless there is a panic. -/
theorem fill {k m : Nat} (hno : ¬ ∃ es s e, RunWithin sb k (boot disk) es s ∧ Within k s e ∧
      s.Overflows sb e) (hsmall : sb.logstart + sb.nlog + logSize ≤ 2 ^ 32)
    (pre : List (Nat × List Nat)) {post : List (Nat × List Nat)} {l : List Nat}
    (hpre : p ∉ pre.map Prod.fst)
    (hpost : p ∉ post.map Prod.fst) (run : RunWithin sb k (boot disk) es s)
    (h : Filled sb s n (pre ++ (p, l) :: post)) (hl : ∀ b ∈ l, b < fresh sb n)
    (hm : l.length + m ≤ k) (hn : n + m ≤ logSize) :
    ∃ es' s' l', RunWithin sb k (boot disk) es' s' ∧
      Filled sb s' (n + m) (pre ++ (p, l') :: post) ∧ l'.length = l.length + m ∧
      ∀ b ∈ l', b < fresh sb (n + m) := by
  induction m generalizing es s n l with
  | zero => exact ⟨es, s, l, run, h, rfl, hl⟩
  | succ m ih =>
    have hnew : fresh sb n ∉ l := fun hmem => Nat.lt_irrefl _ (hl _ hmem)
    have hinsert : (l.insert (fresh sb n)).length = l.length + 1 := by
      rw [List.insert_of_not_mem hnew, List.length_cons]
    have hwithin : Within k s (.write p (fresh sb n) Block.zero) := by
      intro o ho hop
      rw [h.ops] at ho
      rcases List.mem_append.mp ho with ho | ho
      · exact absurd (List.mem_map.mpr ⟨o, ho, hop⟩) hpre
      · rcases List.mem_cons.mp ho with rfl | ho
        · dsimp only
          omega
        · exact absurd (List.mem_map.mpr ⟨o, ho, hop⟩) hpost
    have hmem : p ∈ s.ops.map Prod.fst := by
      rw [h.ops]
      simp
    have hlt : fresh sb n < 2 ^ 32 := by
      unfold fresh
      omega
    cases hstep : s.next sb (.write p (fresh sb n) Block.zero) with
    | none => exact absurd ⟨es, s, _, run, hwithin, hmem, home_fresh sb n, hlt, hstep⟩ hno
    | some s' =>
      have hfilled := h.write hstep
      rw [charge_one hpre hpost] at hfilled
      have hl' : ∀ b ∈ l.insert (fresh sb n), b < fresh sb (n + 1) := by
        intro b hb
        unfold fresh at hl ⊢
        rcases List.mem_insert_iff.mp hb with rfl | hb
        · unfold fresh
          omega
        · have := hl b hb
          omega
      obtain ⟨es', s'', l', hrun, hfilled', hlength, hl''⟩ :=
        ih (run.snoc ⟨hwithin, hstep⟩) hfilled hl' (by omega) (by omega)
      rw [show n + 1 + m = n + (m + 1) by omega] at hfilled' hl''
      exact ⟨es', s'', l', hrun, hfilled', by omega, hl''⟩

/-- Operations of one block each fill the log up to `MAXOPBLOCKS` beside one that goes on. -/
theorem fill_first {k : Nat} (hno : ¬ ∃ es s e, RunWithin sb k (boot disk) es s ∧ Within k s e ∧
      s.Overflows sb e) (hsmall : sb.logstart + sb.nlog + logSize ≤ 2 ^ 32)
    (hfits : Fits sb (disk sb.logstart).head) (hk : 1 ≤ k) :
    ∀ i ≤ maxOpBlocks, ∃ es s, RunWithin sb k (boot disk) es s ∧ Filled sb s i [(0, [])] := by
  intro i
  induction i with
  | zero =>
    intro _
    obtain ⟨n, t, hrun, hquiet⟩ := work_ends sb (boot disk)
    obtain ⟨⟨a, hsim⟩, -, hsound⟩ := sound_run hfits hrun
    have hboot : (boot disk).Sim sb ⟨recovered sb disk, recovered sb disk, []⟩ :=
      sim_boot hfits fun _ _ => rfl
    have hops := ops_of_work hboot rfl hrun
    have hphase := hsim.phase
    rw [hquiet] at hphase
    have hfilled : Filled sb t 0 [] := ⟨hquiet, hphase.2.1, awake_of_idle hsim hsound hquiet hops,
      hphase.2.2 hops, by rw [hsim.outstanding, hops], hops⟩
    have hguarded : RunWithin sb k (boot disk) (List.replicate n .work) t := by
      generalize hes : List.replicate n Event.work = es at hrun
      have hwork : ∀ e ∈ es, e = Event.work := fun e he => List.eq_of_mem_replicate (hes ▸ he)
      clear hes hsim hsound hops hphase hfilled hquiet
      induction hrun with
      | nil => exact .nil
      | @snoc es u v e _ hstep ih =>
        refine .snoc (ih fun x hx => hwork x (List.mem_append_left _ hx)) ⟨?_, hstep⟩
        rw [hwork e (List.mem_append_right es List.mem_cons_self)]
        trivial
    obtain ⟨s, hstep, hbegun⟩ := hfilled.begin (p := 0) List.not_mem_nil (by decide)
    have hfree : Within k t (.begin 0) := trivial
    exact ⟨_, s, hguarded.snoc ⟨hfree, hstep⟩, hbegun⟩
  | succ i ih =>
    intro hi
    obtain ⟨es, s, hrun, hfilled⟩ := ih (by omega)
    obtain ⟨s₁, hbegin, hbegun⟩ := hfilled.begin (p := 1) (by decide) (by
      unfold maxOpBlocks at hi
      unfold logSize maxOpBlocks
      simp only [List.length_cons, List.length_nil]
      omega)
    have hfree : Within k s (.begin 1) := trivial
    obtain ⟨es₂, s₂, l, hrun₂, hwritten, -, -⟩ := fill hno hsmall [] (p := 1) (m := 1)
      List.not_mem_nil (by decide) (hrun.snoc ⟨hfree, hbegin⟩) hbegun
      (fun b hb => absurd hb List.not_mem_nil) (by simpa using hk) (by unfold logSize; omega)
    obtain ⟨s₃, hfinish, hdone⟩ := hwritten.finish (p := 1) List.mem_cons_self (le_refl 2)
    have hfree' : Within k s₂ (.finish 1) := trivial
    exact ⟨_, s₃, hrun₂.snoc ⟨hfree', hfinish⟩, hdone⟩

/-- If every operation logs at most `k` blocks, `log_write` can panic exactly if the log has no room
for `MAXOPBLOCKS + 2k` blocks beside its header. `MAXOPBLOCKS` blocks an operation are too many. -/
theorem overflows_iff {k : Nat} (hk : 1 ≤ k) (hkmax : k ≤ maxOpBlocks)
    (hsmall : sb.logstart + sb.nlog + logSize ≤ 2 ^ 32) (hfits : Fits sb (disk sb.logstart).head) :
    (∃ es s e, RunWithin sb k (boot disk) es s ∧ Within k s e ∧ s.Overflows sb e) ↔
      logSize ≤ maxOpBlocks + 2 * k ∨ sb.nlog ≤ maxOpBlocks + 2 * k + 1 := by
  constructor
  · rintro ⟨es, s, e, hrun, -, hoverflow⟩
    obtain ⟨⟨a, hsim⟩, hreserved⟩ := reserved_run hfits hkmax hrun
    exact length_of_overflows hsim hreserved hoverflow
  · intro hfull
    by_contra hno
    obtain ⟨es, s, hrun, hfilled⟩ := fill_first hno hsmall hfits hk maxOpBlocks (le_refl _)
    obtain ⟨s₁, hbegin, hbegun⟩ := hfilled.begin (p := 1) (by decide) (by decide)
    have hfree : Within k s (.begin 1) := trivial
    have hroom : maxOpBlocks + k + k ≤ logSize := by
      unfold logSize
      omega
    -- both operations log their `k` blocks, and then one of them logs one of its own again
    obtain ⟨es₁, s₂, l₁, hrun₁, hfirst, -, -⟩ := fill hno hsmall [] (p := 1) (m := k)
      List.not_mem_nil (by decide) (hrun.snoc ⟨hfree, hbegin⟩) hbegun
      (fun b hb => absurd hb List.not_mem_nil) (by simp) (by omega)
    obtain ⟨es₂, s₃, l₂, hrun₂, hsecond, hlength, hl₂⟩ := fill hno hsmall [(1, l₁)] (p := 0)
      (m := k) (l := []) (by simp) List.not_mem_nil hrun₁ hfirst
      (fun b hb => absurd hb List.not_mem_nil) (by simp) hroom
    rw [List.length_nil, Nat.zero_add] at hlength
    obtain ⟨b, hb⟩ := List.exists_mem_of_length_pos (l := l₂) (by omega)
    have hbin : b ∈ s₃.lh := by
      obtain ⟨⟨a, hsim⟩, hreserved⟩ := reserved_run hfits hkmax hrun₂
      refine hreserved.logged (0, l₂) ?_ b hb
      rw [hsecond.ops]
      simp
    obtain ⟨⟨a, hsim⟩, -⟩ := reserved_run hfits hkmax hrun₂
    refine hno ⟨es₂, s₃, .write 0 b Block.zero, hrun₂, ?_, ?_, hsim.fits.home b hbin,
      hsim.fits.small b hbin, ?_⟩
    · intro o ho hop
      rw [hsecond.ops] at ho
      rcases List.mem_cons.mp ho with rfl | ho
      · cases hop
      · rcases List.mem_singleton.mp ho with rfl
        rw [List.insert_of_mem hb]
        omega
    · rw [hsecond.ops]
      simp
    · have hpanic : { s₃ with
          buf := Function.update s₃.buf b Block.zero
          ops := charge 0 b s₃.ops }.logWrite sb b = none := by
        unfold logWrite
        dsimp only
        rw [if_pos]
        rw [hsecond.length]
        omega
      simp only [LogSystem.next]
      split
      · exact hpanic
      · rfl

/-- On the disk that `mkfs` makes ten blocks an operation can panic and nine cannot. -/
theorem overflows_iff_mkfs :
    (∃ es s e, RunWithin .mkfs 10 (boot blank) es s ∧ Within 10 s e ∧
      s.Overflows .mkfs e) ∧
    ¬ ∃ es s e, RunWithin .mkfs 9 (boot blank) es s ∧ Within 9 s e ∧
      s.Overflows .mkfs e := by
  constructor
  · exact (overflows_iff (by decide) (by decide) (by decide) fits_blank).mpr (by decide)
  · intro h
    exact absurd ((overflows_iff (by decide) (by decide) (by decide) fits_blank).mp h) (by decide)

end LogSystem

end Cs537.P5
