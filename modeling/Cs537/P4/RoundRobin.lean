import Cs537.Lib.Sweep
import Cs537.P4.Scheduling

/-!
# Round robin

A process that is ready is passed over by no processor twice for the same other process.
-/

namespace Cs537.P4

open Cs537.Lib

namespace Machine

variable {ncpu nproc : Nat} {initproc p q : Fin nproc} {m m' s t : Machine ncpu nproc}
  {e : Event ncpu nproc} {c d : Fin ncpu} {es : List (Event ncpu nproc)} {k : Kernel nproc}

/-- The slots that processor `c` switches to. -/
def slotsOf (c : Fin ncpu) (switches : List (Fin ncpu × Fin nproc)) : List (Fin nproc) :=
  (switches.filter fun x => x.1 = c).map Prod.snd

/-- Process `p` has been ready from `s` to `m`, where the processors have gone on in their sweeps
round the table. -/
structure Waiting (p : Fin nproc) (s m : Machine ncpu nproc) (es : List (Event ncpu nproc))
    (new : List (Fin ncpu × Fin nproc)) : Prop where
  ready : (m.kernel.proc p).state = .runnable
  switches : m.switches = s.switches ++ new
  sweep : ∀ c, Sweep nproc (s.cpu c).cursor p (m.cpu c).cursor (es.count (.look c))
    ((slotsOf c new).map Fin.val)

variable {new : List (Fin ncpu × Fin nproc)}

/-- A step that is not one of the loop. -/
theorem Waiting.same (h : Waiting p s m es new) (hready : (m'.kernel.proc p).state = .runnable)
    (hswitches : m'.switches = m.switches) (hcursor : ∀ c, (m'.cpu c).cursor = (m.cpu c).cursor)
    (hlook : ∀ c, e ≠ .look c) : Waiting p s m' (es ++ [e]) new := by
  refine ⟨hready, hswitches.trans h.switches, fun c => ?_⟩
  rw [hcursor, List.count_append, List.count_singleton, if_neg (by simpa using hlook c)]
  exact h.sweep c

/-- A step of the loop on processor `c`. -/
theorem Waiting.looked (h : Waiting p s m es new) {l : List (Fin ncpu × Fin nproc)}
    (hready : (m'.kernel.proc p).state = .runnable) (hswitches : m'.switches = m.switches ++ l)
    (hcursor : ∀ d, d ≠ c → (m'.cpu d).cursor = (m.cpu d).cursor)
    (hl : ∀ d, d ≠ c → slotsOf d l = [])
    (hsweep : Sweep nproc (s.cpu c).cursor p (m'.cpu c).cursor (es.count (.look c) + 1)
      ((slotsOf c new).map Fin.val ++ (slotsOf c l).map Fin.val)) :
    Waiting p s m' (es ++ [.look c]) (new ++ l) := by
  have happend : ∀ d, slotsOf d (new ++ l) = slotsOf d new ++ slotsOf d l := by
    intro d
    unfold slotsOf
    rw [List.filter_append, List.map_append]
  refine ⟨hready, ?_, fun d => ?_⟩
  · rw [hswitches, h.switches, List.append_assoc]
  · rw [happend, List.map_append, List.count_append, List.count_singleton]
    by_cases hd : d = c
    · subst hd
      rw [if_pos (beq_self_eq_true _)]
      exact hsweep
    · have hne : ¬ ((.look c : Event ncpu nproc) == .look d) = true := by
        simpa using fun heq => hd heq.symm
      rw [if_neg hne, hcursor d hd, hl d hd, List.map_nil, List.append_nil]
      exact h.sweep d

theorem Waiting.next (h : Waiting p s m es new) (hs : ∀ c, (s.cpu c).cursor ≤ nproc)
    (hsound : m.Sound) (hnext : next initproc m e = some m') :
    (∃ c, m'.switches = s.switches ++ (new ++ [(c, p)])) ∨
      ∃ new', Waiting p s m' (es ++ [e]) new' := by
  have hready := h.ready
  cases steps_of_next hnext with
  | interrupt hintr hlock hk =>
    exact .inr ⟨new, h.same ((drift_interrupt hintr hk p).runnable hready) rfl (fun _ => rfl) nofun⟩
  | @call c q e k hproc hactor hlocks hk =>
    have hne : p ≠ q := by
      rintro rfl
      rw [Kernel.running_of_actor hk hactor] at hready
      cases hready
    obtain ⟨hkernel, hswitches, -⟩ := back_kernel
      { m with kernel := k, info := allocInfo m.kernel e m.info } c q
    refine .inr ⟨new, h.same ?_ hswitches (fun d => back_cursor _ c d q) nofun⟩
    rw [hkernel]
    exact (drift_call hactor hk hne).runnable hready
  | nice newnice hproc => exact .inr ⟨new, h.same hready rfl (fun _ => rfl) nofun⟩
  | @acquire c hproc hlock =>
    refine .inr ⟨new, hready, h.switches, fun d => ?_⟩
    rw [List.count_append, List.count_singleton, if_neg (by simp)]
    dsimp only
    rw [Function.update_apply]
    by_cases hd : d = c
    · rw [if_pos hd, hd]
      have hsweep := h.sweep c
      rcases hsound.between c hproc (by rw [hlock]; nofun) with hzero | hend
      · rw [hzero] at hsweep
        exact hsweep
      · rw [hend] at hsweep
        exact hsweep.wrap (hs c) p.isLt
    · rw [if_neg hd]
      exact h.sweep d
  | @switch c q k hlock hcursor hq hk =>
    by_cases hqp : q = p
    · left
      refine ⟨c, ?_⟩
      dsimp only
      rw [h.switches, hqp, List.append_assoc]
    · right
      have hfilter : ∀ d, slotsOf d [(c, q)] = if c = d then [q] else [] := by
        intro d
        unfold slotsOf
        by_cases hd : c = d
        · rw [if_pos hd, List.filter_cons_of_pos (by simpa using hd)]
          rfl
        · rw [if_neg hd, List.filter_cons_of_neg (by simpa using hd)]
          rfl
      refine ⟨_, h.looked ?_ rfl (fun d hd => ?_) (fun d hd => ?_) ?_⟩
      · exact ((switched hk).2 p (Ne.symm hqp)).runnable hready
      · dsimp only
        rw [Function.update_of_ne hd]
      · rw [hfilter, if_neg (Ne.symm hd)]
      · rw [hfilter, if_pos rfl]
        dsimp only
        rw [Function.update_self]
        refine hcursor ▸ (h.sweep c).stop (hs c) ?_ p.isLt ?_
        · rw [hcursor]
          exact q.isLt
        · rw [hcursor]
          exact fun heq => hqp (Fin.ext heq)
  | @pass c hlock hcursor hother =>
    right
    refine ⟨_, h.looked hready (List.append_nil _).symm (fun d hd => ?_) (fun d hd => rfl) ?_⟩
    · dsimp only
      rw [Function.update_of_ne hd]
    · dsimp only
      rw [Function.update_self]
      refine (List.append_nil _).symm ▸ (h.sweep c).pass (hs c) hcursor p.isLt fun heq => hother ?_
      rw [show (⟨(m.cpu c).cursor, hcursor⟩ : Fin nproc) = p from Fin.ext heq]
      exact hready
  | release hlock hcursor => exact .inr ⟨new, h.same hready rfl (fun _ => rfl) nofun⟩

/-- The record of switches only grows. -/
theorem switches_next (hnext : next initproc m e = some m') :
    ∃ l, m'.switches = m.switches ++ l := by
  cases steps_of_next hnext with
  | switch _ _ _ _ => exact ⟨_, rfl⟩
  | call _ _ _ _ => exact ⟨[], (back_kernel _ _ _).2.1.trans (List.append_nil _).symm⟩
  | interrupt _ _ _ | nice _ _ | acquire _ _ | pass _ _ _ | release _ _ =>
    exact ⟨[], (List.append_nil _).symm⟩

/-- From when a process is ready on, until a processor switches to it, it stays ready, every
processor switches to each other process once at most, and looks at fewer slots than there are. -/
theorem round_robin (boots : Run (stepOf (next initproc)) (boot ncpu initproc) es s)
    (hready : (s.kernel.proc p).state = .runnable) {es' : List (Event ncpu nproc)}
    (run : Run (stepOf (next initproc)) s es' t) :
    ∃ new, t.switches = s.switches ++ new ∧ ((∃ c, (c, p) ∈ new) ∨
      (t.kernel.proc p).state = .runnable ∧
        ∀ c, (slotsOf c new).Nodup ∧ es'.count (.look c) < nproc) := by
  have hs := (sound_of_run boots).cursor
  have hwait : ∃ new, t.switches = s.switches ++ new ∧
      ((∃ c, (c, p) ∈ new) ∨ Waiting p s t es' new) := by
    induction run with
    | nil =>
      exact ⟨[], (List.append_nil _).symm, .inr ⟨hready, (List.append_nil _).symm,
        fun c => Sweep.here nproc _ p⟩⟩
    | @snoc es' u v e before hstep ih =>
      obtain ⟨new, hnew, ⟨c, hc⟩ | hwait⟩ := ih
      · obtain ⟨l, hl⟩ := switches_next hstep
        refine ⟨new ++ l, ?_, .inl ⟨c, List.mem_append_left l hc⟩⟩
        rw [hl, hnew, List.append_assoc]
      · rcases hwait.next hs (sound_of_run (boots.trans before)) hstep with ⟨c, hc⟩ | ⟨new', h⟩
        · exact ⟨_, hc, .inl ⟨c, List.mem_append_right new (List.mem_singleton.mpr rfl)⟩⟩
        · exact ⟨new', h.switches, .inr h⟩
  obtain ⟨new, hnew, hc | hwait⟩ := hwait
  · exact ⟨new, hnew, .inl hc⟩
  · refine ⟨new, hnew, .inr ⟨hwait.ready, fun c => ⟨?_, (hwait.sweep c).looks_lt (hs c) p.isLt⟩⟩⟩
    exact (hwait.sweep c).nodup.of_map _

/-- Another child comes first. -/
def otherFirst (c : Fin ncpu) (p q : Fin nproc) : List (Event ncpu nproc) :=
  [.call c (.yield p), .look c, .call c (.yield q)]

theorem round_robin_child : ∃ s t,
    runOf (next (0 : Fin 4)) (boot 1 0)
      [.acquire 0, .look 0, .call 0 (.fork 0 .returns), .call 0 (.fork 0 .returns)] = some s ∧
    (s.kernel.proc 2).state = .runnable ∧
    runOf (next 0) s (otherFirst 0 0 1) = some t ∧
    ∃ new, t.switches = s.switches ++ new ∧ ((∃ c, (c, 2) ∈ new) ∨
      (t.kernel.proc 2).state = .runnable ∧ ∀ c, (slotsOf c new).Nodup ∧
        (otherFirst (0 : Fin 1) (0 : Fin 4) 1).count (.look c) < 4) := by
  have hruns : ((runOf (next (0 : Fin 4)) (boot 1 0)
      [.acquire 0, .look 0, .call 0 (.fork 0 .returns), .call 0 (.fork 0 .returns)]).filter
        (fun s => (s.kernel.proc 2).state = .runnable)).any (fun s =>
      (runOf (next 0) s (otherFirst 0 0 1)).isSome) = true := by
    decide +kernel
  obtain ⟨s, hs, ht⟩ := (Option.any_eq_true _ _).mp hruns
  obtain ⟨hs, hready⟩ := Option.filter_eq_some_iff.mp hs
  obtain ⟨t, ht⟩ := Option.isSome_iff_exists.mp ht
  exact ⟨s, t, hs, of_decide_eq_true hready, ht,
    round_robin (run_of_runOf hs) (of_decide_eq_true hready) (run_of_runOf ht)⟩

end Machine

end Cs537.P4
