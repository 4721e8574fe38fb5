import Cs537.P5.BlockStore
import Cs537.P5.Recovery

/-!
# The log on the buffer cache

Between two crashes the log treats its buffers and the disk as a store of blocks, which is what the
buffer cache is: it changes a block that it then pins, or it changes a block and syncs it.
-/

namespace Cs537.P5

open Cs537.Lib

namespace LogSystem

variable (sb : Superblock)

/-- `bwrite` of a block with new contents. -/
def writeThrough (b : Nat) (data : Block) : List BlockStore.Event := [.write b data, .sync b]

/-- What a step of the log asks of the buffer cache. -/
def asked (s : LogSystem) : Event → List BlockStore.Event
  | .write _ b data => [.write b data]
  | .work =>
    match s.pc with
    | .writing tail =>
      match s.lh[tail]? with
      | some b => .read b (s.buf b) :: writeThrough (sb.logstart + tail + 1) (s.buf b)
      | none => []
    | .installing tail _ =>
      match s.lh[tail]? with
      | some b =>
        .read (sb.logstart + tail + 1) (s.buf (sb.logstart + tail + 1)) ::
          writeThrough b (s.buf (sb.logstart + tail + 1))
      | none => []
    | .heading | .erasing _ =>
      writeThrough sb.logstart ((s.buf sb.logstart).putHead s.lh)
    | .booting => [.read sb.logstart (s.buf sb.logstart)]
    | .quiet | .closing => []
  | _ => []

/-- A step, with what the buffer cache has been asked up to then. -/
def recorded (s : LogSystem × List BlockStore.Event) (e : Event) :
    Option (LogSystem × List BlockStore.Event) :=
  (next sb s.1 e).map fun s' => (s', s.2 ++ s.1.asked sb e)

/-- The buffers and the disk. -/
def blocks (s : LogSystem) : BlockStore := ⟨s.buf, s.disk⟩

variable {sb} {s s' t : LogSystem} {e : Event} {es es' : List Event} {disk : Nat → Block}

theorem run_writeThrough (s : LogSystem) (b : Nat) (data : Block) :
    Run (stepOf BlockStore.next) s.blocks (writeThrough b data) (s.bwrite b data).blocks := by
  refine run_of_runOf ?_
  simp [runOf, writeThrough, BlockStore.next, blocks, bwrite]

/-- A block is read before another one is written. -/
theorem run_copy (s : LogSystem) (b c : Nat) :
    Run (stepOf BlockStore.next) s.blocks (.read b (s.buf b) :: writeThrough c (s.buf b))
      (s.bwrite c (s.buf b)).blocks := by
  have hread : Run (stepOf BlockStore.next) s.blocks [.read b (s.buf b)] s.blocks :=
    run_of_runOf (by simp [runOf, BlockStore.next, blocks])
  exact hread.trans (run_writeThrough s c (s.buf b))

/-- A step of the process that commits or recovers. -/
theorem run_work (hnext : s.work sb = some s') :
    Run (stepOf BlockStore.next) s.blocks (s.asked sb .work) s'.blocks := by
  unfold work at hnext
  unfold asked
  cases hpc : s.pc with
  | quiet =>
    rw [hpc] at hnext
    cases hnext
  | writing tail =>
    rw [hpc] at hnext
    dsimp only at hnext ⊢
    cases hb : s.lh[tail]? with
    | none =>
      rw [hb] at hnext
      cases hnext
      exact .nil
    | some b =>
      rw [hb] at hnext
      cases hnext
      exact run_copy s b (sb.logstart + tail + 1)
  | heading =>
    rw [hpc] at hnext
    cases hnext
    exact run_writeThrough s sb.logstart _
  | installing tail r =>
    rw [hpc] at hnext
    dsimp only at hnext ⊢
    cases hb : s.lh[tail]? with
    | none =>
      rw [hb] at hnext
      cases hnext
      exact .nil
    | some b =>
      rw [hb] at hnext
      cases hnext
      exact run_copy s (sb.logstart + tail + 1) b
  | erasing r =>
    rw [hpc] at hnext
    cases hnext
    exact run_writeThrough s sb.logstart _
  | closing =>
    rw [hpc] at hnext
    cases hnext
    exact .nil
  | booting =>
    rw [hpc] at hnext
    cases hnext
    exact run_of_runOf (by simp [runOf, BlockStore.next, blocks])

/-- One step between two crashes. What leaves the cache is as on the disk. -/
theorem run_asked (hclean : ∀ b, s.dirty b = false → s.buf b = s.disk b)
    (hnext : next sb s e = some s') (hcrash : e ≠ .crash) :
    Run (stepOf BlockStore.next) s.blocks (s.asked sb e) s'.blocks := by
  cases e with
  | begin p =>
    simp only [next, Option.ite_none_right_eq_some] at hnext
    obtain ⟨-, hsome⟩ := hnext
    cases hsome
    have hsame : (s.beginOp p).blocks = s.blocks := by
      unfold beginOp
      split
      · rfl
      · rfl
    rw [hsame]
    exact .nil
  | write p b data =>
    simp only [next, logWrite, Option.ite_none_right_eq_some, Option.ite_none_left_eq_some] at hnext
    obtain ⟨-, -, -, hsome⟩ := hnext
    cases hsome
    exact run_of_runOf rfl
  | finish p =>
    simp only [next, endOp, Option.ite_none_right_eq_some, Option.ite_none_left_eq_some] at hnext
    obtain ⟨-, -, hnext⟩ := hnext
    have hsame : s'.blocks = s.blocks := by
      split at hnext
      · cases hnext
        rfl
      · cases hnext
        rfl
    rw [hsame]
    exact .nil
  | work => exact run_work hnext
  | evict b =>
    simp only [next, Option.ite_none_right_eq_some] at hnext
    obtain ⟨hdirty, hsome⟩ := hnext
    cases hsome
    have hsame : ({ s with buf := Function.update s.buf b (s.disk b) } : LogSystem).blocks =
        s.blocks := by
      rw [blocks, ← hclean b hdirty, Function.update_eq_self]
      rfl
    rw [hsame]
    exact .nil
  | kill p =>
    cases hnext
    exact .nil
  | crash => exact absurd rfl hcrash

/-- From any moment of a run to the next crash the log asks the buffer cache only for what a store
of blocks does, and finds in it what it left there. -/
theorem runs_on_block_store {log : List BlockStore.Event}
    (hfits : Fits sb (disk sb.logstart).head) (before : Run (stepOf (next sb)) (boot disk) es s)
    (run : Run (stepOf (recorded sb)) (s, []) es' (s', log)) (hcrash : .crash ∉ es') :
    Run (stepOf BlockStore.next) ⟨s.buf, s.disk⟩ log ⟨s'.buf, s'.disk⟩ := by
  have hboth : ∀ {r : LogSystem × List BlockStore.Event},
      Run (stepOf (recorded sb)) (s, []) es' r → .crash ∉ es' →
      Run (stepOf (next sb)) (boot disk) (es ++ es') r.1 ∧
        Run (stepOf BlockStore.next) s.blocks r.2 r.1.blocks := by
    clear run hcrash
    intro r hr hes
    induction hr with
    | nil =>
      rw [List.append_nil]
      exact ⟨before, .nil⟩
    | @snoc es'' t u e _ hstep ih =>
      rw [List.mem_append, List.mem_singleton, not_or] at hes
      obtain ⟨hrun, hblocks⟩ := ih hes.1
      obtain ⟨s'', hs'', rfl⟩ := Option.map_eq_some_iff.mp hstep
      obtain ⟨_, _, -, hsim, -⟩ := sim_run hfits hrun
      rw [← List.append_assoc]
      exact ⟨.snoc hrun hs'', hblocks.trans (run_asked hsim.clean hs'' (Ne.symm hes.2))⟩
  exact (hboth run hcrash).2

/-- An operation that changes a block, up to the installation of the block. -/
def committed (p b : Nat) (data : Block) : List Event :=
  [.begin p, .write p b data, .finish p, .work, .work, .work, .work]

theorem runs_on_block_store_committed : ∃ s s' log,
    runOf (next .mkfs) (boot blank) [.work, .work, .work] = some s ∧
    runOf (recorded .mkfs) (s, []) (committed 1 60 fun _ => 1) = some (s', log) ∧
    Run (stepOf BlockStore.next) ⟨s.buf, s.disk⟩ log ⟨s'.buf, s'.disk⟩ := by
  obtain ⟨s, hs, hrest⟩ := (Option.any_eq_true _ _).mp
    (show (runOf (next .mkfs) (boot blank) [.work, .work, .work]).any (fun s =>
      (runOf (recorded .mkfs) (s, []) (committed 1 60 fun _ => 1)).isSome) = true by
        decide +kernel)
  obtain ⟨⟨s', log⟩, hs'⟩ := Option.isSome_iff_exists.mp hrest
  have hcrash : .crash ∉ committed 1 60 fun _ => 1 := by simp [committed]
  exact ⟨s, s', log, hs, hs',
    runs_on_block_store fits_blank (run_of_runOf hs) (run_of_runOf hs') hcrash⟩

end LogSystem

end Cs537.P5
