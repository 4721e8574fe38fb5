import Cs537.Lib.Recency
import Cs537.P5.Buffers

/-!
# Which buffer is recycled

The ring holds the buffers in the order in which they were last given up by all processes, and a
lookup takes the unused one that has been idle for longest.
-/

namespace Cs537.P5

open Cs537.Lib

namespace Bcache

variable {π : Type} [DecidableEq π] {s s' : Bcache π} {p : π} {b : Fin nbuf} {n : Nat}
  {e : Event π} {h : List (Fin nbuf)}

/-- The buffer that no process uses any more after a step. -/
def idled (s : Bcache π) : Event π → List (Fin nbuf)
  | .run p =>
    match s.call p with
    | .releasing b => if (s.buf b).refcnt - 1 = 0 then [b] else []
    | _ => []
  | _ => []

/-- A step, with the buffers that have become idle up to then; at the boot that is all of them, in
their order. -/
def tracked (s : Bcache π × List (Fin nbuf)) (e : Event π) :
    Option (Bcache π × List (Fin nbuf)) :=
  (next s.1 e).map fun s' => (s', s.2 ++ s.1.idled e)

theorem holds_binit : binit.Holds (recent (List.finRange nbuf)) := by
  rw [recent_of_nodup (List.nodup_finRange nbuf)]
  exact binit_holds

/-- A buffer that becomes idle comes to the front of the ring. -/
theorem holds_moves (hring : s.links.Holds (recent h)) (hall : ∀ b, b ∈ h)
    (hmove : s.Moves e s') : s'.links.Holds (recent (h ++ s.idled e)) := by
  have hquiet : ∀ {t : Bcache π}, t.links = s.links → t.links.Holds (recent (h ++ [])) := by
    intro t ht
    rw [ht, List.append_nil]
    exact hring
  cases hmove with
  | @drop p b hcall =>
    have hidled : s.idled (.run p) = if (s.buf b).refcnt - 1 = 0 then [b] else [] := by
      simp only [idled, hcall]
    rw [hidled]
    by_cases hzero : (s.buf b).refcnt - 1 = 0
    · have hlinks : (s.drop p b).links = (s.links.unlink b).insertFront b := if_pos hzero
      rw [if_pos hzero, hlinks, recent_snoc]
      exact (hring.unlink (mem_recent.mpr (hall b))).insertFront hring.nodup.not_mem_erase
    · rw [if_neg hzero]
      exact hquiet (if_neg hzero)
  | acquire hcall | found hcall | synced hcall =>
    simp only [idled, hcall]
    exact hquiet rfl
  | ask hcall =>
    simp only [idled, hcall]
    exact hquiet (started_links _)
  | bwrite | serve => exact hquiet (started_links _)
  | share | recycle | modify | pin | brelse | idle => exact hquiet rfl

/-- In every run a lookup that does not find its block recycles the buffer that has been idle for
longest, of those that no process uses and that are not dirty. -/
theorem least_recently_used [Fintype π] {disk : Nat → Nat → Block} {es : List (Event π)}
    (run : Run (guarded (fun _ e => e.OnDisk) (stepOf tracked))
      (boot disk true, List.finRange nbuf) es (s, h))
    (hmiss : ∀ b, s.labelled rootdev n b = false)
    (hget : s.next (.get p rootdev n) = some s') :
    ∃ b, s' = s.recycle p b rootdev n ∧ s.unused b = true ∧
      ∀ c, s.unused c = true → c ≠ b → LastBefore h b c := by
  have hinv := run.invariant
    (fun s => s.1.Sound ∧ (∀ b, b ∈ s.2) ∧ s.1.links.Holds (recent s.2))
    ⟨.of_boot disk, List.mem_finRange, holds_binit⟩ ?_
  · obtain ⟨hsound, hall, hring⟩ := hinv
    generalize hevent : (Event.get p rootdev n : Event π) = e at hget
    cases hsound.moves_of_next hget with
    | @share q dev m b _ hlabel =>
      cases hevent
      rw [hmiss b] at hlabel
      cases hlabel
    | @recycle q dev m b _ _ hvictim hunused =>
      cases hevent
      refine ⟨b, rfl, hunused, fun c hc hne => ?_⟩
      rw [victim_eq hring] at hvictim
      exact lastBefore_of_find hvictim (hall c) hc hne
    | _ => cases hevent
  · intro s e t hinv hstep
    obtain ⟨hsound, hall, hring⟩ := hinv
    obtain ⟨hdisk, hnext⟩ := hstep
    obtain ⟨s', hs', rfl⟩ := Option.map_eq_some_iff.mp hnext
    have hmove := hsound.moves_of_next hs'
    exact ⟨hsound.moves hdisk hmove, fun b => List.mem_append_left _ (hall b),
      holds_moves hring hall hmove⟩

/-- A process reads a block and releases it. -/
def readOnce (p : π) (b : Fin nbuf) (n : Nat) : List (Event π) :=
  [.get p rootdev n, .run p, .run p, .ideintr, .run p, .brelse p b, .run p]

/-- The buffer that was used first is the last one to be used again. -/
theorem least_recently_used_next : ∃ s h s',
    runOf (fun s e => if Event.OnDisk e then tracked s e else none)
      (boot (fun _ _ => .zero) true, List.finRange nbuf)
      (readOnce (0 : Fin 1) ⟨0, by decide⟩ 5) = some (s, h) ∧
    (∀ b, s.labelled rootdev 6 b = false) ∧
    s.next (.get 0 rootdev 6) = some s' ∧
    ∃ b, s' = s.recycle 0 b rootdev 6 ∧ s.unused b = true ∧
      ∀ c, s.unused c = true → c ≠ b → LastBefore h b c := by
  obtain ⟨⟨s, h⟩, hs, hrest⟩ := (Option.any_eq_true _ _).mp
    (show (runOf (fun s e => if Event.OnDisk e then tracked s e else none)
      (boot (fun _ _ => .zero) true, List.finRange nbuf)
      (readOnce (0 : Fin 1) ⟨0, by decide⟩ 5)).any
        (fun s => (∀ b, s.1.labelled rootdev 6 b = false) ∧
          (s.1.next (.get 0 rootdev 6)).isSome = true) = true by decide +kernel)
  obtain ⟨hmiss, hsome⟩ := of_decide_eq_true hrest
  obtain ⟨s', hs'⟩ := Option.isSome_iff_exists.mp hsome
  exact ⟨s, h, s', hs, hmiss, hs', least_recently_used (run_guarded_of_runOf hs) hmiss hs'⟩

end Bcache

end Cs537.P5
