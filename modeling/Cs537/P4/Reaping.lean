import Cs537.P4.Families

/-!
# What becomes of children

Every pid that `fork` has returned belongs to a process in the table or has been returned by `wait`,
once, to the parent or to the first process. A child starts out killed if a call of `kill` has hit
the slot that it gets.
-/

namespace Cs537.P4

open Cs537.Lib

variable {nproc : Nat}

namespace Family

variable {initproc p i j : Fin nproc} {f f' : Family nproc} {ds ds' : List Deed}
  {e : Kernel.Event nproc}

/-- The pid of the child in a slot. -/
def child? (initproc : Fin nproc) (f : Family nproc) (i : Fin nproc) : Option Int :=
  if i ≠ initproc ∧ (f.kin i).stage ≠ .free then some (f.kin i).pid else none

def zombie? (f : Family nproc) (i : Fin nproc) : Option Int :=
  if (f.kin i).stage = .zombie then some (f.kin i).pid else none

def children (initproc : Fin nproc) (f : Family nproc) : List Int :=
  (List.finRange nproc).filterMap (f.child? initproc)

def zombies (f : Family nproc) : List Int :=
  (List.finRange nproc).filterMap f.zombie?

/-- The deeds up to now account for the family. -/
structure Told (initproc : Fin nproc) (f : Family nproc) (ds : List Deed) : Prop where
  nodup : (ds.filterMap Deed.bornPid?).Nodup
  below : ∀ c ∈ ds.filterMap Deed.bornPid?, c < f.nextpid
  born : (ds.filterMap Deed.bornPid?).Perm (ds.filterMap Deed.reapedPid? ++ f.children initproc)
  died : (ds.filterMap Deed.diedPid?).Perm (ds.filterMap Deed.reapedPid? ++ f.zombies)
  kids : ∀ i q, i ≠ initproc → (f.kin i).stage ≠ .free → (f.kin i).parent = some q →
    .born (f.kin q).pid (f.kin i).pid ∈ ds ∨ q = initproc
  right : ∀ p c, .reaped p c ∈ ds → .born p c ∈ ds ∨ p = 1

theorem child?_congr (hstage : (f'.kin i).stage = (f.kin i).stage)
    (hpid : (f.kin i).stage ≠ .free → (f'.kin i).pid = (f.kin i).pid) :
    f'.child? initproc i = f.child? initproc i := by
  unfold child?
  rw [hstage]
  by_cases h : i ≠ initproc ∧ (f.kin i).stage ≠ .free
  · rw [if_pos h, if_pos h, hpid h.2]
  · rw [if_neg h, if_neg h]

theorem zombie?_congr (hstage : (f'.kin i).stage = (f.kin i).stage)
    (hpid : (f.kin i).stage ≠ .free → (f'.kin i).pid = (f.kin i).pid) :
    f'.zombie? i = f.zombie? i := by
  unfold zombie?
  rw [hstage]
  by_cases h : (f.kin i).stage = .zombie
  · rw [if_pos h, if_pos h, hpid (by rw [h]; decide)]
  · rw [if_neg h, if_neg h]

theorem Alike.children (h : f.Alike f') : f'.children initproc = f.children initproc :=
  List.filterMap_congr fun j _ => child?_congr (h.stage j) (h.pid j)

theorem Alike.zombies (h : f.Alike f') : f'.zombies = f.zombies :=
  List.filterMap_congr fun j _ => zombie?_congr (h.stage j) (h.pid j)

theorem Told.of_alike (h : f.Told initproc ds) (hsound : f.Sound initproc) (halike : f.Alike f')
    (hle : f.nextpid ≤ f'.nextpid) : f'.Told initproc ds := by
  refine ⟨h.nodup, fun c hc => Int.lt_of_lt_of_le (h.below c hc) hle, ?_, ?_,
    fun i q hi hused hq => ?_, h.right⟩
  · rw [halike.children]
    exact h.born
  · rw [halike.zombies]
    exact h.died
  · rw [halike.stage] at hused
    rw [halike.parent] at hq
    obtain ⟨p, hp, hlive, -⟩ := hsound.parent i hi hused
    rw [hq] at hp
    cases hp
    rw [halike.pid i hused, halike.pid q (by rw [hlive]; decide)]
    exact h.kids i q hi hused hq

theorem Told.die (h : f.Told initproc ds) (hlive : (f.kin p).stage = .live) :
    (f.die initproc p).Told initproc (ds ++ [.died (f.kin p).pid]) := by
  have hmem : ∀ {d}, d ∈ ds → d ∈ ds ++ [.died (f.kin p).pid] := List.mem_append_left _
  have hback : ∀ {a b}, Deed.reaped a b ∈ ds ++ [.died (f.kin p).pid] → .reaped a b ∈ ds := by
    intro a b hin
    refine (List.mem_append.mp hin).resolve_right fun hlast => ?_
    cases List.mem_singleton.mp hlast
  have hchildren : (f.die initproc p).children initproc = f.children initproc := by
    refine List.filterMap_congr fun j _ => ?_
    unfold child?
    rw [die_pid]
    simp only [die_used hlive]
  have hzombies : (f.die initproc p).zombies.Perm ((f.kin p).pid :: f.zombies) := by
    refine filterMap_perm_cons (List.nodup_finRange nproc) (List.mem_finRange p) ?_
      (if_neg (by rw [hlive]; decide)) fun j hj => ?_
    · unfold zombie?
      rw [die_stage, die_pid, if_pos rfl, if_pos rfl]
    · unfold zombie?
      rw [die_stage, die_pid, if_neg hj]
  refine ⟨?_, ?_, ?_, ?_, fun i q hi hused hq => ?_, fun a b hin => ?_⟩
  · rw [List.filterMap_append]
    exact (List.append_nil _).symm ▸ h.nodup
  · rw [List.filterMap_append]
    exact (List.append_nil _).symm ▸ h.below
  · rw [List.filterMap_append, List.filterMap_append, hchildren]
    exact (List.append_nil _).symm ▸ (List.append_nil _).symm ▸ h.born
  · rw [List.filterMap_append, List.filterMap_append]
    calc ds.filterMap Deed.diedPid? ++ [(f.kin p).pid]
      List.Perm _ ((f.kin p).pid :: ds.filterMap Deed.diedPid?) := List.perm_append_singleton _ _
      List.Perm _ ((f.kin p).pid :: (ds.filterMap Deed.reapedPid? ++ f.zombies)) := h.died.cons _
      List.Perm _ (ds.filterMap Deed.reapedPid? ++ (f.kin p).pid :: f.zombies) :=
        List.perm_middle.symm
      List.Perm _ (ds.filterMap Deed.reapedPid? ++ [] ++ (f.die initproc p).zombies) := by
        rw [List.append_nil]
        exact hzombies.symm.append_left _
  · rw [die_used hlive] at hused
    rw [die_pid, die_pid]
    rw [die_parent] at hq
    by_cases hchild : (f.kin i).parent = some p
    · rw [if_pos hchild] at hq
      exact .inr (Option.some.inj hq).symm
    · rw [if_neg hchild] at hq
      exact (h.kids i q hi hused hq).imp_left hmem
  · exact (h.right a b (hback hin)).imp_left hmem

theorem Told.reap (h : f.Told initproc ds) (hsound : f.Sound initproc)
    (hchild : (f.kin i).parent = some p) (hzombie : (f.kin i).stage = .zombie) :
    (f.reap i).Told initproc (ds ++ [.reaped (f.kin p).pid (f.kin i).pid]) := by
  have hdead : (f.kin i).stage ≠ .live := by
    rw [hzombie]
    decide
  have hused : (f.kin i).stage ≠ .free := by
    rw [hzombie]
    decide
  have hinit : i ≠ initproc := by
    rintro rfl
    exact hdead hsound.first.1
  have hsame : ∀ j, j ≠ i → (f.reap i).kin j = f.kin j :=
    fun j hj => (set_kin f i j _).trans (if_neg hj)
  have hself : (f.reap i).kin i = ⟨.free, 0, none, false⟩ := (set_kin f i i _).trans (if_pos rfl)
  have hfree : ¬ ((f.reap i).kin i).stage ≠ .free := by
    rw [hself]
    exact fun hne => hne rfl
  have hchildren : (f.children initproc).Perm ((f.kin i).pid :: (f.reap i).children initproc) :=
    filterMap_perm_cons (List.nodup_finRange nproc) (List.mem_finRange i) (if_pos ⟨hinit, hused⟩)
      (if_neg fun hi => hfree hi.2) fun j hj => by
      unfold child?
      rw [hsame j hj]
  have hzombies : f.zombies.Perm ((f.kin i).pid :: (f.reap i).zombies) :=
    filterMap_perm_cons (List.nodup_finRange nproc) (List.mem_finRange i) (if_pos hzombie)
      (if_neg (by rw [hself]; nofun)) fun j hj => by
      unfold zombie?
      rw [hsame j hj]
  have hmem : ∀ {d}, d ∈ ds → d ∈ ds ++ [.reaped (f.kin p).pid (f.kin i).pid] :=
    List.mem_append_left _
  refine ⟨?_, ?_, ?_, ?_, fun j q hj hused' hq => ?_, fun a b hin => ?_⟩
  · rw [List.filterMap_append]
    exact (List.append_nil _).symm ▸ h.nodup
  · rw [List.filterMap_append]
    exact (List.append_nil _).symm ▸ h.below
  · rw [List.filterMap_append, List.filterMap_append]
    calc ds.filterMap Deed.bornPid? ++ []
      List.Perm _ (ds.filterMap Deed.reapedPid? ++ f.children initproc) :=
        (List.append_nil _).symm ▸ h.born
      List.Perm _ (ds.filterMap Deed.reapedPid? ++
          ([(f.kin i).pid] ++ (f.reap i).children initproc)) := hchildren.append_left _
      List.Perm _ (ds.filterMap Deed.reapedPid? ++ [(f.kin i).pid] ++
          (f.reap i).children initproc) := by rw [List.append_assoc]
  · rw [List.filterMap_append, List.filterMap_append]
    calc ds.filterMap Deed.diedPid? ++ []
      List.Perm _ (ds.filterMap Deed.reapedPid? ++ f.zombies) := (List.append_nil _).symm ▸ h.died
      List.Perm _ (ds.filterMap Deed.reapedPid? ++ ([(f.kin i).pid] ++ (f.reap i).zombies)) :=
        hzombies.append_left _
      List.Perm _ (ds.filterMap Deed.reapedPid? ++ [(f.kin i).pid] ++ (f.reap i).zombies) := by
        rw [List.append_assoc]
  · have hji : j ≠ i := by
      rintro rfl
      exact hfree hused'
    have heq := hsame j hji
    rw [heq] at hused' hq ⊢
    rw [hsame q (hsound.parent_ne hdead hj hused' hq)]
    exact (h.kids j q hj hused' hq).imp_left hmem
  · rcases List.mem_append.mp hin with hin | hin
    · exact (h.right a b hin).imp_left hmem
    · cases List.mem_singleton.mp hin
      rcases h.kids i p hinit hused hchild with hborn | rfl
      · exact .inl (hmem hborn)
      · exact .inr hsound.first.2

theorem Told.birth (h : f.Told initproc ds) (hsound : f.Sound initproc)
    (hlive : (f.kin p).stage = .live) (hfree : (f.kin i).stage = .free)
    (hleft : f.nextpid < 2 ^ 31 - 1) :
    (f.birth p i).Told initproc (ds ++ [.born (f.kin p).pid f.nextpid]) := by
  have hdead : (f.kin i).stage ≠ .live := by
    rw [hfree]
    decide
  have hinit : i ≠ initproc := by
    rintro rfl
    exact hdead hsound.first.1
  have hp : p ≠ i := by
    rintro rfl
    exact hdead hlive
  have hself : (f.birth p i).kin i = ⟨.live, f.nextpid, some p, (f.kin i).killed⟩ :=
    (birth_kin f p i i).trans (if_pos rfl)
  have hsame : ∀ j, j ≠ i → (f.birth p i).kin j = f.kin j :=
    fun j hj => (birth_kin f p i j).trans (if_neg hj)
  have hchildren : ((f.birth p i).children initproc).Perm (f.nextpid :: f.children initproc) := by
    refine filterMap_perm_cons (List.nodup_finRange nproc) (List.mem_finRange i) ?_
      (if_neg fun hi => hi.2 hfree) fun j hj => ?_
    · unfold child?
      rw [hself, if_pos ⟨hinit, nofun⟩]
    · unfold child?
      rw [hsame j hj]
  have hzombies : (f.birth p i).zombies = f.zombies := by
    refine List.filterMap_congr fun j _ => ?_
    by_cases hj : j = i
    · unfold zombie?
      rw [hj, hself, hfree, if_neg nofun, if_neg nofun]
    · unfold zombie?
      rw [hsame j hj]
  have hmem : ∀ {d}, d ∈ ds → d ∈ ds ++ [.born (f.kin p).pid f.nextpid] :=
    List.mem_append_left _
  have hborn : (ds ++ [Deed.born (f.kin p).pid f.nextpid]).filterMap Deed.bornPid? =
      ds.filterMap Deed.bornPid? ++ [f.nextpid] := List.filterMap_append
  refine ⟨?_, fun c hc => ?_, ?_, ?_, fun j q hj hused hq => ?_, fun a b hin => ?_⟩
  · rw [hborn]
    refine List.Nodup.append h.nodup (List.nodup_singleton _) fun c hc hlast => ?_
    rw [List.mem_singleton.mp hlast] at hc
    exact absurd (h.below _ hc) (Int.lt_irrefl _)
  · have hnext : (f.birth p i).nextpid = f.nextpid + 1 := hsound.next_pid hleft
    rw [hborn] at hc
    rw [hnext]
    refine Int.lt_add_one_of_le ?_
    rcases List.mem_append.mp hc with hc | hc
    · exact Int.le_of_lt (h.below c hc)
    · rw [List.mem_singleton.mp hc]
  · rw [hborn, List.filterMap_append]
    calc ds.filterMap Deed.bornPid? ++ [f.nextpid]
      List.Perm _ (f.nextpid :: ds.filterMap Deed.bornPid?) := List.perm_append_singleton _ _
      List.Perm _ (f.nextpid :: (ds.filterMap Deed.reapedPid? ++ f.children initproc)) :=
        h.born.cons _
      List.Perm _ (ds.filterMap Deed.reapedPid? ++ f.nextpid :: f.children initproc) :=
        List.perm_middle.symm
      List.Perm _ (ds.filterMap Deed.reapedPid? ++ [] ++ (f.birth p i).children initproc) := by
        rw [List.append_nil]
        exact hchildren.symm.append_left _
  · rw [List.filterMap_append, List.filterMap_append, hzombies]
    exact (List.append_nil _).symm ▸ (List.append_nil _).symm ▸ h.died
  · by_cases hji : j = i
    · rw [hji, hself] at hq
      cases hq
      rw [hji, hself, hsame p hp]
      exact .inl (List.mem_append_right _ (List.mem_singleton.mpr rfl))
    · have heq := hsame j hji
      rw [heq] at hused hq ⊢
      rw [hsame q (hsound.parent_ne hdead hj hused hq)]
      exact (h.kids j q hj hused hq).imp_left hmem
  · refine (h.right a b ((List.mem_append.mp hin).resolve_right fun hlast => ?_)).imp_left hmem
    cases List.mem_singleton.mp hlast

theorem Told.moves (h : f.Told initproc ds) (hsound : f.Sound initproc)
    (hmove : f.Moves initproc ds' e f') (hleft : f.pidLeft e) :
    f'.Told initproc (ds ++ ds') := by
  cases hmove with
  | same _ | missed _ =>
    rw [List.append_nil]
    exact h
  | kill _ | trapKill _ =>
    rw [List.append_nil]
    exact h.of_alike hsound (alike_kill f _) (Int.le_refl _)
  | exit hlive _ => exact h.die hlive
  | reap hchild hzombie => exact h.reap hsound hchild hzombie
  | birth hlive hfree => exact h.birth hsound hlive hfree (of_decide_eq_true hleft)
  | misbirth hfree =>
    rw [List.append_nil]
    exact h.of_alike hsound (alike_misbirth hfree)
      (hsound.misbirth_le (of_decide_eq_true hleft) _)

end Family

/-! ## Runs -/

namespace Kernel

variable {initproc p i : Fin nproc} {k k' : Kernel nproc} {e : Event nproc} {ds : List Deed}

/-- A step, with the deeds up to then. -/
def recorded (initproc : Fin nproc) (s : Kernel nproc × List Deed) (e : Event nproc) :
    Option (Kernel nproc × List Deed) :=
  (next initproc s.1 e).map fun k' => (k', s.2 ++ s.1.deeds e)

theorem told_userinit (initproc : Fin nproc) : (userinit initproc).family.Told initproc [] := by
  have hzombies : (userinit initproc).family.zombies = [] := by
    refine List.filterMap_eq_nil_iff.mpr fun j _ => if_neg fun hj => ?_
    have hzombie := stage_eq_zombie.mp hj
    unfold userinit at hzombie
    dsimp only at hzombie
    split at hzombie
    · cases hzombie
    · cases hzombie
  have hchildren : (userinit initproc).family.children initproc = [] :=
    List.filterMap_eq_nil_iff.mpr fun j _ => if_neg fun hj => hj.1 (userinit_used hj.2)
  refine ⟨List.nodup_nil, nofun, ?_, ?_, fun j q hj hused => absurd (userinit_used hused) hj, nofun⟩
  · rw [hchildren]
    exact .refl _
  · rw [hzombies]
    exact .refl _

/-- As long as `nextpid` has not come to its end every pid that `fork` returns is new. Those are the
pids that `wait` has returned, each once, and those of the children there are; and those that have
exited are the pids that `wait` has returned and the zombies. `wait` returns a pid to the parent or
to the first process. -/
theorem exits_told {es : List (Event nproc)}
    (run : Run (guarded (fun s e => s.1.family.pidLeft e) (stepOf (recorded initproc)))
      (userinit initproc, []) es (k, ds)) :
    (ds.filterMap Deed.bornPid?).Nodup ∧
    (ds.filterMap Deed.bornPid?).Perm
      (ds.filterMap Deed.reapedPid? ++ k.family.children initproc) ∧
    (ds.filterMap Deed.diedPid?).Perm (ds.filterMap Deed.reapedPid? ++ k.family.zombies) ∧
    ∀ p c, .reaped p c ∈ ds → .born p c ∈ ds ∨ p = 1 := by
  have htold := run.invariant
    (fun s => s.1.family.Sound initproc ∧ s.1.family.Told initproc s.2)
    ⟨sound_userinit initproc, told_userinit initproc⟩ ?_
  · exact ⟨htold.2.nodup, htold.2.born, htold.2.died, htold.2.right⟩
  · rintro s e t ⟨hsound, htold⟩ ⟨hleft, hstep⟩
    obtain ⟨k', hnext, rfl⟩ := Option.map_eq_some_iff.mp hstep
    have hmove := moves_of_next hnext
    exact ⟨hsound.moves hmove hleft, htold.moves hsound hmove hleft⟩

/-- The first process waits for a child of its child. -/
def adopted (first child grandchild : Fin nproc) : List (Event nproc) :=
  [.schedule first, .fork first .returns, .schedule child, .fork child .returns, .exit child,
    .wait first, .schedule grandchild, .exit grandchild, .wait first]

theorem exits_told_adopted : ∃ s,
    Run (guarded (fun s e => s.1.family.pidLeft e) (stepOf (recorded 0))) (userinit 0, [])
      (adopted (0 : Fin 4) 1 2) s ∧
    .reaped 1 3 ∈ s.2 ∧
    (s.2.filterMap Deed.bornPid?).Nodup ∧
    (s.2.filterMap Deed.bornPid?).Perm
      (s.2.filterMap Deed.reapedPid? ++ s.1.family.children 0) ∧
    (s.2.filterMap Deed.diedPid?).Perm (s.2.filterMap Deed.reapedPid? ++ s.1.family.zombies) ∧
    ∀ p c, .reaped p c ∈ s.2 → .born p c ∈ s.2 ∨ p = 1 := by
  obtain ⟨s, hs, hmem⟩ := (Option.any_eq_true _ _).mp
    (show (runOf (fun s e => if s.1.family.pidLeft e then recorded 0 s e else none) (userinit 0, [])
      (adopted (0 : Fin 4) 1 2)).any (fun s => .reaped 1 3 ∈ s.2) = true by decide +kernel)
  have run := run_guarded_of_runOf hs
  exact ⟨s, run, of_decide_eq_true hmem, exits_told run⟩

end Kernel

/-! ## Children that are killed before they exist -/

namespace Family

variable {initproc p i j : Fin nproc} {f f' : Family nproc} {ds : List Deed}
  {e : Kernel.Event nproc}

theorem die_killed (f : Family nproc) (initproc p j : Fin nproc) :
    ((f.die initproc p).kin j).killed = (f.kin j).killed := by
  have hadopt : ∀ j, ((f.adopt initproc p (List.finRange nproc)).kin j).killed =
      (f.kin j).killed := by
    intro j
    rw [adopt_kin]
    split
    · rfl
    · rfl
  unfold die
  dsimp only
  rw [set_kin]
  split
  · rename_i hj
    rw [hj]
    exact hadopt p
  · exact hadopt j

/-- A free slot is marked killed by the last user or by a call of `kill` that finds it. -/
theorem Moves.killed_iff (hmove : f.Moves initproc ds e f') (hfree : (f.kin j).stage = .free) :
    (f'.kin j).killed = true ↔
      (f.kin j).killed = true ∨ ∃ pid, e = .kill pid ∧ f.target pid = some j := by
  have hsame : (∀ pid, e = .kill pid → f.target pid ≠ some j) →
      (f'.kin j).killed = (f.kin j).killed → ((f'.kin j).killed = true ↔
        (f.kin j).killed = true ∨ ∃ pid, e = .kill pid ∧ f.target pid = some j) := by
    intro hno heq
    rw [heq]
    refine (or_iff_left ?_).symm
    rintro ⟨pid, he, htarget⟩
    exact hno pid he htarget
  cases hmove with
  | same hkill => exact hsame (fun pid he => absurd he (hkill pid)) rfl
  | missed hnone =>
    refine hsame (fun pid he htarget => ?_) rfl
    cases he
    rw [hnone] at htarget
    cases htarget
  | @kill pid i htarget =>
    by_cases hj : j = i
    · subst hj
      have hkilled : ((f.kill j).kin j).killed = true :=
        congrArg Kin.killed ((set_kin f j j _).trans (if_pos rfl))
      exact iff_of_true hkilled (.inr ⟨pid, rfl, htarget⟩)
    · refine hsame (fun pid' he htarget' => ?_) ?_
      · cases he
        rw [htarget] at htarget'
        exact hj (Option.some.inj htarget').symm
      · exact congrArg Kin.killed ((set_kin f i j _).trans (if_neg hj))
  | @trapKill p hlive =>
    have hj : j ≠ p := by
      rintro rfl
      rw [hfree] at hlive
      cases hlive
    exact hsame nofun (congrArg Kin.killed ((set_kin f p j _).trans (if_neg hj)))
  | exit _ _ => exact hsame nofun (die_killed f initproc _ j)
  | @reap p i _ hzombie =>
    have hj : j ≠ i := by
      rintro rfl
      rw [hfree] at hzombie
      cases hzombie
    exact hsame nofun (congrArg Kin.killed ((set_kin f i j _).trans (if_neg hj)))
  | @birth p i _ _ =>
    refine hsame nofun ?_
    rw [birth_kin]
    split
    · rename_i hj
      rw [hj]
    · rfl
  | @misbirth p i _ _ =>
    refine hsame nofun ?_
    refine (congrArg Kin.killed (set_kin f i j _)).trans ?_
    split
    · rename_i hj
      rw [hj]
    · rfl

/-- What becomes free is not marked killed. -/
theorem Moves.free_cases (hmove : f.Moves initproc ds e f') (hfree : (f'.kin j).stage = .free) :
    (f.kin j).stage = .free ∨ (f'.kin j).killed = false := by
  cases hmove with
  | same _ | missed _ => exact .inl hfree
  | kill _ | trapKill _ => exact .inl ((alike_kill f _).stage j ▸ hfree)
  | exit hlive _ =>
    refine .inl (Classical.byContradiction fun hused => ?_)
    exact (die_used hlive j).mpr hused hfree
  | @reap p i _ _ =>
    by_cases hj : j = i
    · right
      subst hj
      exact congrArg Kin.killed ((set_kin f j j _).trans (if_pos rfl))
    · left
      rw [show (f.reap i).kin j = f.kin j from (set_kin f i j _).trans (if_neg hj)] at hfree
      exact hfree
  | @birth p i _ hfree' =>
    by_cases hj : j = i
    · exact .inl (hj ▸ hfree')
    · rw [birth_kin, if_neg hj] at hfree
      exact .inl hfree
  | misbirth hfree' => exact .inl ((alike_misbirth hfree').stage j ▸ hfree)

end Family

namespace Kernel

variable {initproc : Fin nproc} {k k' : Kernel nproc} {e : Event nproc}

/-- A call of `kill` that finds the pid in a slot that is not in use. -/
def HitsFree (k : Kernel nproc) (e : Event nproc) : Prop :=
  ∃ i, (k.proc i).state = .unused ∧ ∃ pid, e = .kill pid ∧ k.family.target pid = some i

/-- Who was not there before the step is not killed after it. -/
def NewUnkilled (k : Kernel nproc) (_ : Event nproc) (k' : Kernel nproc) : Prop :=
  ∀ i, (k.proc i).state = .unused → (k'.proc i).killed = false

/-- Slots that are not in use are not marked killed. -/
def Clean (k : Kernel nproc) : Prop := ∀ i, (k.proc i).state = .unused → (k.proc i).killed = false

theorem newUnkilled_iff (h : k.Clean) (hnext : next initproc k e = some k') :
    ¬ k.HitsFree e ↔ k.NewUnkilled e k' := by
  have hkilled : ∀ i, (k.proc i).state = .unused → ((k'.proc i).killed = true ↔
      (k.proc i).killed = true ∨ ∃ pid, e = .kill pid ∧ k.family.target pid = some i) :=
    fun i hi => (moves_of_next hnext).killed_iff (stage_eq_free.mpr hi)
  constructor
  · intro hno i hi
    rw [← Bool.not_eq_true, hkilled i hi, h i hi]
    rintro (htrue | hhit)
    · cases htrue
    · exact hno ⟨i, hi, hhit⟩
  · rintro hclean ⟨i, hi, hhit⟩
    have htrue := (hkilled i hi).mpr (.inr hhit)
    rw [hclean i hi] at htrue
    cases htrue

theorem Clean.next (h : k.Clean) (hno : ¬ k.HitsFree e) (hnext : next initproc k e = some k') :
    k'.Clean := by
  intro i hi
  rcases (moves_of_next hnext).free_cases (stage_eq_free.mpr hi) with hfree | hkilled
  · exact (newUnkilled_iff h hnext).mp hno i (stage_eq_free.mp hfree)
  · exact hkilled

/-- In a run nobody is killed before he is there, just if no step is a call of `kill` that finds its
pid in a slot which is not in use. -/
theorem new_unkilled_iff (initproc : Fin nproc) (es : List (Event nproc)) (k : Kernel nproc) :
    Run (guarded (fun k e => ¬ k.HitsFree e) (stepOf (next initproc))) (userinit initproc) es k ↔
      Run (outcome NewUnkilled (stepOf (next initproc))) (userinit initproc) es k := by
  refine Run.guarded_iff_outcome Clean (fun _ _ => rfl) ?_ ?_
  · intro t e u hclean hno hstep
    exact hclean.next hno hstep
  · intro t e u hclean hstep
    exact newUnkilled_iff hclean hstep

/-- `kill(0)` kills the next child. -/
example : (runOf (next 0) (userinit (0 : Fin 3)) [.kill 0, .schedule 0, .fork 0 .returns]).any
    (fun k => (k.proc 1).state = .runnable ∧ (k.proc 1).killed = true) := by
  decide +kernel

end Kernel

end Cs537.P4
