import Mathlib.Logic.Relation
import Cs537.Lib.Run
import Cs537.Lib.Slots
import Cs537.P4.Proc

/-!
# Parents, children and pids

What `fork`, `exit`, `wait` and `kill` make of a family: which slots are in use, whose children they
are and under which pids. Every process but the first is the child of a living older one, every exit
is told to one `wait`, and `kill` can hit the slot of a process to come.
-/

namespace Cs537.P4

open Cs537.Lib

variable {nproc : Nat}

/-! ## Families -/

/-- What a slot of the process table is for its family. -/
inductive Stage where
  | free
  | live
  | zombie
  deriving DecidableEq, Repr

def ProcState.stage : ProcState → Stage
  | .unused => .free
  | .zombie => .zombie
  | .embryo | .sleeping | .runnable | .running => .live

/-- What of a process matters to its family. -/
structure Kin (nproc : Nat) where
  stage : Stage
  pid : Int
  parent : Option (Fin nproc)
  killed : Bool

def Proc.kin (p : Proc nproc) : Kin nproc := ⟨p.state.stage, p.pid, p.parent, p.killed⟩

/-- The process table as a family, with the next pid. -/
structure Family (nproc : Nat) where
  kin : Fin nproc → Kin nproc
  nextpid : Int

/-- What the calls of a family's members return, or say when they do not return. -/
inductive Deed where
  /-- `fork` returns a child's pid. -/
  | born (parent child : Int)
  /-- `exit`. -/
  | died (pid : Int)
  /-- `wait` returns a child's pid. -/
  | reaped (parent child : Int)
  deriving DecidableEq, Repr

namespace Deed

def bornPid? : Deed → Option Int
  | born _ c => some c
  | died _ | reaped _ _ => none

def diedPid? : Deed → Option Int
  | died c => some c
  | born _ _ | reaped _ _ => none

def reapedPid? : Deed → Option Int
  | reaped _ c => some c
  | born _ _ | died _ => none

end Deed

namespace Family

variable {initproc p i j : Fin nproc} {f f' : Family nproc} {q : Kin nproc}

def set (f : Family nproc) (i : Fin nproc) (q : Kin nproc) : Family nproc :=
  { f with kin := Function.update f.kin i q }

theorem ext (hkin : ∀ j, f.kin j = f'.kin j) (hnext : f.nextpid = f'.nextpid) : f = f' := by
  cases f
  cases f'
  cases hnext
  cases funext hkin
  rfl

theorem set_kin (f : Family nproc) (i j : Fin nproc) (q : Kin nproc) :
    (f.set i q).kin j = if j = i then q else f.kin j := by
  simp only [set, Function.update_apply]

/-- The first slot with this pid. -/
def target (f : Family nproc) (pid : Int) : Option (Fin nproc) :=
  (List.finRange nproc).find? fun i => (f.kin i).pid = pid

def kill (f : Family nproc) (i : Fin nproc) : Family nproc :=
  f.set i { f.kin i with killed := true }

/-- The first process adopts the children of `p`, as far as they are in the list. -/
def adopt (f : Family nproc) (initproc p : Fin nproc) (l : List (Fin nproc)) : Family nproc :=
  { f with
    kin := fun j =>
      if l.any (· = j) ∧ (f.kin j).parent = some p then { f.kin j with parent := some initproc }
      else f.kin j }

theorem adopt_kin (f : Family nproc) (initproc p : Fin nproc) (l : List (Fin nproc))
    (j : Fin nproc) : (f.adopt initproc p l).kin j =
      if j ∈ l ∧ (f.kin j).parent = some p then { f.kin j with parent := some initproc }
      else f.kin j := by
  simp [adopt]

/-- A process exits. -/
def die (f : Family nproc) (initproc p : Fin nproc) : Family nproc :=
  let f := f.adopt initproc p (List.finRange nproc)
  f.set p { f.kin p with stage := .zombie }

/-- A slot is given back. -/
def reap (f : Family nproc) (i : Fin nproc) : Family nproc :=
  f.set i ⟨.free, 0, none, false⟩

/-- A child, in a slot whose `killed` is as the last user left it. -/
def birth (f : Family nproc) (p i : Fin nproc) : Family nproc :=
  { f.set i ⟨.live, f.nextpid, some p, (f.kin i).killed⟩ with nextpid := i32 (f.nextpid + 1) }

/-- A child for which there is no memory. -/
def misbirth (f : Family nproc) (i : Fin nproc) : Family nproc :=
  { f.set i { f.kin i with pid := f.nextpid } with nextpid := i32 (f.nextpid + 1) }

/-- What a step of the kernel can do to a family. -/
inductive Moves (initproc : Fin nproc) (f : Family nproc) :
    List Deed → Kernel.Event nproc → Family nproc → Prop where
  | same {e : Kernel.Event nproc} (hkill : ∀ pid, e ≠ .kill pid) : Moves initproc f [] e f
  | missed {pid : Int} (hnone : f.target pid = none) : Moves initproc f [] (.kill pid) f
  | kill {pid : Int} {i : Fin nproc} (htarget : f.target pid = some i) :
      Moves initproc f [] (.kill pid) (f.kill i)
  | trapKill {p : Fin nproc} (hlive : (f.kin p).stage = .live) :
      Moves initproc f [] (.trapKill p) (f.kill p)
  | exit {p : Fin nproc} (hlive : (f.kin p).stage = .live) (hinit : p ≠ initproc) :
      Moves initproc f [.died (f.kin p).pid] (.exit p) (f.die initproc p)
  | reap {p i : Fin nproc} (hchild : (f.kin i).parent = some p)
      (hzombie : (f.kin i).stage = .zombie) :
      Moves initproc f [.reaped (f.kin p).pid (f.kin i).pid] (.wait p) (f.reap i)
  | birth {p i : Fin nproc} (hlive : (f.kin p).stage = .live) (hfree : (f.kin i).stage = .free) :
      Moves initproc f [.born (f.kin p).pid f.nextpid] (.fork p .returns) (f.birth p i)
  | misbirth {p i : Fin nproc} {result : Kernel.ForkEnd} (hfree : (f.kin i).stage = .free) :
      Moves initproc f [] (.fork p result) (f.misbirth i)

/-- A call of `fork` is made while `nextpid` can still grow: it is an `int`. -/
def pidLeft (f : Family nproc) : Kernel.Event nproc → Bool
  | .fork _ _ => f.nextpid < 2 ^ 31 - 1
  | _ => true

end Family

/-! ## The family of a process table -/

namespace Kernel

variable {initproc p i : Fin nproc} {k k' : Kernel nproc} {e : Event nproc}

def family (k : Kernel nproc) : Family nproc := ⟨fun i => (k.proc i).kin, k.nextpid⟩

/-- The child that `wait` finds. -/
def zombieChild (k : Kernel nproc) (p : Fin nproc) : Option (Fin nproc) :=
  (List.finRange nproc).find? fun i => (k.proc i).parent = some p ∧ (k.proc i).state = .zombie

/-- The deeds of a step. -/
def deeds (k : Kernel nproc) : Event nproc → List Deed
  | .fork p .returns =>
    if ∃ i, (k.proc i).state = .unused then [.born (k.proc p).pid k.nextpid] else []
  | .exit p => [.died (k.proc p).pid]
  | .wait p =>
    match k.zombieChild p with
    | some i => [.reaped (k.proc p).pid (k.proc i).pid]
    | none => []
  | _ => []

theorem stage_eq_free {s : ProcState} : s.stage = .free ↔ s = .unused := by
  cases s <;> decide

theorem stage_eq_zombie {s : ProcState} : s.stage = .zombie ↔ s = .zombie := by
  cases s <;> decide

theorem family_setProc (k : Kernel nproc) (i : Fin nproc) (q : Proc nproc) :
    (k.setProc i q).family = k.family.set i q.kin := by
  unfold family Family.set
  congr 1
  funext j
  rw [setProc_proc, Function.update_apply, apply_ite Proc.kin]

theorem family_setProc_same (i : Fin nproc) {q : Proc nproc} (h : q.kin = (k.proc i).kin) :
    (k.setProc i q).family = k.family := by
  rw [family_setProc, h]
  unfold Family.set family
  rw [Function.update_eq_self]

theorem family_wakeup1 (chan : Option (Chan nproc)) (k : Kernel nproc) :
    (wakeup1 chan k).family = k.family := by
  have hslot : ∀ q : Proc nproc, (wakeup1Slot chan q).kin = q.kin := by
    intro q
    unfold wakeup1Slot
    split
    · rename_i h
      unfold Proc.kin
      rw [h.1]
      rfl
    · split
      · rfl
      · rfl
  unfold family wakeup1
  simp only [hslot]

theorem family_sleep (chan : Chan nproc) (hrun : (k.proc p).state = .running) :
    (Kernel.sleep chan p k).family = k.family := by
  refine family_setProc_same p ?_
  unfold Proc.kin
  rw [hrun]
  rfl

theorem family_sleepLoop (c : SleepCall) (p : Fin nproc) (k : Kernel nproc) :
    (sleepLoop c p k).family = k.family := by
  unfold sleepLoop
  split
  · rfl
  · rfl

theorem family_kill (pid : Int) (k : Kernel nproc) : (Kernel.kill pid k).family =
    match k.family.target pid with
    | some i => k.family.kill i
    | none => k.family := by
  unfold Kernel.kill Family.target
  change _ = match (List.finRange nproc).find? (fun i => (k.proc i).pid = pid) with
    | some i => k.family.kill i
    | none => k.family
  cases (List.finRange nproc).find? (fun i => (k.proc i).pid = pid) with
  | none => rfl
  | some i =>
    dsimp only
    rw [family_setProc]
    unfold Family.kill
    congr 1
    split
    · rename_i hsleeping
      unfold Proc.kin family
      dsimp only at hsleeping ⊢
      unfold Proc.kin
      rw [hsleeping]
      rfl
    · rfl

/-- One round of the loop of `exit`. -/
theorem family_reparent (k : Kernel nproc) :
    (reparent initproc p k i).family = k.family.adopt initproc p [i] := by
  unfold Kernel.reparent
  by_cases hchild : (k.proc i).parent = some p
  · rw [if_pos hchild]
    have hset : (k.setProc i { k.proc i with parent := some initproc }).family =
        k.family.adopt initproc p [i] := by
      rw [family_setProc]
      refine Family.ext (fun j => ?_) rfl
      rw [Family.set_kin, Family.adopt_kin]
      by_cases hj : j = i
      · subst hj
        rw [if_pos rfl, if_pos ⟨List.mem_singleton.mpr rfl, hchild⟩]
        rfl
      · rw [if_neg hj, if_neg fun h => hj (List.mem_singleton.mp h.1)]
    dsimp only
    split
    · rw [family_wakeup1, hset]
    · exact hset
  · rw [if_neg hchild]
    refine Family.ext (fun j => ?_) rfl
    rw [Family.adopt_kin, if_neg]
    rintro ⟨hj, hparent⟩
    rw [List.mem_singleton.mp hj] at hparent
    exact hchild hparent

theorem adopt_adopt (f : Family nproc) (hinit : p ≠ initproc) (i : Fin nproc)
    (l : List (Fin nproc)) :
    (f.adopt initproc p [i]).adopt initproc p l = f.adopt initproc p (i :: l) := by
  refine Family.ext (fun j => ?_) rfl
  rw [Family.adopt_kin, Family.adopt_kin, Family.adopt_kin]
  by_cases hchild : (f.kin j).parent = some p
  · by_cases hj : j = i
    · have hone : j ∈ [i] ∧ (f.kin j).parent = some p := ⟨List.mem_singleton.mpr hj, hchild⟩
      have hboth : j ∈ i :: l ∧ (f.kin j).parent = some p := ⟨List.mem_cons.mpr (.inl hj), hchild⟩
      rw [if_pos hone, if_pos hboth, if_neg fun h => hinit (Option.some.inj h.2).symm]
    · have hone : ¬ (j ∈ [i] ∧ (f.kin j).parent = some p) :=
        fun h => hj (List.mem_singleton.mp h.1)
      rw [if_neg hone]
      simp only [List.mem_cons, hj, false_or]
  · have hnone : ∀ l : List (Fin nproc), ¬ (j ∈ l ∧ (f.kin j).parent = some p) :=
      fun _ h => hchild h.2
    rw [if_neg (hnone [i]), if_neg (hnone l), if_neg (hnone (i :: l))]

theorem family_foldl_reparent (hinit : p ≠ initproc) (l : List (Fin nproc)) :
    ∀ k : Kernel nproc, (l.foldl (reparent initproc p) k).family = k.family.adopt initproc p l := by
  induction l with
  | nil =>
    intro k
    refine Family.ext (fun j => ?_) rfl
    rw [Family.adopt_kin, if_neg fun h => List.not_mem_nil h.1]
    rfl
  | cons i l ih =>
    intro k
    rw [List.foldl_cons, ih, family_reparent, adopt_adopt _ hinit]

theorem family_exit (hinit : p ≠ initproc) (k : Kernel nproc) :
    (Kernel.exit initproc p k).family = k.family.die initproc p := by
  unfold Kernel.exit Family.die
  dsimp only
  generalize hk : (List.finRange nproc).foldl (reparent initproc p)
    (wakeup1 ((k.proc p).parent.map .proc) k) = k'
  have hfamily : k'.family = k.family.adopt initproc p (List.finRange nproc) := by
    rw [← hk, family_foldl_reparent hinit, family_wakeup1]
  rw [family_setProc, ← hfamily]
  rfl

theorem deeds_fork_none (result : ForkEnd) (hfull : ∀ i, (k.proc i).state ≠ .unused) :
    k.deeds (.fork p result) = [] := by
  cases result with
  | kallocFails | copyuvmFails => rfl
  | returns => exact if_neg fun ⟨i, hi⟩ => hfull i hi

theorem moves_fork (hrun : (k.proc p).state = .running) (result : ForkEnd) :
    k.family.Moves initproc (k.deeds (.fork p result)) (.fork p result)
      (Kernel.fork p result k).family := by
  unfold Kernel.fork
  cases hfind : (List.finRange nproc).find? (fun i => (k.proc i).state = .unused) with
  | none =>
    rw [deeds_fork_none result fun i hi => List.find?_eq_none.mp hfind i (List.mem_finRange i)
      (decide_eq_true hi)]
    exact .same fun _ => nofun
  | some i =>
    have hunused : (k.proc i).state = .unused := by simpa using List.find?_some hfind
    have hfree : (k.family.kin i).stage = .free := congrArg ProcState.stage hunused
    dsimp only
    cases result with
    | kallocFails | copyuvmFails =>
      refine (congrArg _ ?_).mp (Family.Moves.misbirth hfree)
      refine Family.ext (fun j => ?_) rfl
      unfold Family.misbirth
      dsimp only
      rw [Family.set_kin]
      unfold family
      dsimp only
      rw [setProc_proc, apply_ite Proc.kin]
      rfl
    | returns =>
      have hlive : (k.family.kin p).stage = .live := congrArg ProcState.stage hrun
      have hdeeds : k.deeds (.fork p .returns) = [.born (k.proc p).pid k.nextpid] :=
        if_pos ⟨i, hunused⟩
      rw [hdeeds]
      refine (congrArg _ ?_).mp (Family.Moves.birth hlive hfree)
      refine Family.ext (fun j => ?_) rfl
      unfold Family.birth
      dsimp only
      rw [Family.set_kin]
      unfold family
      dsimp only
      rw [setProc_proc, apply_ite Proc.kin]
      rfl

theorem moves_wait (hrun : (k.proc p).state = .running) :
    k.family.Moves initproc (k.deeds (.wait p)) (.wait p) (Kernel.wait p k).family := by
  change Family.Moves initproc k.family (match k.zombieChild p with
    | some i => [.reaped (k.proc p).pid (k.proc i).pid]
    | none => []) (.wait p) (Kernel.family (match k.zombieChild p with
    | some i => k.setProc i
      { k.proc i with pid := 0, parent := none, killed := false, state := .unused }
    | none =>
      if (∀ i, (k.proc i).parent ≠ some p) ∨ (k.proc p).killed = true then k
      else Kernel.sleep (.proc p) p k))
  cases hfind : k.zombieChild p with
  | none =>
    dsimp only
    split
    · exact .same fun _ => nofun
    · rw [family_sleep _ hrun]
      exact .same fun _ => nofun
  | some i =>
    have hchild : (k.proc i).parent = some p ∧ (k.proc i).state = .zombie := by
      simpa [zombieChild] using List.find?_some hfind
    have hzombie : (k.family.kin i).stage = .zombie := stage_eq_zombie.mpr hchild.2
    dsimp only
    rw [family_setProc]
    exact .reap hchild.1 hzombie

/-- Every step of the kernel is one of the family, with the deeds that it says. -/
theorem moves_of_next (hnext : next initproc k e = some k') :
    k.family.Moves initproc (k.deeds e) e k'.family := by
  have hlive : ∀ {p}, (k.proc p).state = .running → (k.family.kin p).stage = .live :=
    fun hrun => congrArg ProcState.stage hrun
  cases steps_of_next hnext with
  | tick hfree =>
    rw [show (timer k).family = k.family from family_wakeup1 _ _]
    exact .same fun _ => nofun
  | wakeup hchan =>
    rw [family_wakeup1]
    exact .same fun _ => nofun
  | kill pid =>
    rw [family_kill]
    cases htarget : k.family.target pid with
    | none => exact .missed htarget
    | some i => exact .kill htarget
  | @trapKill p hrun hpc =>
    rw [family_setProc]
    exact .trapKill (hlive hrun)
  | @exit p hrun hpc hinit =>
    rw [family_exit hinit]
    exact .exit (hlive hrun) hinit
  | @schedule p hready =>
    rw [family_setProc_same p (by unfold Proc.kin; rw [hready]; rfl)]
    exact .same fun _ => nofun
  | @yield p hrun hfree =>
    rw [family_setProc_same p (by unfold Proc.kin; rw [hrun]; rfl)]
    exact .same fun _ => nofun
  | sleep hrun hpc hchan =>
    rw [family_sleep _ hrun]
    exact .same fun _ => nofun
  | wait hrun hpc => exact moves_wait hrun
  | fork result hrun hpc => exact moves_fork hrun result
  | @sysSleep p n hrun hpc hmin hmax =>
    rw [show ((k.setProc p { k.proc p with sleeptime := n }).setPc p _).family = k.family from
      family_setProc_same p rfl]
    exact .same fun _ => nofun
  | acquireTickslock hpc hrun hfree | wakeTicks hpc hrun hfree =>
    rw [family_sleepLoop]
    exact .same fun _ => nofun
  | @sleepTicks p c hpc hrun =>
    rw [show family { (Kernel.sleep .ticks p k).setPc p (.asleep c) with tickslock := none } =
      k.family from family_sleep _ hrun]
    exact .same fun _ => nofun

end Kernel

/-! ## Ancestors -/

namespace Family

variable {initproc p i j : Fin nproc} {f f' : Family nproc} {ds ds' : List Deed}
  {e : Kernel.Event nproc}

/-- The first process lives, every other one is the child of an older one that lives, and no pid is
in use twice. -/
structure Sound (initproc : Fin nproc) (f : Family nproc) : Prop where
  first : (f.kin initproc).stage = .live ∧ (f.kin initproc).pid = 1
  parent : ∀ i, i ≠ initproc → (f.kin i).stage ≠ .free → ∃ p, (f.kin i).parent = some p ∧
    (f.kin p).stage = .live ∧ (f.kin p).pid < (f.kin i).pid
  old : ∀ i, i ≠ initproc → (f.kin i).stage ≠ .free → 1 < (f.kin i).pid
  distinct : ∀ i j, (f.kin i).stage ≠ .free → (f.kin j).stage ≠ .free →
    (f.kin i).pid = (f.kin j).pid → i = j
  fresh : ∀ i, (f.kin i).stage ≠ .free → (f.kin i).pid < f.nextpid

/-- Families that differ only in what is left in free slots, and in who was killed. -/
structure Alike (f f' : Family nproc) : Prop where
  stage : ∀ i, (f'.kin i).stage = (f.kin i).stage
  pid : ∀ i, (f.kin i).stage ≠ .free → (f'.kin i).pid = (f.kin i).pid
  parent : ∀ i, (f'.kin i).parent = (f.kin i).parent

theorem alike_kill (f : Family nproc) (i : Fin nproc) : f.Alike (f.kill i) := by
  have hkin : ∀ j, ((f.kill i).kin j).stage = (f.kin j).stage ∧
      ((f.kill i).kin j).pid = (f.kin j).pid ∧ ((f.kill i).kin j).parent = (f.kin j).parent := by
    intro j
    unfold Family.kill
    rw [set_kin]
    by_cases hj : j = i
    · rw [if_pos hj, hj]
      exact ⟨rfl, rfl, rfl⟩
    · rw [if_neg hj]
      exact ⟨rfl, rfl, rfl⟩
  exact ⟨fun j => (hkin j).1, fun j _ => (hkin j).2.1, fun j => (hkin j).2.2⟩

theorem alike_misbirth (hfree : (f.kin i).stage = .free) : f.Alike (f.misbirth i) := by
  have hkin : ∀ j, (f.misbirth i).kin j =
      if j = i then { f.kin i with pid := f.nextpid } else f.kin j := (set_kin f i · _)
  refine ⟨fun j => ?_, fun j hj => ?_, fun j => ?_⟩
  · rw [hkin]
    split
    · rename_i hji
      rw [hji]
    · rfl
  · rw [hkin, if_neg]
    rintro rfl
    exact hj hfree
  · rw [hkin]
    split
    · rename_i hji
      rw [hji]
    · rfl

theorem Sound.of_alike (h : f.Sound initproc) (halike : f.Alike f') (hle : f.nextpid ≤ f'.nextpid) :
    f'.Sound initproc := by
  have hpid := halike.pid
  have hused : ∀ i, (f'.kin i).stage ≠ .free → (f.kin i).stage ≠ .free :=
    fun i hi => halike.stage i ▸ hi
  refine ⟨?_, fun i hinit hi => ?_, fun i hinit hi => ?_, fun i j hi hj heq => ?_, fun i hi => ?_⟩
  · rw [halike.stage, hpid _ (by rw [h.first.1]; decide)]
    exact h.first
  · obtain ⟨p, hp, hlive, hlt⟩ := h.parent i hinit (hused i hi)
    refine ⟨p, (halike.parent i).trans hp, (halike.stage p).trans hlive, ?_⟩
    rw [hpid _ (hused i hi), hpid p (by rw [hlive]; decide)]
    exact hlt
  · rw [hpid _ (hused i hi)]
    exact h.old i hinit (hused i hi)
  · rw [hpid _ (hused i hi), hpid _ (hused j hj)] at heq
    exact h.distinct i j (hused i hi) (hused j hj) heq
  · rw [hpid _ (hused i hi)]
    exact Int.lt_of_lt_of_le (h.fresh i (hused i hi)) hle

/-- While there is a pid left, `nextpid` grows by one. -/
theorem Sound.next_pid (h : f.Sound initproc) (hleft : f.nextpid < 2 ^ 31 - 1) :
    i32 (f.nextpid + 1) = f.nextpid + 1 := by
  have hfirst : 1 < f.nextpid := h.first.2 ▸ h.fresh initproc (by rw [h.first.1]; decide)
  exact i32_of_mem (by omega) (by omega)

theorem die_stage (f : Family nproc) (initproc p j : Fin nproc) :
    ((f.die initproc p).kin j).stage = if j = p then .zombie else (f.kin j).stage := by
  unfold die
  dsimp only
  rw [set_kin]
  split
  · rfl
  · rw [adopt_kin]
    split
    · rfl
    · rfl

theorem die_pid (f : Family nproc) (initproc p j : Fin nproc) :
    ((f.die initproc p).kin j).pid = (f.kin j).pid := by
  have hadopt : ∀ j, ((f.adopt initproc p (List.finRange nproc)).kin j).pid = (f.kin j).pid := by
    intro j
    rw [adopt_kin]
    split
    · rfl
    · rfl
  unfold die
  dsimp only
  rw [set_kin]
  split
  · rename_i hj
    rw [hj]
    exact hadopt p
  · exact hadopt j

theorem die_parent (f : Family nproc) (initproc p j : Fin nproc) :
    ((f.die initproc p).kin j).parent =
      if (f.kin j).parent = some p then some initproc else (f.kin j).parent := by
  have hadopt : ∀ j, ((f.adopt initproc p (List.finRange nproc)).kin j).parent =
      if (f.kin j).parent = some p then some initproc else (f.kin j).parent := by
    intro j
    rw [adopt_kin]
    simp only [List.mem_finRange, true_and]
    split
    · rfl
    · rfl
  unfold die
  dsimp only
  rw [set_kin]
  split
  · rename_i hj
    rw [hj]
    exact hadopt p
  · exact hadopt j

theorem die_used (hlive : (f.kin p).stage = .live) (j : Fin nproc) :
    ((f.die initproc p).kin j).stage ≠ .free ↔ (f.kin j).stage ≠ .free := by
  rw [die_stage]
  split
  · rename_i hj
    rw [hj, hlive]
    decide
  · exact Iff.rfl

theorem Sound.die (h : f.Sound initproc) (hlive : (f.kin p).stage = .live) (hinit : p ≠ initproc) :
    (f.die initproc p).Sound initproc := by
  have hused : ∀ j, ((f.die initproc p).kin j).stage ≠ .free ↔ (f.kin j).stage ≠ .free :=
    die_used hlive
  refine ⟨?_, fun i hi huse => ?_, fun i hi huse => ?_, fun i j hi hj heq => ?_, fun i huse => ?_⟩
  · rw [die_stage, die_pid, if_neg hinit.symm]
    exact h.first
  · rw [die_parent, die_pid]
    obtain ⟨q, hq, hqlive, hlt⟩ := h.parent i hi ((hused i).mp huse)
    by_cases hchild : (f.kin i).parent = some p
    · refine ⟨initproc, if_pos hchild, ?_, ?_⟩
      · rw [die_stage, if_neg hinit.symm]
        exact h.first.1
      · rw [die_pid, h.first.2]
        exact h.old i hi ((hused i).mp huse)
    · refine ⟨q, (if_neg hchild).trans hq, ?_, ?_⟩
      · rw [die_stage, if_neg]
        · exact hqlive
        · rintro rfl
          exact hchild hq
      · rw [die_pid]
        exact hlt
  · rw [die_pid]
    exact h.old i hi ((hused i).mp huse)
  · rw [die_pid, die_pid] at heq
    exact h.distinct i j ((hused i).mp hi) ((hused j).mp hj) heq
  · rw [die_pid]
    exact h.fresh i ((hused i).mp huse)

/-- Nobody is the child of a slot without a living process. -/
theorem Sound.parent_ne (h : f.Sound initproc) (hi : (f.kin i).stage ≠ .live) {q : Fin nproc}
    (hj : j ≠ initproc) (hused : (f.kin j).stage ≠ .free) (hq : (f.kin j).parent = some q) :
    q ≠ i := by
  obtain ⟨p, hp, hlive, -⟩ := h.parent j hj hused
  rw [hq] at hp
  cases hp
  rintro rfl
  exact hi hlive

theorem Sound.reap (h : f.Sound initproc) (hzombie : (f.kin i).stage = .zombie) :
    (f.reap i).Sound initproc := by
  have hkin : ∀ j, (f.reap i).kin j = if j = i then ⟨.free, 0, none, false⟩ else f.kin j :=
    (set_kin f i · _)
  have hdead : (f.kin i).stage ≠ .live := by
    rw [hzombie]
    decide
  have hne : ∀ j, ((f.reap i).kin j).stage ≠ .free → j ≠ i := by
    rintro j hj rfl
    rw [hkin, if_pos rfl] at hj
    exact hj rfl
  have hsame : ∀ j, j ≠ i → (f.reap i).kin j = f.kin j := fun j hj => (hkin j).trans (if_neg hj)
  have hinit : initproc ≠ i := by
    rintro rfl
    exact hdead h.first.1
  refine ⟨?_, fun j hj hused => ?_, fun j hj hused => ?_, fun j l hj hl heq => ?_,
    fun j hused => ?_⟩
  · rw [hsame _ hinit]
    exact h.first
  · have heq := hsame j (hne j hused)
    rw [heq] at hused ⊢
    obtain ⟨p, hp, hlive, hlt⟩ := h.parent j hj hused
    refine ⟨p, hp, ?_⟩
    rw [hsame p (h.parent_ne hdead hj hused hp)]
    exact ⟨hlive, hlt⟩
  · have heq := hsame j (hne j hused)
    rw [heq] at hused ⊢
    exact h.old j hj hused
  · have hj' := hsame j (hne j hj)
    have hl' := hsame l (hne l hl)
    rw [hj'] at hj heq
    rw [hl'] at hl heq
    exact h.distinct j l hj hl heq
  · have heq := hsame j (hne j hused)
    rw [heq] at hused ⊢
    exact h.fresh j hused

theorem birth_kin (f : Family nproc) (p i j : Fin nproc) : (f.birth p i).kin j =
    if j = i then ⟨.live, f.nextpid, some p, (f.kin i).killed⟩ else f.kin j := set_kin f i j _

theorem Sound.birth (h : f.Sound initproc) (hlive : (f.kin p).stage = .live)
    (hfree : (f.kin i).stage = .free) (hleft : f.nextpid < 2 ^ 31 - 1) :
    (f.birth p i).Sound initproc := by
  have hdead : (f.kin i).stage ≠ .live := by
    rw [hfree]
    decide
  have hinit : initproc ≠ i := by
    rintro rfl
    exact hdead h.first.1
  have hp : p ≠ i := by
    rintro rfl
    exact hdead hlive
  have hnew : (f.birth p i).kin i = ⟨.live, f.nextpid, some p, (f.kin i).killed⟩ :=
    (birth_kin f p i i).trans (if_pos rfl)
  have hsame : ∀ j, j ≠ i → (f.birth p i).kin j = f.kin j :=
    fun j hj => (birth_kin f p i j).trans (if_neg hj)
  have hlt : ∀ j, (f.kin j).stage ≠ .free → (f.kin j).pid < f.nextpid := h.fresh
  have hpid : (f.kin p).pid < f.nextpid := hlt p (by rw [hlive]; decide)
  have hone : 1 < f.nextpid := h.first.2 ▸ hlt initproc (by rw [h.first.1]; decide)
  refine ⟨?_, fun j hj hused => ?_, fun j hj hused => ?_, fun j l hj hl heq => ?_,
    fun j hused => ?_⟩
  · rw [hsame _ hinit]
    exact h.first
  · by_cases hji : j = i
    · rw [hji, hnew]
      refine ⟨p, rfl, ?_⟩
      rw [hsame p hp]
      exact ⟨hlive, hpid⟩
    · rw [hsame j hji] at hused ⊢
      obtain ⟨q, hq, hqlive, hqlt⟩ := h.parent j hj hused
      refine ⟨q, hq, ?_⟩
      rw [hsame q (h.parent_ne hdead hj hused hq)]
      exact ⟨hqlive, hqlt⟩
  · by_cases hji : j = i
    · rw [hji, hnew]
      exact hone
    · rw [hsame j hji] at hused ⊢
      exact h.old j hj hused
  · by_cases hji : j = i
    · by_cases hli : l = i
      · rw [hji, hli]
      · rw [hji, hnew, hsame l hli] at heq
        rw [hsame l hli] at hl
        exact absurd heq.symm (Int.ne_of_lt (hlt l hl))
    · rw [hsame j hji] at hj heq
      by_cases hli : l = i
      · rw [hli, hnew] at heq
        exact absurd heq (Int.ne_of_lt (hlt j hj))
      · rw [hsame l hli] at hl heq
        exact h.distinct j l hj hl heq
  · have hnext : (f.birth p i).nextpid = f.nextpid + 1 := h.next_pid hleft
    rw [hnext]
    refine Int.lt_add_one_of_le ?_
    by_cases hji : j = i
    · rw [hji, hnew]
    · rw [hsame j hji] at hused ⊢
      exact Int.le_of_lt (hlt j hused)

theorem Sound.misbirth_le (h : f.Sound initproc) (hleft : f.nextpid < 2 ^ 31 - 1)
    (i : Fin nproc) : f.nextpid ≤ (f.misbirth i).nextpid := by
  have hnext : (f.misbirth i).nextpid = f.nextpid + 1 := h.next_pid hleft
  rw [hnext]
  exact Int.le_add_of_nonneg_right (by decide)

theorem Sound.moves (h : f.Sound initproc) (hmove : f.Moves initproc ds e f')
    (hleft : f.pidLeft e) : f'.Sound initproc := by
  cases hmove with
  | same _ | missed _ => exact h
  | kill _ | trapKill _ => exact h.of_alike (alike_kill f _) (Int.le_refl _)
  | exit hlive hinit => exact h.die hlive hinit
  | reap _ hzombie => exact h.reap hzombie
  | birth hlive hfree => exact h.birth hlive hfree (of_decide_eq_true hleft)
  | misbirth hfree =>
    exact h.of_alike (alike_misbirth hfree) (h.misbirth_le (of_decide_eq_true hleft) _)

/-- Who has an old pid has had it before. -/
theorem Moves.keeps_pid (hmove : f.Moves initproc ds e f') (hused : (f'.kin i).stage ≠ .free)
    (hold : (f'.kin i).pid < f.nextpid) :
    (f.kin i).stage ≠ .free ∧ (f'.kin i).pid = (f.kin i).pid := by
  have halike : ∀ {g : Family nproc}, f.Alike g → (g.kin i).stage ≠ .free →
      (f.kin i).stage ≠ .free ∧ (g.kin i).pid = (f.kin i).pid := by
    intro g h hg
    have hi := h.stage i ▸ hg
    exact ⟨hi, h.pid i hi⟩
  cases hmove with
  | same _ | missed _ => exact ⟨hused, rfl⟩
  | kill _ | trapKill _ => exact halike (alike_kill f _) hused
  | misbirth hfree => exact halike (alike_misbirth hfree) hused
  | exit hlive _ => exact ⟨(die_used hlive i).mp hused, die_pid f initproc _ i⟩
  | @reap p j _ _ =>
    have hkin : (f.reap j).kin i = if i = j then ⟨.free, 0, none, false⟩ else f.kin i :=
      set_kin f j i _
    by_cases hij : i = j
    · rw [hkin, if_pos hij] at hused
      exact absurd rfl hused
    · rw [hkin, if_neg hij] at hused ⊢
      exact ⟨hused, rfl⟩
  | @birth p j _ _ =>
    by_cases hij : i = j
    · rw [birth_kin, if_pos hij] at hold
      exact absurd hold (Int.lt_irrefl _)
    · rw [birth_kin, if_neg hij] at hused ⊢
      exact ⟨hused, rfl⟩

theorem Moves.nextpid_le (hmove : f.Moves initproc ds e f') (h : f.Sound initproc)
    (hleft : f.pidLeft e) : f.nextpid ≤ f'.nextpid := by
  cases hmove with
  | birth _ _ | misbirth _ => exact h.misbirth_le (of_decide_eq_true hleft) initproc
  | same _ | missed _ | kill _ | trapKill _ | exit _ _ | reap _ _ => exact Int.le_refl _

/-- From parent to parent everyone comes to the first process. -/
theorem Sound.descends (h : f.Sound initproc) {i : Fin nproc} (hused : (f.kin i).stage ≠ .free) :
    Relation.ReflTransGen (fun i p => (f.kin i).parent = some p) i initproc := by
  -- parents are older, and nobody is older than the first process
  induction hn : (f.kin i).pid.toNat using Nat.strongRecOn generalizing i with
  | ind n ih =>
    by_cases hi : i = initproc
    · rw [hi]
    · obtain ⟨p, hp, hlive, hlt⟩ := h.parent i hi hused
      have hold := h.old i hi hused
      have hlive' : (f.kin p).stage ≠ .free := by
        rw [hlive]
        decide
      exact .head hp (ih _ (by omega) hlive' rfl)

end Family

namespace Kernel

variable {initproc p i : Fin nproc} {k k' : Kernel nproc} {e : Event nproc}

/-- After `userinit` (`proc.c:127-161`) the first process is the only one. -/
def userinit (initproc : Fin nproc) : Kernel nproc where
  proc i :=
    { state := if i = initproc then .runnable else .unused
      pid := if i = initproc then 1 else 0
      parent := none
      chan := none
      killed := false
      sleeptime := 0 }
  nextpid := 2
  ticks := 0
  tickslock := none
  pc _ := .elsewhere
  wakeups := 0

theorem userinit_used (h : ((userinit initproc).family.kin i).stage ≠ .free) : i = initproc := by
  by_contra hi
  refine h (stage_eq_free.mpr ?_)
  exact if_neg hi

theorem sound_userinit (initproc : Fin nproc) : (userinit initproc).family.Sound initproc := by
  have hstage : ((userinit initproc).family.kin initproc).stage = .live :=
    congrArg ProcState.stage (if_pos rfl)
  have hpid : ((userinit initproc).family.kin initproc).pid = 1 := if_pos rfl
  refine ⟨⟨hstage, hpid⟩, fun i hi hused => absurd (userinit_used hused) hi,
    fun i hi hused => absurd (userinit_used hused) hi, fun i j hi hj _ => ?_, fun i hused => ?_⟩
  · rw [userinit_used hi, userinit_used hj]
  · rw [userinit_used hused, hpid]
    exact (by decide : (1 : Int) < 2)

/-- As long as `nextpid` has not come to its end each process but the first one has a living parent
that is older, from parent to parent everyone comes to the first process, and no two processes have
the same pid. -/
theorem process_tree {es : List (Event nproc)}
    (run : Run (guarded (fun k e => k.family.pidLeft e) (stepOf (next initproc)))
      (userinit initproc) es k) :
    (∀ i, i ≠ initproc → (k.proc i).state ≠ .unused → ∃ p, (k.proc i).parent = some p ∧
      (k.proc p).state.stage = .live ∧ (k.proc p).pid < (k.proc i).pid) ∧
    (∀ i, (k.proc i).state ≠ .unused →
      Relation.ReflTransGen (fun i p => (k.proc i).parent = some p) i initproc) ∧
    ∀ i j, (k.proc i).state ≠ .unused → (k.proc j).state ≠ .unused →
      (k.proc i).pid = (k.proc j).pid → i = j := by
  have hsound : k.family.Sound initproc := run.invariant (fun k => k.family.Sound initproc)
    (sound_userinit initproc) fun _ _ _ h hstep => h.moves (moves_of_next hstep.2) hstep.1
  have hused : ∀ i, (k.proc i).state ≠ .unused → (k.family.kin i).stage ≠ .free :=
    fun i hi hfree => hi (stage_eq_free.mp hfree)
  exact ⟨fun i hi h => hsound.parent i hi (hused i h), fun i h => hsound.descends (hused i h),
    fun i j hi hj heq => hsound.distinct i j (hused i hi) (hused j hj) heq⟩

/-- A child whose parent has exited is a child of the first process. -/
def orphaned (first child : Fin nproc) : List (Event nproc) :=
  [.schedule first, .fork first .returns, .schedule child, .fork child .returns, .exit child]

theorem process_tree_orphaned : ∃ k,
    Run (guarded (fun k e => k.family.pidLeft e) (stepOf (next 0))) (userinit 0)
      (orphaned (0 : Fin 4) 1) k ∧
    (∀ i, i ≠ 0 → (k.proc i).state ≠ .unused → ∃ p, (k.proc i).parent = some p ∧
      (k.proc p).state.stage = .live ∧ (k.proc p).pid < (k.proc i).pid) ∧
    (∀ i, (k.proc i).state ≠ .unused →
      Relation.ReflTransGen (fun i p => (k.proc i).parent = some p) i 0) ∧
    ∀ i j, (k.proc i).state ≠ .unused → (k.proc j).state ≠ .unused →
      (k.proc i).pid = (k.proc j).pid → i = j := by
  obtain ⟨k, hk⟩ := Option.isSome_iff_exists.mp
    (show (runOf (fun k e => if k.family.pidLeft e then next 0 k e else none) (userinit 0)
      (orphaned (0 : Fin 4) 1)).isSome = true by decide +kernel)
  exact ⟨k, run_guarded_of_runOf hk, process_tree (run_guarded_of_runOf hk)⟩

end Kernel

end Cs537.P4
