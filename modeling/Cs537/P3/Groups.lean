import Cs537.Lib.Run
import Mathlib.Data.List.Nodup

/-!
# The process groups of a pipeline

`pipe_dealer` forks a child for each command. A child that finds `pgid` to be -1 takes its own pid
for the group and calls `setpgid`; but `pgid` is a variable that each child has a copy of, and the
shell never changes its own. So every child finds -1 and ends up in a group of its own, in whatever
order the shell and the children run.
-/

namespace Cs537.P3

open Cs537.Lib

/-- What a child of `pipe_dealer` has done: nothing, chosen its group (`wsh.c:159-161`), or called
`setpgid` (`wsh.c:162`). -/
inductive ChildPc where
  | forked
  | chosen
  | grouped
  deriving DecidableEq

/-- A child, with its copy of `pgid` and the process group it is in. -/
structure PipeChild where
  pid : Int
  pgid : Int
  pgrp : Int
  pc : ChildPc
  deriving DecidableEq

/-- The loop of `pipe_dealer` (`wsh.c:152-180`): the variables of the shell, and the children so
far. -/
structure PipeDealer where
  i : Nat
  pgid : Int
  children : List PipeChild
  deriving DecidableEq

/-- The shell forks, and `fork` returns a pid; or the child of command `k` goes on. -/
inductive PipeEvent where
  | fork (pid : Int)
  | choose (k : Nat)
  | setpgid (k : Nat)

namespace PipeDealer

/-- The shell in front of the loop (`wsh.c:128`). -/
def start : PipeDealer := ⟨0, -1, []⟩

/-- `fork` for a command (`wsh.c:153`). The child has a copy of `pgid` and is in the group of the
shell; no process or group has its pid. -/
def fork (numCmd : Nat) (shellPgid : Int) (s : PipeDealer) (pid : Int) : Option PipeDealer :=
  if s.i < numCmd ∧ 1 < pid ∧ pid ≠ shellPgid ∧ ∀ c ∈ s.children, c.pid ≠ pid then
    some { s with i := s.i + 1, children := s.children ++ [⟨pid, s.pgid, shellPgid, .forked⟩] }
  else none

end PipeDealer

/-- `if (pgid == -1) pgid = getpid();` in a child. -/
def PipeChild.choose (c : PipeChild) : PipeChild :=
  { c with pgid := if c.pgid = -1 then c.pid else c.pgid, pc := .chosen }

/-- `setpgid(getpid(), pgid)`, which fails for a group of another process that does not exist. -/
def PipeChild.setpgid (c : PipeChild) (groups : List Int) : PipeChild :=
  { c with pgrp := if c.pgid = c.pid ∨ c.pgid ∈ groups then c.pgid else c.pgrp, pc := .grouped }

namespace PipeDealer

/-- The groups that exist. -/
def groups (shellPgid : Int) (s : PipeDealer) : List Int :=
  shellPgid :: s.children.map PipeChild.pgrp

/-- The child of command `k` does what its place allows. -/
def act (s : PipeDealer) (k : Nat) (pc : ChildPc) (f : PipeChild → PipeChild) : Option PipeDealer :=
  match s.children[k]? with
  | none => none
  | some c => if c.pc = pc then some { s with children := s.children.set k (f c) } else none

/-- The state after an event. -/
def step (numCmd : Nat) (shellPgid : Int) (s : PipeDealer) : PipeEvent → Option PipeDealer
  | .fork pid => s.fork numCmd shellPgid pid
  | .choose k => s.act k .forked PipeChild.choose
  | .setpgid k => s.act k .chosen (PipeChild.setpgid · (s.groups shellPgid))

/-- All children have been forked and have called `setpgid`. -/
def AllGrouped (numCmd : Nat) (s : PipeDealer) : Prop :=
  s.i = numCmd ∧ ∀ c ∈ s.children, c.pc = .grouped

/-- The children are in one group, that of the first command's process. -/
def OneGroup (s : PipeDealer) : Prop :=
  ∃ first, s.children.head? = some first ∧ ∀ c ∈ s.children, c.pgrp = first.pid

/-! ## The invariant -/

end PipeDealer

/-- A child that has not chosen finds -1; then its group is its own. -/
def PipeChild.Own (c : PipeChild) : Prop :=
  match c.pc with
  | .forked => c.pgid = -1
  | .chosen => c.pgid = c.pid
  | .grouped => c.pgrp = c.pid

namespace PipeDealer

/-- The shell's `pgid` stays -1, and its children have pids and groups of their own. -/
structure Inv (s : PipeDealer) : Prop where
  pgid : s.pgid = -1
  count : s.children.length = s.i
  distinct : (s.children.map PipeChild.pid).Nodup
  own : ∀ c ∈ s.children, c.Own

variable {numCmd : Nat} {shellPgid : Int} {s t : PipeDealer}

theorem Inv.fork (h : s.Inv) {pid : Int} (hrun : s.fork numCmd shellPgid pid = some t) : t.Inv := by
  obtain ⟨⟨-, -, -, hfresh⟩, hrun⟩ := Option.ite_none_right_eq_some.mp hrun
  obtain rfl := Option.some.inj hrun
  refine ⟨h.pgid, by simp [h.count], ?_, ?_⟩
  · simp only [List.map_append, List.map_singleton]
    refine List.nodup_append.mpr ⟨h.distinct, List.nodup_singleton pid, ?_⟩
    intro a ha b hb
    obtain ⟨c, hc, rfl⟩ := List.mem_map.mp ha
    rw [List.mem_singleton.mp hb]
    exact hfresh c hc
  · intro c hc
    rcases List.mem_append.mp hc with hc | hc
    · exact h.own c hc
    · rw [List.mem_singleton.mp hc]
      exact h.pgid

/-- A step of a child. -/
theorem Inv.act (h : s.Inv) {k : Nat} {pc : ChildPc} {f : PipeChild → PipeChild}
    (hpid : ∀ c, (f c).pid = c.pid) (hown : ∀ c, c.pc = pc → c.Own → (f c).Own)
    (hrun : s.act k pc f = some t) : t.Inv := by
  unfold PipeDealer.act at hrun
  cases hk : s.children[k]? with
  | none =>
    rw [hk] at hrun
    cases hrun
  | some c =>
    simp only [hk] at hrun
    obtain ⟨hpc, hrun⟩ := Option.ite_none_right_eq_some.mp hrun
    obtain rfl := Option.some.inj hrun
    have hmem : c ∈ s.children := List.mem_of_getElem? hk
    refine ⟨h.pgid, by simp [h.count], ?_, ?_⟩
    · obtain ⟨hlt, hget⟩ := List.getElem?_eq_some_iff.mp hk
      have hsame := List.set_getElem_self
        (by simpa using hlt : k < (s.children.map PipeChild.pid).length)
      rw [List.getElem_map, hget] at hsame
      simp only [List.map_set, hpid, hsame]
      exact h.distinct
    · intro d hd
      rcases List.mem_or_eq_of_mem_set hd with hd | rfl
      · exact h.own d hd
      · exact hown c hpc (h.own c hmem)

/-- Every step keeps the groups apart. -/
theorem Inv.step (h : s.Inv) {e : PipeEvent} (hstep : s.step numCmd shellPgid e = some t) :
    t.Inv := by
  cases e with
  | fork pid => exact h.fork hstep
  | choose k =>
    refine h.act (f := PipeChild.choose) (fun _ => rfl) ?_ hstep
    intro c hpc hown
    rw [PipeChild.Own, hpc] at hown
    exact if_pos hown
  | setpgid k =>
    refine h.act (f := (PipeChild.setpgid · (s.groups shellPgid))) (fun _ => rfl) ?_ hstep
    intro c hpc hown
    rw [PipeChild.Own, hpc] at hown
    exact (if_pos (.inl hown)).trans hown

theorem start_inv : start.Inv :=
  ⟨rfl, rfl, List.nodup_nil, by simp [start]⟩

theorem inv_of_run {es : List PipeEvent} (run : Run (stepOf (step numCmd shellPgid)) start es s) :
    s.Inv :=
  run.invariant Inv start_inv fun _ _ _ h hstep => h.step hstep

/-- Two children that have called `setpgid` are in different groups. -/
theorem Inv.groups_distinct (h : s.Inv) (hall : ∀ c ∈ s.children, c.pc = .grouped) :
    (s.children.map PipeChild.pgrp).Nodup := by
  have hsame : s.children.map PipeChild.pgrp = s.children.map PipeChild.pid := by
    apply List.map_congr_left
    intro c hc
    have hown := h.own c hc
    rwa [PipeChild.Own, hall c hc] at hown
  rw [hsame]
  exact h.distinct

/-- In whatever order the shell and the children of a pipeline run, the children do not end up in
one group. -/
theorem pipeline_not_oneGroup (hpipe : 2 ≤ numCmd) {es : List PipeEvent}
    (run : Run (stepOf (step numCmd shellPgid)) start es s) (hall : s.AllGrouped numCmd) :
    ¬ s.OneGroup := by
  rintro ⟨first, hfirst, hone⟩
  have hinv := inv_of_run run
  obtain ⟨hi, hgrouped⟩ := hall
  have hcount := hinv.count
  have hgroups := hinv.groups_distinct hgrouped
  obtain ⟨rest, hchildren⟩ := List.head?_eq_some_iff.mp hfirst
  rw [hchildren] at hcount hone hgroups
  cases rest with
  | nil =>
    rw [List.length_singleton] at hcount
    omega
  | cons second rest =>
    rw [List.map_cons, List.map_cons, hone first (by simp), hone second (by simp)] at hgroups
    simp at hgroups

/-- The child that was forked last goes on. -/
theorem act_last (i : Nat) (pgid : Int) (children : List PipeChild) (c : PipeChild)
    (f : PipeChild → PipeChild) :
    act ⟨i, pgid, children ++ [c]⟩ children.length c.pc f = some ⟨i, pgid, children ++ [f c]⟩ := by
  simp [act]

/-- For every number of commands there are runs in which all children call `setpgid`. -/
theorem exists_run_allGrouped (numCmd : Nat) (shellPgid : Int) : ∃ es s,
    Run (stepOf (step numCmd shellPgid)) start es s ∧ s.AllGrouped numCmd := by
  have hforked : ∀ k ≤ numCmd, ∃ es s, Run (stepOf (step numCmd shellPgid)) start es s ∧ s.i = k ∧
      ∀ c ∈ s.children, c.pc = .grouped ∧ c.pid < max shellPgid 1 + 1 + k := by
    intro k
    induction k with
    | zero => exact fun _ => ⟨[], start, .nil, rfl, by simp [start]⟩
    | succ k ih =>
      intro hk
      obtain ⟨es, ⟨i, pgid, children⟩, run, hi, hchildren⟩ := ih (by omega)
      obtain rfl : i = k := hi
      have hcount : children.length = i := (inv_of_run run).count
      obtain ⟨c, hc⟩ : ∃ c : PipeChild,
          c = ⟨max shellPgid 1 + 1 + i, pgid, shellPgid, .forked⟩ := ⟨_, rfl⟩
      have hfork : stepOf (step numCmd shellPgid) ⟨i, pgid, children⟩
          (.fork (max shellPgid 1 + 1 + i)) ⟨i + 1, pgid, children ++ [c]⟩ := by
        rw [hc]
        refine if_pos ⟨hk, by omega, by omega, ?_⟩
        intro d hd hpid
        have hlt := (hchildren d hd).2
        omega
      have hchoose : stepOf (step numCmd shellPgid) ⟨i + 1, pgid, children ++ [c]⟩ (.choose i)
          ⟨i + 1, pgid, children ++ [c.choose]⟩ := by
        have hact := act_last (i + 1) pgid children c PipeChild.choose
        rw [hcount, hc] at hact
        rw [hc]
        exact hact
      obtain ⟨c', hc'⟩ : ∃ c', c' = c.choose.setpgid
          (groups shellPgid ⟨i + 1, pgid, children ++ [c.choose]⟩) := ⟨_, rfl⟩
      have hsetpgid : stepOf (step numCmd shellPgid) ⟨i + 1, pgid, children ++ [c.choose]⟩
          (.setpgid i) ⟨i + 1, pgid, children ++ [c']⟩ := by
        have hact := act_last (i + 1) pgid children c.choose
          (PipeChild.setpgid · (groups shellPgid ⟨i + 1, pgid, children ++ [c.choose]⟩))
        rw [hcount] at hact
        rw [hc']
        exact hact
      refine ⟨_, _, ((run.snoc hfork).snoc hchoose).snoc hsetpgid, rfl, ?_⟩
      intro d hd
      rcases List.mem_append.mp hd with hd | hd
      · obtain ⟨hpc, hlt⟩ := hchildren d hd
        exact ⟨hpc, by omega⟩
      · rw [List.mem_singleton.mp hd, hc', hc]
        exact ⟨rfl, show max shellPgid 1 + 1 + (i : Int) < _ by omega⟩
  obtain ⟨es, s, run, hi, hchildren⟩ := hforked numCmd (Nat.le_refl numCmd)
  exact ⟨es, s, run, hi, fun c hc => (hchildren c hc).1⟩

/-- Two commands: the first child goes on before the second one is forked. -/
def twoCommands : List PipeEvent :=
  [.fork 10, .choose 0, .setpgid 0, .fork 11, .choose 1, .setpgid 1]

/-- The two children in the end. -/
def twoChildren : PipeDealer := ⟨2, -1, [⟨10, 10, 10, .grouped⟩, ⟨11, 11, 11, .grouped⟩]⟩

theorem run_twoCommands : Run (stepOf (step 2 5)) start twoCommands twoChildren :=
  run_of_runOf (by decide)

/-- The theorem at these commands. -/
theorem pipeline_not_oneGroup_two : ¬ twoChildren.OneGroup :=
  pipeline_not_oneGroup (by decide) run_twoCommands ⟨rfl, by decide⟩

/-- Both have called `setpgid`, and their groups are 10 and 11. -/
theorem two_groups : Run (stepOf (step 2 5)) start twoCommands twoChildren ∧
    twoChildren.AllGrouped 2 ∧ twoChildren.children.map PipeChild.pgrp = [10, 11] ∧
    ¬ twoChildren.OneGroup := by
  refine ⟨run_twoCommands, ⟨rfl, by decide⟩, rfl, ?_⟩
  rintro ⟨first, hfirst, hone⟩
  obtain rfl : ⟨10, 10, 10, .grouped⟩ = first := Option.some.inj hfirst
  exact absurd (hone ⟨11, 11, 11, .grouped⟩ (by decide)) (by decide)

end PipeDealer

end Cs537.P3
