import Mathlib.Logic.Function.Basic
import Cs537.Lib.RingBuffer
import Cs537.Lib.Monitor

/-!
# Pipes

The pipe of the kernel and the processes that use it. A process in `pipewrite` or `piperead` runs,
with the lock, until it returns or sleeps; between two such stretches anything may happen, so these
stretches are the steps. Processes hold references to the two ends, and the last one to go calls
`pipeclose`. `kill` does not take the lock of the pipe: it can hit a process between its test of
`killed` and `sleep`, and the process then sleeps although it is killed. That case is left out, a
call of `kill` falls between two stretches.
-/

namespace Cs537.P5

open Cs537.Lib

/-! ## The pipe -/

def pipesize : UInt32 := 512

structure Pipe where
  data : Nat → UInt8
  nread : UInt32
  nwrite : UInt32
  readopen : Bool
  writeopen : Bool

/-- How a stretch of `pipewrite` ends, with the bytes it has not stored. -/
inductive Writing
  | wrote
  | failed (left : List UInt8)
  | waits (left : List UInt8)

namespace Writing

def left : Writing → List UInt8
  | wrote => []
  | failed left | waits left => left

end Writing

/-- How a stretch of `piperead` ends. -/
inductive Reading
  | received (bytes : List UInt8)
  | failed
  | waits

namespace Pipe

/-- `pipealloc` -/
def pipealloc (data : Nat → UInt8) : Pipe := ⟨data, 0, 0, true, true⟩

/-- `p->data[p->nwrite++ % PIPESIZE] = b` -/
def put (p : Pipe) (b : UInt8) : Pipe :=
  { p with data := Function.update p.data (p.nwrite % pipesize).toNat b, nwrite := p.nwrite + 1 }

/-- The loop of `pipewrite` over the bytes that are left, until it returns or sleeps. -/
def pipewrite (killed : Bool) : Pipe → List UInt8 → Pipe × Writing
  | p, [] => (p, .wrote)
  | p, b :: left =>
    if p.nwrite = p.nread + pipesize then
      if p.readopen = false ∨ killed then (p, .failed (b :: left)) else (p, .waits (b :: left))
    else pipewrite killed (p.put b) left

/-- The copying loop of `piperead`. -/
def copyout : Pipe → Nat → Pipe × List UInt8
  | p, 0 => (p, [])
  | p, n + 1 =>
    if p.nread = p.nwrite then (p, [])
    else
      let rest := copyout { p with nread := p.nread + 1 } n
      (rest.1, p.data (p.nread % pipesize).toNat :: rest.2)

/-- `piperead`, until it returns or sleeps. -/
def piperead (killed : Bool) (p : Pipe) (n : Nat) : Pipe × Reading :=
  if p.nread = p.nwrite ∧ p.writeopen then
    if killed then (p, .failed) else (p, .waits)
  else
    let copied := p.copyout n
    (copied.1, .received copied.2)

/-- The flags after `pipeclose`. -/
def pipeclose (p : Pipe) (writable : Bool) : Pipe :=
  if writable then { p with writeopen := false } else { p with readopen := false }

/-! ### The bytes in a pipe -/

/-- The pipe holds these bytes, the first to be read first. -/
def Holds (p : Pipe) (l : List UInt8) : Prop :=
  Lib.Holds 512 (2 ^ 32) p.data p.nread.toNat p.nwrite.toNat l

variable {p p' : Pipe} {l : List UInt8} {killed : Bool}

theorem holds_pipealloc (data : Nat → UInt8) : (pipealloc data).Holds [] :=
  Lib.Holds.empty (show 0 < 2 ^ 32 by decide)

namespace Holds

theorem length_le (h : p.Holds l) : l.length ≤ 512 := Lib.Holds.length_le h

theorem empty_iff (h : p.Holds l) : p.nread = p.nwrite ↔ l = [] := by
  rw [← UInt32.toNat_inj]
  exact Lib.Holds.eq_nil_iff h (by decide)

theorem full_iff (h : p.Holds l) : p.nwrite = p.nread + pipesize ↔ l.length = 512 := by
  rw [← UInt32.toNat_inj, UInt32.toNat_add]
  exact Lib.Holds.length_eq_iff h (by decide)

theorem put (h : p.Holds l) (hroom : l.length < 512) (b : UInt8) : (p.put b).Holds (l ++ [b]) := by
  have hput := Lib.Holds.put h (by decide) hroom b
  unfold Holds Pipe.put
  dsimp only
  rw [UInt32.toNat_mod, UInt32.toNat_add]
  exact hput

theorem take {b : UInt8} (h : p.Holds (b :: l)) :
    p.data (p.nread % pipesize).toNat = b ∧ { p with nread := p.nread + 1 : Pipe }.Holds l := by
  obtain ⟨hfirst, hrest⟩ := Lib.Holds.take h
  refine ⟨?_, ?_⟩
  · rw [UInt32.toNat_mod]
    exact hfirst
  · unfold Holds
    dsimp only
    rw [UInt32.toNat_add]
    exact hrest

end Holds

/-- What a stretch of `pipewrite` does. -/
structure Wrote (killed : Bool) (p p' : Pipe) (l bytes : List UInt8) (w : Writing)
    (stored : List UInt8) : Prop where
  split : bytes = stored ++ w.left
  holds : p'.Holds (l ++ stored)
  readopen : p'.readopen = p.readopen
  writeopen : p'.writeopen = p.writeopen
  failed : ∀ left, w = .failed left →
    left ≠ [] ∧ (l ++ stored).length = 512 ∧ (p.readopen = false ∨ killed = true)
  waits : ∀ left, w = .waits left →
    left ≠ [] ∧ (l ++ stored).length = 512 ∧ p.readopen = true ∧ killed = false

theorem wrote_pipewrite (killed : Bool) (bytes : List UInt8) : ∀ (p : Pipe) {l : List UInt8},
    p.Holds l → ∃ stored, Wrote killed p (p.pipewrite killed bytes).1 l bytes
      (p.pipewrite killed bytes).2 stored := by
  induction bytes with
  | nil =>
    intro p l h
    refine ⟨[], rfl, ?_, rfl, rfl, ?_, ?_⟩
    · rw [List.append_nil]
      exact h
    · intro left hleft
      cases hleft
    · intro left hleft
      cases hleft
  | cons b left ih =>
    intro p l h
    unfold pipewrite
    by_cases hfull : p.nwrite = p.nread + pipesize
    · rw [if_pos hfull]
      have hlength := h.full_iff.mp hfull
      have hlength' : (l ++ []).length = 512 := by rwa [List.append_nil]
      have hholds : p.Holds (l ++ []) := by rwa [List.append_nil]
      by_cases hstop : p.readopen = false ∨ killed = true
      · rw [if_pos hstop]
        refine ⟨[], rfl, hholds, rfl, rfl, ?_, ?_⟩
        · rintro _ ⟨⟩
          exact ⟨List.cons_ne_nil _ _, hlength', hstop⟩
        · intro _ hwaits
          cases hwaits
      · rw [if_neg hstop]
        refine ⟨[], rfl, hholds, rfl, rfl, ?_, ?_⟩
        · intro _ hfailed
          cases hfailed
        · rintro _ ⟨⟩
          rw [not_or, Bool.not_eq_false, Bool.not_eq_true] at hstop
          exact ⟨List.cons_ne_nil _ _, hlength', hstop.1, hstop.2⟩
    · rw [if_neg hfull]
      have hroom : l.length < 512 :=
        Nat.lt_of_le_of_ne h.length_le fun hlength => hfull (h.full_iff.mpr hlength)
      obtain ⟨stored, hstored⟩ := ih (p.put b) (h.put hroom b)
      have hlist : l ++ [b] ++ stored = l ++ b :: stored := List.append_cons l b stored |>.symm
      refine ⟨b :: stored, ?_, ?_, hstored.readopen, hstored.writeopen, ?_, ?_⟩
      · exact congrArg (b :: ·) hstored.split
      · rw [← hlist]
        exact hstored.holds
      · rw [← hlist]
        exact hstored.failed
      · rw [← hlist]
        exact hstored.waits

/-- What the copying loop does. -/
theorem copyout_eq (n : Nat) : ∀ (p : Pipe) {l : List UInt8}, p.Holds l →
    (p.copyout n).2 = l.take n ∧ (p.copyout n).1.Holds (l.drop n) ∧
      (p.copyout n).1.readopen = p.readopen ∧ (p.copyout n).1.writeopen = p.writeopen := by
  induction n with
  | zero =>
    intro p l h
    exact ⟨rfl, h, rfl, rfl⟩
  | succ n ih =>
    intro p l h
    unfold copyout
    by_cases hempty : p.nread = p.nwrite
    · rw [if_pos hempty]
      have hl := h.empty_iff.mp hempty
      subst hl
      exact ⟨rfl, h, rfl, rfl⟩
    · rw [if_neg hempty]
      cases l with
      | nil => exact absurd (h.empty_iff.mpr rfl) hempty
      | cons b l =>
        obtain ⟨hb, hrest⟩ := h.take
        obtain ⟨hbytes, hholds, hopen⟩ := ih _ hrest
        refine ⟨?_, hholds, hopen⟩
        dsimp only
        rw [hb, hbytes, List.take_succ_cons]

end Pipe

/-! ## The processes -/

/-- Where a process is in a call: how much of its bytes are stored, or how many it asks for. -/
inductive PipeCall
  | write (stored left : List UInt8)
  | read (n : Nat)

/-- The channels `&p->nread` and `&p->nwrite`. -/
inductive PipeChannel
  | nread
  | nwrite
deriving DecidableEq

/-- What a call returned, with the bytes it stored or copied. -/
inductive PipeOutcome
  | wrote (bytes : List UInt8)
  | writeFailed (stored left : List UInt8)
  | received (n : Nat) (bytes : List UInt8)
  | readFailed
deriving DecidableEq

/-- A pipe, who holds its ends open, the processes in a call, and the history of the stream. -/
structure PipeSystem where
  pipe : Pipe
  readers : List Nat
  writers : List Nat
  call : Nat → Option PipeCall
  asleep : Nat → Option PipeChannel
  killed : Nat → Bool
  stored : List (Nat × UInt8)
  outcomes : List (Nat × PipeOutcome)

namespace PipeSystem

/-- `wakeup` -/
def wakeup (asleep : Nat → Option PipeChannel) (c : PipeChannel) : Nat → Option PipeChannel :=
  fun p => if asleep p = some c then none else asleep p

/-- The call of a process ends. -/
def finish (s : PipeSystem) (p : Nat) (o : PipeOutcome) : PipeSystem :=
  { s with call := Function.update s.call p none, outcomes := s.outcomes ++ [(p, o)] }

/-- `sleep` -/
def sleep (s : PipeSystem) (p : Nat) (c : PipeChannel) (call : PipeCall) : PipeSystem :=
  { s with
    call := Function.update s.call p (some call)
    asleep := Function.update s.asleep p (some c) }

/-- A process in `pipewrite` runs. -/
def runWrite (s : PipeSystem) (p : Nat) (stored left : List UInt8) : PipeSystem :=
  let w := s.pipe.pipewrite (s.killed p) left
  let now := left.take (left.length - w.2.left.length)
  let s' := { s with pipe := w.1, stored := s.stored ++ now.map (p, ·) }
  match w.2 with
  | .wrote => { s' with asleep := wakeup s.asleep .nread }.finish p (.wrote (stored ++ now))
  -- nobody is woken here
  | .failed left' => s'.finish p (.writeFailed (stored ++ now) left')
  | .waits left' =>
    { s' with asleep := wakeup s.asleep .nread }.sleep p .nwrite (.write (stored ++ now) left')

/-- A process in `piperead` runs. -/
def runRead (s : PipeSystem) (p n : Nat) : PipeSystem :=
  let r := s.pipe.piperead (s.killed p) n
  match r.2 with
  | .received bytes =>
    { s with pipe := r.1, asleep := wakeup s.asleep .nwrite }.finish p (.received n bytes)
  | .failed => s.finish p .readFailed
  | .waits => s.sleep p .nread (.read n)

/-- `pipeclose` -/
def pipeclose (s : PipeSystem) (writable : Bool) : PipeSystem :=
  { s with
    pipe := s.pipe.pipeclose writable
    asleep := wakeup s.asleep (if writable then .nread else .nwrite) }

/-- `fileclose`, which calls `pipeclose` for the last reference. -/
def fileclose (s : PipeSystem) (p : Nat) : Bool → PipeSystem
  | true =>
    let s' := { s with writers := s.writers.erase p }
    if s'.writers = [] then s'.pipeclose true else s'
  | false =>
    let s' := { s with readers := s.readers.erase p }
    if s'.readers = [] then s'.pipeclose false else s'

inductive Event
  | write (p : Nat) (bytes : List UInt8)
  | read (p n : Nat)
  | run (p : Nat)
  | kill (p : Nat)
  /-- `filedup`, for a process that `p` forks or for `p` itself. -/
  | share (p q : Nat) (writable : Bool)
  | close (p : Nat) (writable : Bool)

def next (s : PipeSystem) : Event → Option PipeSystem
  | .write p bytes =>
    if (s.call p).isNone ∧ s.killed p = false ∧ p ∈ s.writers then
      some { s with call := Function.update s.call p (some (.write [] bytes)) }
    else none
  | .read p n =>
    if (s.call p).isNone ∧ s.killed p = false ∧ p ∈ s.readers then
      some { s with call := Function.update s.call p (some (.read n)) }
    else none
  | .run p =>
    match s.asleep p, s.call p with
    | none, some (.write stored left) => some (s.runWrite p stored left)
    | none, some (.read n) => some (s.runRead p n)
    | _, _ => none
  | .kill p =>
    some { s with
      killed := Function.update s.killed p true, asleep := Function.update s.asleep p none }
  | .share p q true =>
    if p ∈ s.writers then some { s with writers := q :: s.writers } else none
  | .share p q false =>
    if p ∈ s.readers then some { s with readers := q :: s.readers } else none
  | .close p writable =>
    if (s.call p).isNone ∧ p ∈ (if writable then s.writers else s.readers) then
      some (s.fileclose p writable)
    else none

/-- `sys_pipe` has returned in process `p`. -/
def opened (data : Nat → UInt8) (p : Nat) : PipeSystem where
  pipe := .pipealloc data
  readers := [p]
  writers := [p]
  call _ := none
  asleep _ := none
  killed _ := false
  stored := []
  outcomes := []

end PipeSystem

end Cs537.P5
