import Cs537.Lib.CInt
import Cs537.Lib.Redo
import Cs537.P5.Disk

/-!
# The log of the file system

`log.c`. A system call on files is an operation between `begin_op` and `end_op`; what it changes
stays in the buffer cache until the last operation ends and commits. Operations of any number of
processes interleave. `commit` and the recovery at boot are taken apart into their writes to the
disk, and the machine may crash between any two of them. A process that changes a block and calls
`log_write` holds the buffer's lock all the while, so that is one step; so is what is done with
`log.lock` held. A call that panics is not a step.
-/

namespace Cs537.P5

open Cs537.Lib

/-- `MAXOPBLOCKS` (`param.h:10`). -/
def maxOpBlocks : Nat := 10

/-- `LOGSIZE` (`param.h:11`). -/
def logSize : Nat := maxOpBlocks * 3

namespace Block

/-- The loop of `write_head` (`log.c:109-111`). -/
def putEntries (b : Block) (i : Nat) : List Nat → Block
  | [] => b
  | x :: lh => putEntries (b.setWord i (UInt32.ofNat x)) (i + 1) lh

/-- The header that `write_head` puts into the block (`log.c:108-111`). -/
def putHead (b : Block) (lh : List Nat) : Block :=
  putEntries (b.setWord 0 (UInt32.ofNat lh.length)) 1 lh

/-- The header that `read_head` finds in the block (`log.c:90-93`); `n` is an `int`. -/
def head (b : Block) : List Nat :=
  (List.range (i32 (b.word 0).toNat).toNat).map fun i => (b.word (i + 1)).toNat

end Block

/-- Where the process that commits, or recovers at boot, has got to. -/
inductive LogPc where
  /-- Nobody commits. -/
  | quiet
  /-- In `write_log`. -/
  | writing (tail : Nat)
  /-- Before the first `write_head` of `commit`. -/
  | heading
  /-- In `install_trans`. -/
  | installing (tail : Nat) (recovering : Bool)
  /-- Before the last `write_head`. -/
  | erasing (recovering : Bool)
  /-- `commit` has returned to `end_op`. -/
  | closing
  /-- In `initlog`, before `read_head`. -/
  | booting
  deriving DecidableEq

/-- The recovery at boot is not yet over. -/
def LogPc.recovering : LogPc → Bool
  | .booting | .installing _ true | .erasing true => true
  | _ => false

/-- The disk, the contents that `bread` finds for each block, the `B_DIRTY` flags and `struct log`.
`ops` is a history variable: the operations going on, with the blocks that each has logged. -/
structure LogSystem where
  disk : Nat → Block
  buf : Nat → Block
  dirty : Nat → Bool
  lh : List Nat
  outstanding : Nat
  committing : Bool
  pc : LogPc
  ops : List (Nat × List Nat)
  asleep : Nat → Bool

namespace LogSystem

/-- The machine after a boot, in `initlog`. -/
def boot (disk : Nat → Block) : LogSystem where
  disk := disk
  buf := disk
  dirty := fun _ => false
  lh := []
  outstanding := 0
  committing := false
  pc := .booting
  ops := []
  asleep := fun _ => false

/-- `bwrite` of a buffer with new data (`bio.c:109-115`); `iderw` clears `B_DIRTY`. -/
def bwrite (s : LogSystem) (b : Nat) (data : Block) : LogSystem :=
  { s with
    disk := Function.update s.disk b data
    buf := Function.update s.buf b data
    dirty := Function.update s.dirty b false }

/-- The tests of `begin_op` (`log.c:130-132`). -/
def blocked (s : LogSystem) : Bool :=
  s.committing || logSize < s.lh.length + (s.outstanding + 1) * maxOpBlocks

/-- A round of the loop of `begin_op` (`log.c:129-139`). -/
def beginOp (s : LogSystem) (p : Nat) : LogSystem :=
  if s.blocked then { s with asleep := Function.update s.asleep p true }
  else { s with outstanding := s.outstanding + 1, ops := (p, []) :: s.ops }

/-- `end_op` up to its call of `commit` (`log.c:146-165`), and the test of `commit`. -/
def endOp (s : LogSystem) (p : Nat) : Option LogSystem :=
  let s := { s with outstanding := s.outstanding - 1, ops := s.ops.eraseP (·.1 = p) }
  if s.committing then none
  else if s.outstanding = 0 then
    some { s with committing := true, pc := if s.lh = [] then .closing else .writing 0 }
  else some { s with asleep := fun _ => false }

variable (sb : Superblock)

/-- `log_write` (`log.c:213-233`), `none` if it panics. -/
def logWrite (s : LogSystem) (b : Nat) : Option LogSystem :=
  if logSize ≤ s.lh.length ∨ (sb.nlog : Int) - 1 ≤ s.lh.length then none
  else if s.outstanding < 1 then none
  else
    some { s with
      lh := if b ∈ s.lh then s.lh else s.lh ++ [b]
      dirty := Function.update s.dirty b true }

/-- `write_head` (`log.c:100-114`). -/
def writeHead (s : LogSystem) : LogSystem :=
  s.bwrite sb.logstart ((s.buf sb.logstart).putHead s.lh)

/-- The next step of `commit` and the end of `end_op` (`log.c:169-206`), or of `initlog`
(`log.c:53-124`): at most one block is written. -/
def work (s : LogSystem) : Option LogSystem :=
  match s.pc with
  | .quiet => none
  | .writing tail =>
    match s.lh[tail]? with
    | some b => some { s.bwrite (sb.logstart + tail + 1) (s.buf b) with pc := .writing (tail + 1) }
    | none => some { s with pc := .heading }
  | .heading => some { s.writeHead sb with pc := .installing 0 false }
  | .installing tail r =>
    match s.lh[tail]? with
    | some b =>
      some { s.bwrite b (s.buf (sb.logstart + tail + 1)) with pc := .installing (tail + 1) r }
    | none => some { s with lh := [], pc := .erasing r }
  | .erasing r => some { s.writeHead sb with pc := if r then .quiet else .closing }
  | .closing => some { s with committing := false, asleep := fun _ => false, pc := .quiet }
  | .booting => some { s with lh := (s.buf sb.logstart).head, pc := .installing 0 true }

/-- A block outside of the log. -/
def Home (b : Nat) : Prop := b < sb.logstart ∨ sb.logstart + sb.nlog ≤ b

instance (b : Nat) : Decidable (Home sb b) := inferInstanceAs (Decidable (_ ∨ _))

/-- `b` is among the blocks that the operation of `p` has logged. -/
def charge (p b : Nat) (ops : List (Nat × List Nat)) : List (Nat × List Nat) :=
  ops.map fun o => if o.1 = p then (p, o.2.insert b) else o

/-- What can happen next. -/
inductive Event where
  | begin (p : Nat)
  /-- An operation of `p` changes a block and calls `log_write`. -/
  | write (p b : Nat) (data : Block)
  | finish (p : Nat)
  /-- The process that commits or recovers goes on. -/
  | work
  /-- The buffer of a block is used for another one, and the block is read again later. -/
  | evict (b : Nat)
  /-- `kill` wakes a process. -/
  | kill (p : Nat)
  /-- The machine stops and is booted again. -/
  | crash

/-- One step; `none` where the event cannot happen or panics. During the recovery there are no other
processes. -/
def next (s : LogSystem) : Event → Option LogSystem
  | .begin p =>
    if s.pc.recovering = false ∧ p ∉ s.ops.map Prod.fst ∧ s.asleep p = false then
      some (s.beginOp p)
    else none
  | .write p b data =>
    if p ∈ s.ops.map Prod.fst ∧ Home sb b ∧ b < 2 ^ 32 then
      { s with buf := Function.update s.buf b data, ops := charge p b s.ops }.logWrite sb b
    else none
  | .finish p => if p ∈ s.ops.map Prod.fst then s.endOp p else none
  | .work => s.work sb
  | .evict b =>
    if s.dirty b = false then some { s with buf := Function.update s.buf b (s.disk b) } else none
  | .kill p => some { s with asleep := Function.update s.asleep p false }
  | .crash => some (boot s.disk)

end LogSystem

end Cs537.P5
