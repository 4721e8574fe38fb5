import Cs537.Lib.LinkedRing
import Cs537.P5.Logging

/-!
# The buffer cache

`bio.c`, and the queue of the disk driver behind it. Any number of processes use the buffers. What a
process does with `bcache.lock`, `idelock` or the lock inside a sleeplock held is one step, and so
is what it does to a buffer that it has locked; a process in `acquiresleep` goes on when the lock is
free. A call that panics is not a step.
-/

namespace Cs537.P5

open Cs537.Lib

/-- `NBUF` (`param.h:12`). -/
def nbuf : Nat := maxOpBlocks * 3

/-- `FSSIZE` (`param.h:13`). -/
def fssize : Nat := 1000

/-- `ROOTDEV` (`param.h:8`). -/
def rootdev : Nat := 1

/-- `struct buf` without its links. `holder` is the process in `lock.pid`, if `lock.locked`; `valid`
and `dirty` are `B_VALID` and `B_DIRTY`. -/
structure Buf (π : Type) where
  valid : Bool
  dirty : Bool
  dev : Nat
  blockno : Nat
  holder : Option π
  refcnt : Nat
  data : Block

/-- Where a process is in a call. -/
inductive BufCall where
  | running
  /-- In `acquiresleep`, at the end of `bget`. -/
  | locking (b : Fin nbuf)
  /-- Behind `bget` in `bread`. -/
  | reading (b : Fin nbuf)
  /-- In the loop of `iderw`. -/
  | waiting (b : Fin nbuf)
  /-- Behind `releasesleep` in `brelse`. -/
  | releasing (b : Fin nbuf)
  deriving DecidableEq

/-- The buffers, the links of `struct bcache` (its head is `none`), `idequeue`, the disks, and the
processes. -/
structure Bcache (π : Type) where
  buf : Fin nbuf → Buf π
  links : Links (Fin nbuf)
  queue : List (Fin nbuf)
  disk : Nat → Nat → Block
  havedisk1 : Bool
  call : π → BufCall

namespace Bcache

variable {π : Type} [DecidableEq π]

/-! ## The driver -/

/-- `idestart` (`ide.c:73-100`). What it sends to a disk counts as written, since nothing else is
asked of the disk before the interrupt. -/
def idestart (s : Bcache π) (b : Fin nbuf) : Option (Bcache π) :=
  let x := s.buf b
  if fssize ≤ x.blockno then none
  else if x.dirty then
    some { s with
      disk := Function.update s.disk (x.dev % 2)
        (Function.update (s.disk (x.dev % 2)) x.blockno x.data) }
  else some s

/-- `iderw` up to its loop (`ide.c:142-159`). -/
def iderw (s : Bcache π) (p : π) (b : Fin nbuf) : Option (Bcache π) :=
  let x := s.buf b
  if x.holder ≠ some p then none
  else if x.valid = true ∧ x.dirty = false then none
  else if x.dev ≠ 0 ∧ s.havedisk1 = false then none
  else
    let s := { s with
      queue := s.queue ++ [b], call := Function.update s.call p (.waiting b) }
    if s.queue.head? = some b then s.idestart b else some s

/-- `ideintr` (`ide.c:103-131`), for a disk without errors. -/
def ideintr (s : Bcache π) : Option (Bcache π) :=
  match s.queue with
  | [] => some s
  | b :: rest =>
    let x := s.buf b
    let data := if x.dirty then x.data else s.disk (x.dev % 2) x.blockno
    let s := { s with
      queue := rest
      buf := Function.update s.buf b { x with data := data, valid := true, dirty := false } }
    match rest with
    | [] => some s
    | c :: _ => s.idestart c

/-! ## The cache -/

/-- `binit` (`bio.c:47-55`): every buffer in turn behind the head. -/
def binit : Links (Fin nbuf) :=
  (List.finRange nbuf).foldl Links.insertFront ⟨fun _ => none, fun _ => none⟩

def labelled (s : Bcache π) (dev blockno : Nat) (b : Fin nbuf) : Bool :=
  (s.buf b).dev = dev ∧ (s.buf b).blockno = blockno

def unused (s : Bcache π) (b : Fin nbuf) : Bool := (s.buf b).refcnt = 0 ∧ (s.buf b).dirty = false

/-- The first loop of `bget` (`bio.c:69-76`). -/
def hit (s : Bcache π) (dev blockno : Nat) : Option (Fin nbuf) :=
  Links.walk s.links.next (s.labelled dev blockno) (nbuf + 1) (s.links.next none)

/-- The second loop of `bget` (`bio.c:81-91`). -/
def victim (s : Bcache π) : Option (Fin nbuf) :=
  Links.walk s.links.prev s.unused (nbuf + 1) (s.links.prev none)

/-- Buffer `b` counts one more reference, and `p` goes on to lock it. -/
def share (s : Bcache π) (p : π) (b : Fin nbuf) : Bcache π :=
  { s with
    buf := Function.update s.buf b { s.buf b with refcnt := (s.buf b).refcnt + 1 }
    call := Function.update s.call p (.locking b) }

/-- Buffer `b` gets a new label, and `p` goes on to lock it. -/
def recycle (s : Bcache π) (p : π) (b : Fin nbuf) (dev blockno : Nat) : Bcache π :=
  { s with
    buf := Function.update s.buf b { s.buf b with
      dev := dev, blockno := blockno, valid := false, dirty := false, refcnt := 1 }
    call := Function.update s.call p (.locking b) }

/-- `bget` up to its `acquiresleep` (`bio.c:61-93`). -/
def bget (s : Bcache π) (p : π) (dev blockno : Nat) : Option (Bcache π) :=
  match s.hit dev blockno with
  | some b => some (s.share p b)
  | none => s.victim.map fun b => s.recycle p b dev blockno

/-- The end of `bget`, when the lock is free (`sleeplock.c:25-31`). -/
def acquiresleep (s : Bcache π) (p : π) (b : Fin nbuf) : Bcache π :=
  { s with
    buf := Function.update s.buf b { s.buf b with holder := some p }
    call := Function.update s.call p (.reading b) }

/-- The rest of `bread` (`bio.c:102-105`), up to the loop of `iderw`. -/
def bread (s : Bcache π) (p : π) (b : Fin nbuf) : Option (Bcache π) :=
  if (s.buf b).valid then some { s with call := Function.update s.call p .running }
  else s.iderw p b

/-- `b->flags |= B_DIRTY` (`bio.c:114`, `log.c:231`). -/
def setDirty (s : Bcache π) (b : Fin nbuf) : Bcache π :=
  { s with buf := Function.update s.buf b { s.buf b with dirty := true } }

/-- `bwrite` up to the loop of `iderw` (`bio.c:109-116`). -/
def bwrite (s : Bcache π) (p : π) (b : Fin nbuf) : Option (Bcache π) :=
  if (s.buf b).holder ≠ some p then none else (s.setDirty b).iderw p b

/-- `brelse` up to the end of `releasesleep` (`bio.c:123-126`). -/
def brelse (s : Bcache π) (p : π) (b : Fin nbuf) : Option (Bcache π) :=
  if (s.buf b).holder ≠ some p then none
  else
    some { s with
      buf := Function.update s.buf b { s.buf b with holder := none }
      call := Function.update s.call p (.releasing b) }

/-- The rest of `brelse` (`bio.c:128-140`). -/
def drop (s : Bcache π) (p : π) (b : Fin nbuf) : Bcache π :=
  let x := { s.buf b with refcnt := (s.buf b).refcnt - 1 }
  { s with
    buf := Function.update s.buf b x
    links := if x.refcnt = 0 then (s.links.unlink b).insertFront b else s.links
    call := Function.update s.call p .running }

/-! ## The processes -/

inductive Event (π : Type) where
  /-- A process calls `bread`. -/
  | get (p : π) (dev blockno : Nat)
  /-- A process inside a call goes on. -/
  | run (p : π)
  /-- A process stores into a buffer that it has locked. -/
  | modify (p : π) (b : Fin nbuf) (data : Block)
  /-- `log_write` of a buffer that the process has locked. -/
  | pin (p : π) (b : Fin nbuf)
  | bwrite (p : π) (b : Fin nbuf)
  | brelse (p : π) (b : Fin nbuf)
  /-- The disk interrupts. -/
  | ideintr

/-- A process inside a call goes on, unless it waits. -/
def run (s : Bcache π) (p : π) : Option (Bcache π) :=
  match s.call p with
  | .running => none
  | .locking b => if (s.buf b).holder = none then some (s.acquiresleep p b) else none
  | .reading b => s.bread p b
  | .waiting b =>
    if (s.buf b).valid = true ∧ (s.buf b).dirty = false then
      some { s with call := Function.update s.call p .running }
    else none
  | .releasing b => some (s.drop p b)

/-- One step; `none` where the event cannot happen or panics. -/
def next (s : Bcache π) : Event π → Option (Bcache π)
  | .get p dev blockno => if s.call p = .running then s.bget p dev blockno else none
  | .run p => s.run p
  | .modify p b data =>
    if s.call p = .running ∧ (s.buf b).holder = some p then
      some { s with buf := Function.update s.buf b { s.buf b with data := data } }
    else none
  | .pin p b =>
    if s.call p = .running ∧ (s.buf b).holder = some p then some (s.setDirty b) else none
  | .bwrite p b => if s.call p = .running then s.bwrite p b else none
  | .brelse p b => if s.call p = .running then s.brelse p b else none
  | .ideintr => s.ideintr

/-- The machine behind `binit`; `bcache` lies in zeroed memory. -/
def boot (disk : Nat → Nat → Block) (havedisk1 : Bool) : Bcache π where
  buf _ := ⟨false, false, 0, 0, none, 0, .zero⟩
  links := binit
  queue := []
  disk := disk
  havedisk1 := havedisk1
  call _ := .running

end Bcache

end Cs537.P5
