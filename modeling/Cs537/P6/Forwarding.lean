import Cs537.Lib.Tokens
import Cs537.P6.Holders

/-!
# Forwarding a request

A listener reads a request into a block of its own and `add_work` copies it into the block of the
job with `strcpy`, that is up to the first NUL byte. The worker sends as many bytes of the second
block as the listener has read into the first. The two agree exactly for requests without a NUL
byte in front of their last one, unless `malloc` happened to leave the missing bytes in the block.

In between the block must stay as it is. `handle_get_job` cuts the block of the job that it has
taken with `strtok`, and `serve_request` receives the answer of the file server into the block that
it has sent; both are steps of the proxy here, beside the statements of `Machine`.
-/

namespace Cs537.P6

open Cs537.Lib Queue

/-! ## Copying -/

/-- The block of a new job behind its `strcpy`, `left` what `malloc` left in it
(`safequeue.c:20-21`). -/
def jobBlock (left : Bytes) (j : Job) : Bytes := j.buffer ++ 0 :: left.drop (j.buffer.length + 1)

/-- The copy of a request has all of its bytes: without a NUL byte in it, one in the rest of the
listener's block ends the copy; behind its first NUL byte, the job's block held the bytes of the
request before the copy. -/
structure CopiedWhole (request rest left : Bytes) : Prop where
  ends : (0 : UInt8) ∉ request → (0 : UInt8) ∈ rest
  behind : ∀ tail, request = cstr request ++ 0 :: tail →
    (left.drop ((cstr request).length + 1)).take tail.length = tail

/-- A request whose only NUL byte, if it has one, is its last byte. -/
theorem copiedWhole_of_last {request rest : Bytes} (left : Bytes) (hrest : (0 : UInt8) ∈ rest)
    (hlast : request = cstr request ∨ request = cstr request ++ [0]) :
    CopiedWhole request rest left := by
  refine ⟨fun _ => hrest, ?_⟩
  intro tail htail
  rcases hlast with h | h
  · have hlen := congrArg List.length (h.symm.trans htail)
    simp at hlen
  · have hsame := h.symm.trans htail
    rw [List.append_cancel_left_eq, List.cons.injEq] at hsame
    rw [← hsame.2]
    rfl

/-- Where `strcpy` stays inside the listener's block, the job's block begins with the request
exactly if the copy has all of its bytes. -/
theorem take_jobBlock_iff (request rest left : Bytes) (clientFd : Int) :
    ((0 : UInt8) ∈ request ++ rest ∧
        (jobBlock left (newJobOf (request ++ rest) clientFd request.length)).take
          request.length = request) ↔
      CopiedWhole request rest left := by
  have hblock : jobBlock left (newJobOf (request ++ rest) clientFd request.length) =
      cstr (request ++ rest) ++ 0 :: left.drop ((cstr (request ++ rest)).length + 1) := rfl
  rw [hblock]
  by_cases hzero : (0 : UInt8) ∈ request
  · obtain ⟨tail, htail⟩ := exists_eq_cstr_append hzero
    have hmem : (0 : UInt8) ∈ request ++ rest := List.mem_append_left _ hzero
    have hlength : request.length = (cstr request).length + (tail.length + 1) := by
      rw [htail, cstr_append_zero (zero_notMem_cstr request)]
      simp
    have htake : (cstr request ++ 0 :: left.drop ((cstr request).length + 1)).take
        request.length =
          cstr request ++ 0 :: (left.drop ((cstr request).length + 1)).take tail.length := by
      rw [hlength, List.take_length_add_append, List.take_succ_cons]
    rw [cstr_append_of_mem hzero, htake]
    constructor
    · rintro ⟨-, heq⟩
      refine ⟨fun hno => absurd hzero hno, ?_⟩
      intro tail' htail'
      have hsame : tail' = tail := by
        rw [htail, cstr_append_zero (zero_notMem_cstr request)] at htail'
        simpa [eq_comm] using htail'
      subst hsame
      rw [htail, cstr_append_zero (zero_notMem_cstr request)] at heq
      simpa using heq
    · rintro ⟨-, hbehind⟩
      refine ⟨hmem, ?_⟩
      rw [hbehind tail htail]
      exact htail.symm
  · have hcopy := cstr_append_of_zero_notMem hzero rest
    have htake : (request ++ cstr rest ++
        0 :: left.drop ((request ++ cstr rest).length + 1)).take request.length = request := by
      rw [List.append_assoc, List.take_left]
    rw [hcopy, htake, List.mem_append]
    constructor
    · rintro ⟨hmem, -⟩
      refine ⟨fun _ => hmem.resolve_left hzero, ?_⟩
      intro tail htail
      exact absurd (by rw [htail]; simp) hzero
    · intro h
      exact ⟨.inr (h.ends hzero), rfl⟩

/-! ## The blocks of the jobs -/

/-- The bytes of `"\r\n"`. -/
def isNewline (c : UInt8) : Bool := c = 0x0d || c = 0x0a

/-- `strtok` at position `s` of a block, with the delimiters `"\r\n"`: the block, the token, and the
position that the next `strtok(NULL, ..)` goes on from. -/
def strtokAt (block : Bytes) (s : Nat) : Bytes × Option Bytes × Nat :=
  let text := cstr (block.drop s)
  let stop := s + (strtokLeft isNewline text).length
  let token := (strtokNext isNewline text).1
  if stop = s + text.length then (block, token, stop) else (block.set stop 0, token, stop + 1)

/-- The next call of `strtok` in `handle_get_job` (`proxyserver.c:160-188`). -/
inductive Call where
  /-- `strtok(buffer, "\r\n")` with the block of this job -/
  | first (job : Nat)
  /-- `strtok(NULL, "\r\n")` -/
  | again
  deriving DecidableEq

/-- The threads with the blocks of the jobs. `save` is the position that `strtok` remembers between
two calls, for all threads: a job and an offset in its block. `answered` are the jobs that listeners
have taken, and `sent` what a worker has sent to the file server since it took its job. -/
structure Proxy (numListener numWorkers : Nat) where
  threads : Machine numListener numWorkers
  block : Nat → Bytes
  calls : Fin numListener → Option Call
  save : Option (Nat × Nat)
  answered : List Nat
  sent : Fin numWorkers → Bytes

/-- The steps: those of `Machine`, and those that read and write the blocks. -/
inductive Act (numListener numWorkers : Nat) where
  | move (e : Move numListener numWorkers)
  | strtok (i : Fin numListener)
  | write (w : Fin numWorkers) (size : Nat)
  | recv (w : Fin numWorkers) (response : Bytes)

namespace Proxy

variable {numListener numWorkers : Nat}

def init (dummy : Job) : Proxy numListener numWorkers where
  threads := .init dummy
  block := fun _ => []
  calls := fun _ => none
  save := none
  answered := []
  sent := fun _ => []

variable (p : Proxy numListener numWorkers)

/-- `strcpy` into the block of a new job, `left` what `malloc` left in it. -/
def copied (left : Nat → Bytes) (e : Move numListener numWorkers)
    (m : Machine numListener numWorkers) : Nat → Bytes :=
  match e with
  | .run t =>
    match p.threads.pc t, m.pc t with
    | .addFull r, .addEmpty newJob =>
      Function.update p.block newJob
        (jobBlock (left newJob) (newJobOf r.buffer r.clientFd r.bytesRead))
    | _, _ => p.block
  | _ => p.block

/-- `handle_get_job(client_fd, temp->buffer)` comes next (`proxyserver.c:267`). -/
def called (e : Move numListener numWorkers) : Fin numListener → Option Call :=
  match e with
  | .run (.inl i) =>
    match p.threads.answeredBy e with
    | [job] => Function.update p.calls i (some (.first job))
    | _ => p.calls
  | _ => p.calls

/-- A worker that takes a job has sent nothing of it. -/
def started (e : Move numListener numWorkers) (m : Machine numListener numWorkers) :
    Fin numWorkers → Bytes :=
  match e with
  | .run (.inr w) =>
    match m.pc (.inr w) with
    | .clearNext _ => Function.update p.sent w []
    | _ => p.sent
  | _ => p.sent

/-- The threads go on to `m`. -/
def moved (left : Nat → Bytes) (e : Move numListener numWorkers)
    (m : Machine numListener numWorkers) : Proxy numListener numWorkers where
  threads := m
  block := p.copied left e m
  calls := p.called e
  save := p.save
  answered := p.answered ++ p.threads.answeredBy e
  sent := p.started e m

/-- A listener is back in `accept` once `handle_get_job` has returned. -/
def MayMove : Move numListener numWorkers → Prop
  | .accept i _ => p.calls i = none
  | _ => True

instance : (e : Move numListener numWorkers) → Decidable (p.MayMove e)
  | .accept i _ => inferInstanceAs (Decidable (p.calls i = none))
  | .signal _ _ | .wakeup _ | .run _ => inferInstanceAs (Decidable True)

/-- A call of `strtok` by a listener. The first token is searched for a blank, and what is behind
the blank for another one: without a token or a blank a NULL pointer is followed. -/
def strtok (i : Fin numListener) (s : Nat × Nat) (isFirst : Bool) :
    Proxy numListener numWorkers :=
  let cut := strtokAt (p.block s.1) s.2
  { p with
    threads := if isFirst = true ∧ 0x20 ∉ cut.2.1.getD [] then p.threads.crash else p.threads
    block := Function.update p.block s.1 cut.1
    calls := Function.update p.calls i (if cut.2.1 = none then none else some .again)
    save := some (s.1, cut.2.2) }

/-- `worker_job->bytes_read`. -/
def bytesRead (job : Nat) : Int := ((p.threads.queue.mem job).map Job.bytesRead).getD 0

/-- What `http_send_data` has not sent yet (`proxyserver.h:78-88`). -/
def unsent (w : Fin numWorkers) (job : Nat) : Bytes :=
  ((p.block job).take (p.bytesRead job).toNat).drop (p.sent w).length

/-- The state after a step, if the step can happen in the state. A worker whose connection or
`write` fails goes on without having sent all, and one that has sent all receives the answer into
the same block (`proxyserver.c:135-152`). -/
def next (left : Nat → Bytes) (maxQueueSize : Int) (p : Proxy numListener numWorkers) :
    Act numListener numWorkers → Option (Proxy numListener numWorkers)
  | .move e =>
    if p.MayMove e then (p.threads.next maxQueueSize e).map (p.moved left e) else none
  | .strtok i =>
    if p.threads.crashed = false ∧ p.threads.pc (.inl i) = .idle then
      match p.calls i, p.save with
      | none, _ => none
      | some (.first job), _ => some (p.strtok i (job, 0) true)
      | some .again, some s => some (p.strtok i s false)
      | some .again, none => some { p with threads := p.threads.crash }
    else none
  | .write w size =>
    match p.threads.pc (.inr w) with
    | .serving job =>
      if p.threads.crashed = false ∧ size ≤ (p.unsent w job).length then
        some { p with
          sent := Function.update p.sent w (p.sent w ++ (p.unsent w job).take size) }
      else none
    | _ => none
  | .recv w response =>
    match p.threads.pc (.inr w) with
    | .serving job =>
      if p.threads.crashed = false ∧ (p.sent w).length = p.bytesRead job ∧
          response.length < 10000 then
        some { p with
          block := Function.update p.block job
            (response ++ (p.block job).drop response.length) }
      else none
    | _ => none

/-- A thread that is about to unlock without having locked does so only while no thread has the
lock. -/
def StrayMeetsFree : Act numListener numWorkers → Prop
  | .move e => p.threads.StrayMeetsFree e
  | _ => True

instance : (e : Act numListener numWorkers) → Decidable (p.StrayMeetsFree e)
  | .move e => inferInstanceAs (Decidable (p.threads.StrayMeetsFree e))
  | .strtok _ | .write _ _ | .recv _ _ => inferInstanceAs (Decidable True)

/-! ## Blocks that stay as they are -/

variable {p} {p' : Proxy numListener numWorkers} {left : Nat → Bytes} {maxQueueSize : Int}

/-- Every job has one place, and only jobs that listeners have taken are cut. -/
structure Placed (p : Proxy numListener numWorkers) : Prop where
  list : ∃ l, p.threads.Inv l
  owned : p.threads.Owned p.answered
  calls : ∀ i job, p.calls i = some (.first job) → job ∈ p.answered
  save : ∀ s, p.save = some s → s.1 ∈ p.answered

theorem placed_init (dummy : Job) : (init dummy : Proxy numListener numWorkers).Placed where
  list := ⟨[], Machine.inv_init dummy⟩
  owned := Machine.owned_init dummy
  calls i job h := by cases h
  save s h := by cases h

theorem mem_answered_of_called {e : Move numListener numWorkers} (h : p.Placed)
    {i : Fin numListener} {job : Nat} (hcall : p.called e i = some (.first job)) :
    job ∈ p.answered ++ p.threads.answeredBy e := by
  have hold : p.calls i = some (.first job) → job ∈ p.answered ++ p.threads.answeredBy e :=
    fun hi => List.mem_append_left _ (h.calls i job hi)
  cases e with
  | run t =>
    cases t with
    | inl j =>
      simp only [called] at hcall
      generalize p.threads.answeredBy (.run (.inl j)) = taken at hcall hold ⊢
      split at hcall
      · rename_i job'
        by_cases hij : i = j
        · subst hij
          rw [Function.update_self] at hcall
          cases hcall
          exact List.mem_append_right _ List.mem_cons_self
        · rw [Function.update_of_ne hij] at hcall
          exact hold hcall
      · exact hold hcall
    | inr w => exact hold hcall
  | _ => exact hold hcall

theorem strtok_threads (p : Proxy numListener numWorkers) (i : Fin numListener) (s : Nat × Nat)
    (isFirst : Bool) :
    (p.strtok i s isFirst).threads = p.threads ∨
      (p.strtok i s isFirst).threads = p.threads.crash := by
  simp only [strtok]
  split
  · exact .inr rfl
  · exact .inl rfl

/-- It leaves the list and the threads where they are. -/
theorem strtok_keeps (p : Proxy numListener numWorkers) (i : Fin numListener) (s : Nat × Nat)
    (isFirst : Bool) :
    (p.strtok i s isFirst).threads.queue = p.threads.queue ∧
    (p.strtok i s isFirst).threads.pc = p.threads.pc ∧
    (p.strtok i s isFirst).threads.removed = p.threads.removed := by
  rcases strtok_threads p i s isFirst with heq | heq
  · rw [heq]
    exact ⟨rfl, rfl, rfl⟩
  · rw [heq]
    exact ⟨rfl, rfl, rfl⟩

/-- A call of `strtok` in the block of a job that a listener has taken. -/
theorem Placed.strtok (h : p.Placed) {i : Fin numListener} {s : Nat × Nat} {isFirst : Bool}
    (hs : s.1 ∈ p.answered) : (p.strtok i s isFirst).Placed := by
  obtain ⟨l, hl⟩ := h.list
  have howned := h.owned
  refine ⟨?_, ?_, ?_, ?_⟩
  · refine ⟨l, ?_⟩
    rcases strtok_threads p i s isFirst with heq | heq
    · rw [heq]
      exact hl
    · rw [heq]
      exact hl.crash
  · rcases strtok_threads p i s isFirst with heq | heq
    · rw [heq]
      exact howned
    · rw [heq]
      exact howned.crash
  · intro j job hj
    by_cases hji : j = i
    · subst hji
      simp only [Proxy.strtok, Function.update_self] at hj
      split at hj
      · cases hj
      · cases hj
    · simp only [Proxy.strtok, Function.update_of_ne hji] at hj
      exact h.calls j job hj
  · intro s' hs'
    obtain rfl := Option.some.inj hs'
    exact hs

/-- What a step is. -/
inductive Steps (left : Nat → Bytes) (maxQueueSize : Int) (p : Proxy numListener numWorkers) :
    Act numListener numWorkers → Proxy numListener numWorkers → Prop where
  | move {e : Move numListener numWorkers} {m : Machine numListener numWorkers} :
      p.threads.next maxQueueSize e = some m →
      Steps left maxQueueSize p (.move e) (p.moved left e m)
  | strtok {i : Fin numListener} {s : Nat × Nat} {isFirst : Bool} :
      p.calls i = some (.first s.1) ∨ p.save = some s →
      Steps left maxQueueSize p (.strtok i) (p.strtok i s isFirst)
  | crash {i : Fin numListener} :
      Steps left maxQueueSize p (.strtok i) { p with threads := p.threads.crash }
  | write {w : Fin numWorkers} {size job : Nat} : p.threads.pc (.inr w) = .serving job →
      Steps left maxQueueSize p (.write w size)
        { p with sent := Function.update p.sent w (p.sent w ++ (p.unsent w job).take size) }
  | recv {w : Fin numWorkers} {response : Bytes} {job : Nat} :
      p.threads.pc (.inr w) = .serving job → (p.sent w).length = p.bytesRead job →
      Steps left maxQueueSize p (.recv w response)
        { p with
          block := Function.update p.block job
            (response ++ (p.block job).drop response.length) }

theorem steps_of_next {e : Act numListener numWorkers}
    (h : next left maxQueueSize p e = some p') : Steps left maxQueueSize p e p' := by
  cases e with
  | move e =>
    simp only [next, Option.ite_none_right_eq_some] at h
    obtain ⟨-, h⟩ := h
    obtain ⟨m, hm, rfl⟩ := Option.map_eq_some_iff.mp h
    exact .move hm
  | strtok i =>
    simp only [next, Option.ite_none_right_eq_some] at h
    obtain ⟨-, h⟩ := h
    split at h
    · cases h
    · rename_i job save hcall
      cases h
      exact .strtok (.inl hcall)
    · rename_i s hcall hsave
      cases h
      exact .strtok (.inr hsave)
    · cases h
      exact .crash
  | write w size =>
    simp only [next] at h
    split at h
    · rename_i job hpc
      rw [Option.ite_none_right_eq_some] at h
      obtain ⟨-, h⟩ := h
      cases h
      exact .write hpc
    · cases h
  | recv w response =>
    simp only [next] at h
    split at h
    · rename_i job hpc
      rw [Option.ite_none_right_eq_some] at h
      obtain ⟨⟨-, hall, -⟩, h⟩ := h
      cases h
      exact .recv hpc hall
    · cases h

/-- A step that meets the condition leaves every job in one place. -/
theorem Placed.next {e : Act numListener numWorkers} (h : p.Placed) (hstray : p.StrayMeetsFree e)
    (hnext : next left maxQueueSize p e = some p') : p'.Placed := by
  obtain ⟨l, hl⟩ := h.list
  cases steps_of_next hnext with
  | @move e m hm =>
    exact ⟨Machine.next_inv hl hstray hm, h.owned.next hl hm,
      fun i job hcall => mem_answered_of_called h hcall,
      fun s hs => List.mem_append_left _ (h.save s hs)⟩
  | @strtok i s isFirst hs =>
    apply h.strtok
    rcases hs with hcall | hsave
    · exact h.calls i s.1 hcall
    · exact h.save s hsave
  | crash =>
    exact ⟨⟨l, hl.crash⟩, h.owned.crash, h.calls, h.save⟩
  | write _ => exact ⟨h.list, h.owned, h.calls, h.save⟩
  | recv _ _ => exact ⟨h.list, h.owned, h.calls, h.save⟩

/-- The block of a job until it is sent, `text` what `strcpy` has left in it. A thread that has
unlinked it finds this text, and has sent a part of it, or all and received an answer. -/
structure Kept (job : Nat) (text : Bytes) (bytesRead : Int) (p : Proxy numListener numWorkers) :
    Prop where
  below : job < p.threads.queue.brk
  read : p.bytesRead job = bytesRead
  cell : ∃ j, p.threads.queue.mem job = some j
  listed : job ∉ p.threads.removed → p.block job = text
  held : ∀ w, (p.threads.pc (.inr w)).job = some job →
    (p.block job = text ∧ p.sent w <+: text.take bytesRead.toNat) ∨
    (p.threads.pc (.inr w) = .serving job ∧ p.sent w = text.take bytesRead.toNat ∧
      (p.sent w).length = bytesRead)

namespace Kept

variable {job : Nat} {text : Bytes} {bytesRead : Int}

/-- Only the block of a new job is written by `strcpy`. -/
theorem copied {e : Move numListener numWorkers} {m : Machine numListener numWorkers}
    (hm : p.threads.next maxQueueSize e = some m) (hjob : job < p.threads.queue.brk) :
    p.copied left e m job = p.block job := by
  cases e with
  | run t =>
    have hcases : p.copied left (.run t) m = p.block ∨ ∃ r newJob text,
        p.threads.pc t = .addFull r ∧ m.pc t = .addEmpty newJob ∧
          p.copied left (.run t) m = Function.update p.block newJob text := by
      simp only [Proxy.copied]
      split
      · rename_i r newJob hpc hpc'
        exact .inr ⟨r, newJob, _, hpc, hpc', rfl⟩
      · exact .inl rfl
    rcases hcases with heq | ⟨r, newJob, text, hpc, hpc', heq⟩
    · rw [heq]
    · simp only [Machine.next, Option.ite_none_right_eq_some, Machine.exec, hpc] at hm
      obtain ⟨-, hm⟩ := hm
      split at hm
      · cases hm
        simp [Machine.goto] at hpc'
      · cases hm
        have hnew : p.threads.queue.brk = newJob := by
          simpa [Machine.goto, Machine.withQueue] using hpc'
        rw [heq]
        exact Function.update_of_ne (by omega) _ _
  | _ => rfl

/-- What a worker has sent stays, but for a worker that takes a job. -/
theorem started {e : Move numListener numWorkers} {m : Machine numListener numWorkers}
    (w : Fin numWorkers) : p.started e m w = p.sent w ∨
      (p.started e m w = [] ∧ ∃ a, m.pc (.inr w) = .clearNext a) := by
  cases e with
  | run t =>
    cases t with
    | inl i => exact .inl rfl
    | inr v =>
      have hcases : p.started (.run (.inr v)) m = p.sent ∨ ∃ a, m.pc (.inr v) = .clearNext a ∧
          p.started (.run (.inr v)) m = Function.update p.sent v [] := by
        simp only [Proxy.started]
        split
        · rename_i a hpc
          exact .inr ⟨a, hpc, rfl⟩
        · exact .inl rfl
      rcases hcases with heq | ⟨a, hpc, heq⟩
      · exact .inl (by rw [heq])
      · rw [heq]
        by_cases hwv : w = v
        · subst hwv
          exact .inr ⟨Function.update_self _ _ _, a, hpc⟩
        · exact .inl (Function.update_of_ne hwv _ _)
  | _ => exact .inl rfl

theorem started_of_taken {w : Fin numWorkers} {m : Machine numListener numWorkers} {a : Nat}
    (hpc : m.pc (.inr w) = .clearNext a) : p.started (.run (.inr w)) m w = [] := by
  simp [Proxy.started, hpc]

theorem moved {e : Move numListener numWorkers} {m : Machine numListener numWorkers}
    (h : p.Kept job text bytesRead) (hp : p.Placed)
    (hm : p.threads.next maxQueueSize e = some m) :
    (p.moved left e m).Kept job text bytesRead := by
  obtain ⟨l, hl⟩ := hp.list
  have heffect := Machine.next_effect hl hm
  have hblock : (p.moved left e m).block job = p.block job := copied hm h.below
  have hstarted : ∀ w, (p.moved left e m).sent w = p.sent w ∨
      ((p.moved left e m).sent w = [] ∧ ∃ a, m.pc (.inr w) = .clearNext a) := started
  obtain ⟨j, hj⟩ := h.cell
  obtain ⟨j', hj', hdata⟩ := Option.map_eq_some_iff.mp (heffect.keeps hl job j hj)
  refine ⟨h.below.trans_le heffect.brk_le, ?_, ⟨j', hj'⟩, ?_, ?_⟩
  · have hread : j'.bytesRead = j.bytesRead := (congrArg Job.bytesRead hdata : _)
    rw [← h.read]
    simp [Proxy.bytesRead, Proxy.moved, hj, hj', hread]
  · intro hfree
    rw [hblock]
    exact h.listed fun hmem => hfree (heffect.removed_subset hmem)
  · intro w hw
    rw [hblock]
    rcases heffect.holder hw with ⟨hbefore, hsame⟩ | ⟨rfl, hhead, -, hpc⟩
    · rcases h.held w hbefore with ⟨htext, hsent⟩ | ⟨hserving, hall⟩
      · refine .inl ⟨htext, ?_⟩
        rcases hstarted w with heq | ⟨heq, -⟩
        · rw [heq]
          exact hsent
        · rw [heq]
          exact List.nil_prefix
      · -- the answer arrives while the worker serves the job
        have hpc : m.pc (.inr w) = .serving job := by
          rcases hsame with hsame | hne
          · exact hsame.trans hserving
          · exact absurd hserving hne
        refine .inr ⟨hpc, ?_⟩
        rcases hstarted w with heq | ⟨-, a, hclear⟩
        · rw [heq]
          exact hall
        · rw [hpc] at hclear
          cases hclear
    · have hpcw : m.pc (.inr w) = .clearNext job := by rw [hpc, Function.update_self]
      refine .inl ⟨h.listed (hp.owned.head_notMem_removed hl hhead), ?_⟩
      have hsent : (p.moved left (.run (.inr w)) m).sent w = [] := started_of_taken hpcw
      rw [hsent]
      exact List.nil_prefix

theorem strtok {i : Fin numListener} {s : Nat × Nat} {isFirst : Bool}
    (h : p.Kept job text bytesRead) (hp : p.Placed) (hs : s.1 ∈ p.answered) :
    (p.strtok i s isFirst).Kept job text bytesRead := by
  obtain ⟨hqueue, hpc, hremoved⟩ := strtok_keeps p i s isFirst
  have hblock : job ∉ p.answered → (p.strtok i s isFirst).block job = p.block job := by
    intro hjob
    have hne : job ≠ s.1 := by
      rintro rfl
      exact hjob hs
    exact Function.update_of_ne hne _ _
  refine ⟨?_, ?_, ?_, ?_, ?_⟩
  · rw [hqueue]
    exact h.below
  · rw [← h.read, Proxy.bytesRead, hqueue]
    rfl
  · rw [hqueue]
    exact h.cell
  · intro hfree
    rw [hremoved] at hfree
    rw [hblock fun ha => hfree (hp.owned.answered job ha)]
    exact h.listed hfree
  · intro w hw
    rw [hpc] at hw ⊢
    rw [hblock (hp.owned.holding _ job hw).2]
    exact h.held w hw

theorem write {w : Fin numWorkers} {size job' : Nat} (h : p.Kept job text bytesRead)
    (hpc : p.threads.pc (.inr w) = .serving job') :
    Kept job text bytesRead { p with
      sent := Function.update p.sent w (p.sent w ++ (p.unsent w job').take size) } := by
  refine ⟨h.below, h.read, h.cell, h.listed, ?_⟩
  intro v hv
  by_cases hvw : v = w
  · subst hvw
    have hjob : job' = job := by
      have hv' : (p.threads.pc (.inr v)).job = some job := hv
      rw [hpc] at hv'
      exact Option.some.inj hv'
    subst hjob
    simp only [Function.update_self, unsent, h.read]
    rcases h.held v hv with ⟨htext, hsent⟩ | ⟨hserving, hall, hlen⟩
    · refine .inl ⟨htext, ?_⟩
      rw [htext]
      obtain ⟨behind, hbehind⟩ := hsent
      rw [← hbehind, List.drop_left]
      exact (List.prefix_append_right_inj _).mpr (List.take_prefix _ _)
    · have hnone : ((p.block job').take bytesRead.toNat).drop (p.sent v).length = [] := by
        apply List.drop_eq_nil_of_le
        rw [List.length_take]
        omega
      rw [hnone, List.take_nil, List.append_nil]
      exact .inr ⟨hserving, hall, hlen⟩
  · simp only [Function.update_of_ne hvw]
    exact h.held v hv

theorem recv {w : Fin numWorkers} {response : Bytes} {job' : Nat}
    (h : p.Kept job text bytesRead) (hp : p.Placed)
    (hpc : p.threads.pc (.inr w) = .serving job') (hlen : (p.sent w).length = p.bytesRead job') :
    Kept job text bytesRead { p with
      block := Function.update p.block job'
        (response ++ (p.block job').drop response.length) } := by
  have hholder : (p.threads.pc (.inr w)).job = some job' := by rw [hpc]; rfl
  by_cases hjob : job' = job
  · subst hjob
    refine ⟨h.below, h.read, h.cell, ?_, ?_⟩
    · intro hfree
      exact absurd (hp.owned.holding _ _ hholder).1 hfree
    · intro v hv
      obtain rfl : w = v := by
        simpa using hp.owned.single (.inr w) (.inr v) job' hholder hv
      right
      rw [h.read] at hlen
      rcases h.held w hv with ⟨-, hsent⟩ | hserved
      · refine ⟨hpc, ?_, hlen⟩
        apply hsent.eq_of_length_le
        rw [List.length_take]
        omega
      · exact hserved
  · refine ⟨h.below, h.read, h.cell, ?_, ?_⟩
    · intro hfree
      exact (Function.update_of_ne (Ne.symm hjob) _ _).trans (h.listed hfree)
    · intro v hv
      simp only [Function.update_of_ne (Ne.symm hjob)]
      exact h.held v hv

/-- A step that meets the condition leaves the block of a job as it is until the job is sent. -/
theorem next {e : Act numListener numWorkers} (h : p.Kept job text bytesRead) (hp : p.Placed)
    (hnext : next left maxQueueSize p e = some p') : p'.Kept job text bytesRead := by
  cases steps_of_next hnext with
  | move hm => exact h.moved hp hm
  | @strtok i s isFirst hs =>
    apply h.strtok hp
    rcases hs with hcall | hsave
    · exact hp.calls i s.1 hcall
    · exact hp.save s hsave
  | crash => exact ⟨h.below, h.read, h.cell, h.listed, h.held⟩
  | write hpc => exact h.write hpc
  | recv hpc hlen => exact h.recv hp hpc hlen

end Kept

/-! ## Forwarding -/

variable {s s' t : Proxy numListener numWorkers}

theorem placed_of_run {es : List (Act numListener numWorkers)} (hs : s.Placed)
    (run : Run (guarded StrayMeetsFree (stepOf (next left maxQueueSize))) s es t) : t.Placed :=
  run.invariant Placed hs fun _ _ _ h hstep => h.next hstep.1 hstep.2

/-- The accepted request is in the block of its job. -/
theorem kept_of_add {i : Fin numListener} {r : Request} (hs : s.Placed)
    (hread : s.threads.pc (.inl i) = .addFull r)
    (hadd : next left maxQueueSize s (.move (.run (.inl i))) = some s')
    (haccepted : s'.threads.pc (.inl i) ≠ .fullUnlock) :
    s'.Kept s.threads.queue.brk
      (jobBlock (left s.threads.queue.brk) (newJobOf r.buffer r.clientFd r.bytesRead))
      r.bytesRead := by
  obtain ⟨l, hl⟩ := hs.list
  have hbelow : ∀ u a, (s.threads.pc u).job = some a → a < s.threads.queue.brk := by
    intro u a hu
    apply hs.owned.below
    exact hl.conserved.mem_iff.mpr (List.mem_append_left _ (hs.owned.holding u a hu).1)
  simp only [next, MayMove, if_true, Machine.next, Machine.exec, hread] at hadd
  obtain ⟨m, hm, rfl⟩ := Option.map_eq_some_iff.mp hadd
  rw [Option.ite_none_right_eq_some] at hm
  obtain ⟨-, hm⟩ := hm
  split at hm
  · cases hm
    exact absurd (Function.update_self _ _ _) haccepted
  · cases hm
    refine ⟨Nat.lt_succ_self _, ?_, ⟨_, malloc_mem_self _ _⟩, ?_, ?_⟩
    · have hcell := malloc_mem_self s.threads.queue (newJobOf r.buffer r.clientFd r.bytesRead)
      exact congrArg (fun cell => (cell.map Job.bytesRead).getD 0) hcell
    · intro _
      simp [Proxy.moved, Proxy.copied, hread, Machine.withQueue, Machine.goto]
    · intro w hw
      have hbefore : (s.threads.pc (.inr w)).job = some s.threads.queue.brk := by
        simpa [Proxy.moved, Machine.withQueue, Machine.goto] using hw
      exact absurd (hbelow _ _ hbefore) (lt_irrefl _)

/-- What a worker has sent once it has sent all: the beginning of the block of the job, whatever
happened in between. -/
theorem sent_of_run {dummy : Job} {es es' : List (Act numListener numWorkers)}
    {i : Fin numListener} {w : Fin numWorkers} {r : Request}
    (run : Run (guarded StrayMeetsFree (stepOf (next left maxQueueSize))) (init dummy) es s)
    (hread : s.threads.pc (.inl i) = .addFull r)
    (hadd : next left maxQueueSize s (.move (.run (.inl i))) = some s')
    (haccepted : s'.threads.pc (.inl i) ≠ .fullUnlock)
    (run' : Run (guarded StrayMeetsFree (stepOf (next left maxQueueSize))) s' es' t)
    (hserving : t.threads.pc (.inr w) = .serving s.threads.queue.brk)
    (hall : (t.sent w).length = r.bytesRead) :
    t.sent w = (jobBlock (left s.threads.queue.brk)
      (newJobOf r.buffer r.clientFd r.bytesRead)).take r.bytesRead.toNat := by
  have hs : s.Placed := placed_of_run (placed_init dummy) run
  have hstray : s.StrayMeetsFree (.move (.run (.inl i))) := by
    intro hpc
    rw [hread] at hpc
    cases hpc
  have hadded := kept_of_add hs hread hadd haccepted
  generalize jobBlock (left s.threads.queue.brk) (newJobOf r.buffer r.clientFd r.bytesRead) =
    text at hadded ⊢
  obtain ⟨-, hkept⟩ := run'.invariant
    (fun p => p.Placed ∧ p.Kept s.threads.queue.brk text r.bytesRead)
    ⟨hs.next hstray hadd, hadded⟩
    fun _ _ _ h hstep => ⟨h.1.next hstep.1 hstep.2, h.2.next h.1 hstep.2⟩
  rcases hkept.held w (by rw [hserving]; rfl) with ⟨-, hsent⟩ | ⟨-, hsent, -⟩
  · apply hsent.eq_of_length_le
    rw [List.length_take]
    omega
  · exact hsent

/-- In every run in which the unlock of line 258 is only called while no thread has the lock: a
request that `add_work` accepted is sent to the file server byte for byte by the worker that serves
it, whatever happened in between, if and only if its copy has all of its bytes. -/
theorem forwards_request_iff {dummy : Job} {es es' : List (Act numListener numWorkers)}
    {i : Fin numListener} {w : Fin numWorkers} {r : Request} {request rest : Bytes}
    (run : Run (guarded StrayMeetsFree (stepOf (next left maxQueueSize))) (init dummy) es s)
    (hread : s.threads.pc (.inl i) = .addFull r) (hbuffer : r.buffer = request ++ rest)
    (hbytes : r.bytesRead = request.length)
    (hadd : next left maxQueueSize s (.move (.run (.inl i))) = some s')
    (haccepted : s'.threads.pc (.inl i) ≠ .fullUnlock)
    (run' : Run (guarded StrayMeetsFree (stepOf (next left maxQueueSize))) s' es' t)
    (hserving : t.threads.pc (.inr w) = .serving s.threads.queue.brk)
    (hall : (t.sent w).length = r.bytesRead) :
    ((0 : UInt8) ∈ r.buffer ∧ t.sent w = request) ↔
      CopiedWhole request rest (left s.threads.queue.brk) := by
  rw [sent_of_run run hread hadd haccepted run' hserving hall, hbuffer, hbytes, Int.toNat_natCast]
  exact take_jobBlock_iff request rest (left s.threads.queue.brk) r.clientFd

/-- What `malloc` left in the blocks of the jobs below. -/
def zeroBlocks : Nat → Bytes := fun _ => List.replicate 10000 0

/-- Listener `i` reads a request in a run over `before` and adds it, and worker 0 has sent all of it
after a run over `behind`. -/
structure Served (step : Proxy numListener 1 → Act numListener 1 → Proxy numListener 1 → Prop)
    (i : Fin numListener) (r : Request) (before behind : List (Act numListener 1))
    (s s' t : Proxy numListener 1) : Prop where
  before : Run step (init emptyCell) before s
  read : s.threads.pc (.inl i) = .addFull r
  add : next zeroBlocks 100 s (.move (.run (.inl i))) = some s'
  accepted : s'.threads.pc (.inl i) ≠ .fullUnlock
  behind : Run step s' behind t
  serving : t.threads.pc (.inr 0) = .serving s.threads.queue.brk
  all : (t.sent 0).length = r.bytesRead

/-- Listener 0 reads a request and takes the lock. -/
def readTrace (r : Request) : List (Act 1 1) := [.move (.accept 0 r), .move (.run (.inl 0))]

/-- It links the job and signals, and the worker takes the job and sends it with one `write`. -/
def serveTrace (size : Nat) : List (Act 1 1) :=
  List.replicate 4 (.move (.run (.inl 0))) ++ .move (.signal 0 []) ::
    List.replicate 7 (.move (.run (.inr 0))) ++ [.write 0 size]

/-- The theorem at a request of six bytes without a NUL. -/
theorem forwards_request_iff_file_request :
    ∃ s s' t, Served (guarded StrayMeetsFree (stepOf (next zeroBlocks 100))) 0 fileRequest
      (readTrace fileRequest) (serveTrace 6) s s' t ∧
      t.sent 0 = [0x47, 0x45, 0x54, 0x20, 0x2f, 0x33] := by
  have htrace : ∃ s s' t : Proxy 1 1,
      runOf (fun p e => if p.StrayMeetsFree e then next zeroBlocks 100 p e else none)
        (init emptyCell) (readTrace fileRequest) = some s ∧
      s.threads.pc (.inl 0) = .addFull fileRequest ∧
      next zeroBlocks 100 s (.move (.run (.inl 0))) = some s' ∧
      s'.threads.pc (.inl 0) = .addEmpty 1 ∧
      runOf (fun p e => if p.StrayMeetsFree e then next zeroBlocks 100 p e else none)
        s' (serveTrace 6) = some t ∧
      t.threads.pc (.inr 0) = .serving s.threads.queue.brk ∧ (t.sent 0).length = 6 :=
    ⟨_, _, _, rfl, rfl, rfl, rfl, rfl, rfl, rfl⟩
  obtain ⟨s, s', t, hs, hread, hadd, hempty, ht, hserving, hlen⟩ := htrace
  have haccepted : s'.threads.pc (.inl 0) ≠ .fullUnlock := by rw [hempty]; simp
  have hall : ((t.sent 0).length : Int) = fileRequest.bytesRead := by rw [hlen]; rfl
  have hbuffer : fileRequest.buffer = [0x47, 0x45, 0x54, 0x20, 0x2f, 0x33] ++ [0] := rfl
  have run := run_guarded_of_runOf hs
  have run' := run_guarded_of_runOf ht
  have hwhole : CopiedWhole [0x47, 0x45, 0x54, 0x20, 0x2f, 0x33] [0]
      (zeroBlocks s.threads.queue.brk) :=
    copiedWhole_of_last _ (by decide) (.inl (by decide))
  exact ⟨s, s', t, ⟨run, hread, hadd, haccepted, run', hserving, hall⟩,
    ((forwards_request_iff run hread hbuffer rfl hadd haccepted run' hserving hall).mpr
      hwhole).2⟩

/-- A request of eight bytes, the seventh of them a NUL. -/
def nulRequest : Request := ⟨[0x47, 0x45, 0x54, 0x20, 0x2f, 0x33, 0, 0x61, 0], 4, 8⟩

/-- A request of nine bytes, with a line end. -/
def lineRequest : Request := ⟨[0x47, 0x45, 0x54, 0x20, 0x2f, 0x33, 0x20, 0x0d, 0x0a, 0], 4, 9⟩

/-- A listener finds the queue empty, and another one reads a request and takes the lock. -/
def emptyTrace (stray reader : Fin numListener) (r : Request) : List (Act numListener 1) :=
  [.move (.accept stray getJobRequest), .move (.run (.inl stray)), .move (.accept reader r),
    .move (.run (.inl reader))]

/-- The reader links the job. The worker has the lock and the address of the job when the first
listener unlocks, and a third one takes the job too and cuts its block. -/
def takenTwiceTrace (stray reader taker : Fin numListener) : List (Act numListener 1) :=
  List.replicate 4 (.move (.run (.inl reader))) ++
    [.move (.accept taker getJobRequest), .move (.run (.inl taker))] ++
    List.replicate 3 (.move (.run (.inr 0))) ++ .move (.run (.inl stray)) ::
    List.replicate 2 (.move (.run (.inl taker))) ++ .move (.run (.inr 0)) ::
    List.replicate 3 (.move (.run (.inl taker))) ++ List.replicate 3 (.move (.run (.inr 0))) ++
    [.strtok taker, .write 0 9]

/-- The byte behind a NUL is lost: the file server gets what `malloc` left there. And a request
whose copy has all of its bytes is altered where the stray unlock lets a listener take the job of a
worker. -/
theorem request_not_forwarded :
    (∃ s s' t, Served (guarded StrayMeetsFree (stepOf (next zeroBlocks 100))) 0 nulRequest
      (readTrace nulRequest) (serveTrace 8) s s' t ∧
      t.sent 0 = [0x47, 0x45, 0x54, 0x20, 0x2f, 0x33, 0, 0]) ∧
    ∃ s s' t : Proxy 3 1, Served (stepOf (next zeroBlocks 100)) 0 lineRequest
      (emptyTrace 2 0 lineRequest) (takenTwiceTrace 2 0 1) s s' t ∧
      t.sent 0 = [0x47, 0x45, 0x54, 0x20, 0x2f, 0x33, 0x20, 0, 0x0a] := by
  constructor
  · have htrace : ∃ s s' t : Proxy 1 1,
        runOf (fun p e => if p.StrayMeetsFree e then next zeroBlocks 100 p e else none)
          (init emptyCell) (readTrace nulRequest) = some s ∧
        s.threads.pc (.inl 0) = .addFull nulRequest ∧
        next zeroBlocks 100 s (.move (.run (.inl 0))) = some s' ∧
        s'.threads.pc (.inl 0) = .addEmpty 1 ∧
        runOf (fun p e => if p.StrayMeetsFree e then next zeroBlocks 100 p e else none)
          s' (serveTrace 8) = some t ∧
        t.threads.pc (.inr 0) = .serving s.threads.queue.brk ∧
        t.sent 0 = [0x47, 0x45, 0x54, 0x20, 0x2f, 0x33, 0, 0] :=
      ⟨_, _, _, rfl, rfl, rfl, rfl, rfl, rfl, rfl⟩
    obtain ⟨s, s', t, hs, hread, hadd, hempty, ht, hserving, hsent⟩ := htrace
    exact ⟨s, s', t, ⟨run_guarded_of_runOf hs, hread, hadd, by rw [hempty]; simp,
      run_guarded_of_runOf ht, hserving, by rw [hsent]; rfl⟩, hsent⟩
  · have htrace : ∃ s s' t : Proxy 3 1,
        runOf (next zeroBlocks 100) (init emptyCell) (emptyTrace 2 0 lineRequest) = some s ∧
        s.threads.pc (.inl 0) = .addFull lineRequest ∧
        next zeroBlocks 100 s (.move (.run (.inl 0))) = some s' ∧
        s'.threads.pc (.inl 0) = .addEmpty 1 ∧
        runOf (next zeroBlocks 100) s' (takenTwiceTrace 2 0 1) = some t ∧
        t.threads.pc (.inr 0) = .serving s.threads.queue.brk ∧
        t.sent 0 = [0x47, 0x45, 0x54, 0x20, 0x2f, 0x33, 0x20, 0, 0x0a] :=
      ⟨_, _, _, rfl, rfl, rfl, rfl, rfl, rfl, rfl⟩
    obtain ⟨s, s', t, hs, hread, hadd, hempty, ht, hserving, hsent⟩ := htrace
    exact ⟨s, s', t, ⟨run_of_runOf hs, hread, hadd, by rw [hempty]; simp,
      run_of_runOf ht, hserving, by rw [hsent]; rfl⟩, hsent⟩

end Proxy

end Cs537.P6
