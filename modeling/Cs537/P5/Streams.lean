import Cs537.P5.Pipe

/-!
# Streams through a pipe

What the processes that use a pipe can rely on, whatever order they run in: the bytes come out in
the order in which they went in, each call tells the truth about its bytes, and the end of the
stream is announced only when it is the end. Wakeups are a matter of their own.
-/

namespace Cs537.P5

open Cs537.Lib

/-! ## Histories -/

namespace PipeOutcome

/-- The bytes a call has stored. -/
def put : PipeOutcome → List UInt8
  | wrote bytes => bytes
  | writeFailed stored _ => stored
  | received _ _ | readFailed => []

/-- The bytes a call has copied out. -/
def got : PipeOutcome → List UInt8
  | received _ bytes => bytes
  | wrote _ | writeFailed _ _ | readFailed => []

/-- The buffer of a call of `pipewrite`. -/
def asked : PipeOutcome → List (List UInt8)
  | wrote bytes => [bytes]
  | writeFailed stored left => [stored ++ left]
  | received _ _ | readFailed => []

end PipeOutcome

namespace PipeCall

/-- The bytes stored so far by a call that is going on. -/
def put : PipeCall → List UInt8
  | write stored _ => stored
  | read _ => []

def asked : PipeCall → List (List UInt8)
  | write stored left => [stored ++ left]
  | read _ => []

end PipeCall

namespace PipeSystem

variable {s s' : PipeSystem} {queue : List UInt8} {p q n : Nat} {stored left : List UInt8}

/-- All that was read. -/
def received (s : PipeSystem) : List UInt8 := s.outcomes.flatMap fun o => o.2.got

/-- What a process has put into the stream. -/
def storedBy (s : PipeSystem) (p : Nat) : List UInt8 :=
  (s.stored.filter fun b => b.1 = p).map Prod.snd

section Accounts

variable {α : Type*} (f : PipeOutcome → List α) (g : PipeCall → List α)

/-- The calls of a process taken together, the ended ones first. -/
def account (s : PipeSystem) (p : Nat) : List α :=
  ((s.outcomes.filter fun o => o.1 = p).flatMap fun o => f o.2) ++ (s.call p).elim [] g

theorem account_of_call (s : PipeSystem) {c : PipeCall} (hcall : s.call p = some c) :
    s.account f g p = ((s.outcomes.filter fun o => o.1 = p).flatMap fun o => f o.2) ++ g c := by
  unfold account
  rw [hcall, Option.elim_some]

theorem account_finish_self (s : PipeSystem) (p : Nat) (o : PipeOutcome) :
    (s.finish p o).account f g p =
      ((s.outcomes.filter fun o => o.1 = p).flatMap fun o => f o.2) ++ f o := by
  have hself : [(p, o)].filter (fun o => decide (o.1 = p)) = [(p, o)] :=
    List.filter_cons_of_pos (decide_eq_true rfl)
  unfold account finish
  dsimp only
  rw [Function.update_self, Option.elim_none, List.append_nil, List.filter_append,
    List.flatMap_append, hself, List.flatMap_singleton]

theorem account_finish_of_ne (s : PipeSystem) (o : PipeOutcome) (hne : q ≠ p) :
    (s.finish p o).account f g q = s.account f g q := by
  unfold account finish
  dsimp only
  rw [Function.update_of_ne hne, List.filter_append, List.filter_cons_of_neg, List.filter_nil,
    List.append_nil]
  rw [decide_eq_true_eq]
  exact hne.symm

/-- The account of the others when one process starts a call or goes on with it. -/
theorem account_update_of_ne (s : PipeSystem) (c : PipeCall) (hne : q ≠ p)
    (houtcomes : s'.outcomes = s.outcomes) (hcall : s'.call = Function.update s.call p (some c)) :
    s'.account f g q = s.account f g q := by
  unfold account
  rw [houtcomes, hcall, Function.update_of_ne hne]

theorem account_congr (houtcomes : s'.outcomes = s.outcomes) (hcall : s'.call = s.call) (q : Nat) :
    s'.account f g q = s.account f g q := by
  unfold account
  rw [houtcomes, hcall]

end Accounts

/-- What the calls of a process say that they have stored. -/
def writtenBy (s : PipeSystem) (p : Nat) : List UInt8 := s.account PipeOutcome.put PipeCall.put p

/-- The buffers that the calls of a process were to write. -/
def askedBy (s : PipeSystem) (p : Nat) : List (List UInt8) :=
  s.account PipeOutcome.asked PipeCall.asked p

/-- The buffers that events hand to the calls of a process. -/
def Event.asked (p : Nat) : Event → List (List UInt8)
  | .write q bytes => if q = p then [bytes] else []
  | _ => []

/-- Some bytes of process `p` go into the pipe. -/
def putAll (s : PipeSystem) (p : Nat) (pipe : Pipe) (now : List UInt8) : PipeSystem :=
  { s with pipe := pipe, stored := s.stored ++ now.map (p, ·) }

/-- The sleepers on a channel are woken. -/
def wake (s : PipeSystem) (c : PipeChannel) : PipeSystem := { s with asleep := wakeup s.asleep c }

theorem received_finish (s : PipeSystem) (p : Nat) (o : PipeOutcome) :
    (s.finish p o).received = s.received ++ o.got := by
  unfold received finish
  rw [List.flatMap_append, List.flatMap_singleton]

theorem storedBy_putAll_self (s : PipeSystem) (p : Nat) (pipe : Pipe) (now : List UInt8) :
    (s.putAll p pipe now).storedBy p = s.storedBy p ++ now := by
  have hall : (now.map (p, ·)).filter (fun b => decide (b.1 = p)) = now.map (p, ·) := by
    rw [List.filter_eq_self]
    intro b hb
    obtain ⟨c, -, rfl⟩ := List.mem_map.mp hb
    exact decide_eq_true rfl
  unfold storedBy putAll
  rw [List.filter_append, List.map_append, hall, List.map_map]
  exact congrArg _ (List.map_id now)

theorem storedBy_putAll_of_ne (s : PipeSystem) (pipe : Pipe) (now : List UInt8) (hne : q ≠ p) :
    (s.putAll p pipe now).storedBy q = s.storedBy q := by
  have hnone : (now.map (p, ·)).filter (fun b => decide (b.1 = q)) = [] := by
    rw [List.filter_eq_nil_iff]
    intro b hb
    obtain ⟨c, -, rfl⟩ := List.mem_map.mp hb
    rw [decide_eq_true_eq]
    exact hne.symm
  unfold storedBy putAll
  rw [List.filter_append, hnone, List.append_nil]

/-! ## What the stretches do -/

/-- The three ways in which a stretch of `pipewrite` can end. -/
theorem runWrite_cases (h : s.pipe.Holds queue) (p : Nat) (stored left : List UInt8) :
    ∃ pipe now, pipe.Holds (queue ++ now) ∧ pipe.readopen = s.pipe.readopen ∧
      pipe.writeopen = s.pipe.writeopen ∧
      ((left = now ∧ s.runWrite p stored left =
          ((s.putAll p pipe now).wake .nread).finish p (.wrote (stored ++ now))) ∨
        (∃ left', left = now ++ left' ∧ left' ≠ [] ∧ (queue ++ now).length = 512 ∧
          (s.pipe.readopen = false ∨ s.killed p = true) ∧ s.runWrite p stored left =
            (s.putAll p pipe now).finish p (.writeFailed (stored ++ now) left')) ∨
        (∃ left', left = now ++ left' ∧ left' ≠ [] ∧ (queue ++ now).length = 512 ∧
          s.pipe.readopen = true ∧ s.killed p = false ∧ s.runWrite p stored left =
            ((s.putAll p pipe now).wake .nread).sleep p .nwrite
              (.write (stored ++ now) left'))) := by
  obtain ⟨now, hwrote⟩ := Pipe.wrote_pipewrite (s.killed p) left s.pipe h
  have hnow :
      left.take (left.length - (s.pipe.pipewrite (s.killed p) left).2.left.length) = now := by
    have hsplit := hwrote.split
    have hlength := congrArg List.length hsplit
    rw [List.length_append] at hlength
    rw [show left.length - (s.pipe.pipewrite (s.killed p) left).2.left.length = now.length by omega]
    conv => lhs; rw [hsplit]
    exact List.take_left
  refine ⟨_, now, hwrote.holds, hwrote.readopen, hwrote.writeopen, ?_⟩
  have hsplit := hwrote.split
  unfold runWrite
  dsimp only
  rw [hnow]
  cases hw : (s.pipe.pipewrite (s.killed p) left).2 with
  | wrote =>
    rw [hw] at hsplit
    exact .inl ⟨by rw [hsplit]; exact List.append_nil now, rfl⟩
  | failed left' =>
    rw [hw] at hsplit
    obtain ⟨hleft, hfull, hstop⟩ := hwrote.failed left' hw
    exact .inr (.inl ⟨left', hsplit, hleft, hfull, hstop, rfl⟩)
  | waits left' =>
    rw [hw] at hsplit
    obtain ⟨hleft, hfull, hopen, hkilled⟩ := hwrote.waits left' hw
    exact .inr (.inr ⟨left', hsplit, hleft, hfull, hopen, hkilled, rfl⟩)

/-- The three ways in which a stretch of `piperead` can end. -/
theorem runRead_cases (h : s.pipe.Holds queue) (p n : Nat) :
    (queue = [] ∧ s.pipe.writeopen = true ∧ s.killed p = true ∧
        s.runRead p n = s.finish p .readFailed) ∨
      (queue = [] ∧ s.pipe.writeopen = true ∧ s.killed p = false ∧
        s.runRead p n = s.sleep p .nread (.read n)) ∨
      ((queue = [] → s.pipe.writeopen = false) ∧ ∃ pipe, pipe.Holds (queue.drop n) ∧
        pipe.readopen = s.pipe.readopen ∧ pipe.writeopen = s.pipe.writeopen ∧
        s.runRead p n =
          ({ s with pipe := pipe }.wake .nwrite).finish p (.received n (queue.take n))) := by
  unfold runRead Pipe.piperead
  by_cases hempty : s.pipe.nread = s.pipe.nwrite ∧ s.pipe.writeopen = true
  · rw [if_pos hempty]
    have hqueue := h.empty_iff.mp hempty.1
    cases hkilled : s.killed p with
    | true => exact .inl ⟨hqueue, hempty.2, rfl, rfl⟩
    | false => exact .inr (.inl ⟨hqueue, hempty.2, rfl, rfl⟩)
  · rw [if_neg hempty]
    obtain ⟨hbytes, hholds, hread, hwrite⟩ := Pipe.copyout_eq n s.pipe h
    refine .inr (.inr ⟨?_, _, hholds, hread, hwrite, ?_⟩)
    · intro hqueue
      rw [← h.empty_iff] at hqueue
      exact Bool.eq_false_iff.mpr fun hopen => hempty ⟨hqueue, hopen⟩
    · dsimp only
      rw [hbytes]
      rfl

/-- What `next` does, event by event. -/
theorem next_cases {e : Event} (hnext : s.next e = some s') :
    (∃ p bytes, e = .write p bytes ∧ s.call p = none ∧ s.killed p = false ∧ p ∈ s.writers ∧
        s' = { s with call := Function.update s.call p (some (.write [] bytes)) }) ∨
      (∃ p n, e = .read p n ∧ s.call p = none ∧ s.killed p = false ∧ p ∈ s.readers ∧
        s' = { s with call := Function.update s.call p (some (.read n)) }) ∨
      (∃ p stored left, e = .run p ∧ s.asleep p = none ∧ s.call p = some (.write stored left) ∧
        s' = s.runWrite p stored left) ∨
      (∃ p n, e = .run p ∧ s.asleep p = none ∧ s.call p = some (.read n) ∧ s' = s.runRead p n) ∨
      (∃ p, e = .kill p ∧ s' = { s with
        killed := Function.update s.killed p true, asleep := Function.update s.asleep p none }) ∨
      (∃ p q, e = .share p q true ∧ p ∈ s.writers ∧ s' = { s with writers := q :: s.writers }) ∨
      (∃ p q, e = .share p q false ∧ p ∈ s.readers ∧ s' = { s with readers := q :: s.readers }) ∨
      ∃ p writable, e = .close p writable ∧ s.call p = none ∧ s' = s.fileclose p writable := by
  cases e with
  | write p bytes =>
    simp only [next, Option.ite_none_right_eq_some, Option.some.injEq, Option.isNone_iff_eq_none]
      at hnext
    obtain ⟨⟨hcall, hkilled, hmem⟩, rfl⟩ := hnext
    exact .inl ⟨p, bytes, rfl, hcall, hkilled, hmem, rfl⟩
  | read p n =>
    simp only [next, Option.ite_none_right_eq_some, Option.some.injEq, Option.isNone_iff_eq_none]
      at hnext
    obtain ⟨⟨hcall, hkilled, hmem⟩, rfl⟩ := hnext
    exact .inr (.inl ⟨p, n, rfl, hcall, hkilled, hmem, rfl⟩)
  | run p =>
    unfold next at hnext
    dsimp only at hnext
    split at hnext
    · rename_i stored left hasleep hcall
      cases hnext
      exact .inr (.inr (.inl ⟨p, stored, left, rfl, hasleep, hcall, rfl⟩))
    · rename_i n hasleep hcall
      cases hnext
      exact .inr (.inr (.inr (.inl ⟨p, n, rfl, hasleep, hcall, rfl⟩)))
    · cases hnext
  | kill p =>
    cases hnext
    exact .inr (.inr (.inr (.inr (.inl ⟨p, rfl, rfl⟩))))
  | share p q writable =>
    cases writable with
    | true =>
      simp only [next, Option.ite_none_right_eq_some, Option.some.injEq] at hnext
      exact .inr (.inr (.inr (.inr (.inr (.inl ⟨p, q, rfl, hnext.1, hnext.2.symm⟩)))))
    | false =>
      simp only [next, Option.ite_none_right_eq_some, Option.some.injEq] at hnext
      exact .inr (.inr (.inr (.inr (.inr (.inr (.inl ⟨p, q, rfl, hnext.1, hnext.2.symm⟩))))))
  | close p writable =>
    simp only [next, Option.ite_none_right_eq_some, Option.some.injEq, Option.isNone_iff_eq_none]
      at hnext
    obtain ⟨⟨hcall, -⟩, rfl⟩ := hnext
    exact .inr (.inr (.inr (.inr (.inr (.inr (.inr ⟨p, writable, rfl, hcall, rfl⟩))))))

/-! ## The bytes -/

/-- The pipe holds the bytes between those read and those stored. -/
structure Stream (s : PipeSystem) (queue : List UInt8) : Prop where
  holds : s.pipe.Holds queue
  received : s.received ++ queue = s.stored.map Prod.snd
  written : ∀ p, s.storedBy p = s.writtenBy p

/-- A step that leaves the bytes and the calls' accounts alone. -/
theorem Stream.frame (h : s.Stream queue) (hholds : s'.pipe.Holds queue)
    (hstored : s'.stored = s.stored) (houtcomes : s'.outcomes = s.outcomes)
    (hwrittenBy : ∀ p, s'.writtenBy p = s.writtenBy p) : s'.Stream queue := by
  refine ⟨hholds, ?_, fun p => ?_⟩
  · have hreceived := h.received
    unfold PipeSystem.received at hreceived ⊢
    rw [houtcomes, hstored, hreceived]
  · have hwritten := h.written p
    unfold storedBy at hwritten ⊢
    rw [hstored, hwrittenBy, hwritten]

/-- A call that stores some bytes, and accounts for them. -/
theorem Stream.put (h : s.Stream queue) (hcall : s.call p = some (.write stored left)) {pipe : Pipe}
    {now : List UInt8} (hholds : pipe.Holds (queue ++ now)) (hpipe : s'.pipe = pipe)
    (hstored : s'.stored = (s.putAll p pipe now).stored) (hreceived : s'.received = s.received)
    (hself : s'.writtenBy p =
      ((s.outcomes.filter fun o => o.1 = p).flatMap fun o => o.2.put) ++ (stored ++ now))
    (hothers : ∀ q, q ≠ p → s'.writtenBy q = s.writtenBy q) : s'.Stream (queue ++ now) := by
  have hstoredBy : ∀ q, s'.storedBy q = (s.putAll p pipe now).storedBy q := by
    intro q
    unfold storedBy
    rw [hstored]
  refine ⟨hpipe ▸ hholds, ?_, fun q => ?_⟩
  · have hmap : (now.map (p, ·)).map Prod.snd = now := by
      rw [List.map_map]
      exact List.map_id now
    rw [hreceived, hstored, ← List.append_assoc, h.received]
    unfold putAll
    rw [List.map_append, hmap]
  · by_cases hq : q = p
    · subst hq
      have hwritten := h.written q
      unfold writtenBy at hwritten
      rw [account_of_call _ _ s hcall] at hwritten
      rw [hstoredBy, storedBy_putAll_self, hself, hwritten, ← List.append_assoc]
      rfl
    · rw [hstoredBy, storedBy_putAll_of_ne s pipe now hq, hothers q hq, h.written q]

/-- A call of `piperead` that ends with some bytes. -/
theorem Stream.got (h : s.Stream queue) (hcall : s.call p = some (.read n)) {pipe : Pipe}
    {bytes rest : List UInt8} (hholds : pipe.Holds rest) (hqueue : queue = bytes ++ rest)
    {o : PipeOutcome} (hput : o.put = []) (hgot : o.got = bytes)
    (asleep : Nat → Option PipeChannel) :
    ({ s with pipe := pipe, asleep := asleep }.finish p o).Stream rest := by
  refine ⟨hholds, ?_, fun q => ?_⟩
  · rw [received_finish, hgot, List.append_assoc, ← hqueue]
    exact h.received
  · have hwritten := h.written q
    unfold writtenBy at hwritten ⊢
    by_cases hq : q = p
    · subst hq
      rw [account_of_call _ _ s hcall] at hwritten
      rw [account_finish_self, hput]
      exact hwritten
    · rw [account_finish_of_ne _ _ _ o hq]
      exact hwritten

/-- What the last reference does to the flags does not matter here. -/
theorem fileclose_frame (s : PipeSystem) (p : Nat) (writable : Bool) :
    (∀ queue, (s.fileclose p writable).pipe.Holds queue ↔ s.pipe.Holds queue) ∧
      (s.fileclose p writable).stored = s.stored ∧
      (s.fileclose p writable).outcomes = s.outcomes ∧ (s.fileclose p writable).call = s.call := by
  unfold fileclose pipeclose
  cases writable with
  | true | false =>
    dsimp only
    split
    · exact ⟨fun _ => Iff.rfl, rfl, rfl, rfl⟩
    · exact ⟨fun _ => Iff.rfl, rfl, rfl, rfl⟩

theorem stream_runWrite (h : s.Stream queue) (hcall : s.call p = some (.write stored left)) :
    ∃ queue', (s.runWrite p stored left).Stream queue' := by
  obtain ⟨pipe, now, hholds, -, -, ⟨-, heq⟩ | ⟨left', -, -, -, -, heq⟩ |
    ⟨left', -, -, -, -, -, heq⟩⟩ := runWrite_cases h.holds p stored left
  · rw [heq]
    refine ⟨_, h.put hcall hholds rfl rfl ?_ ?_ ?_⟩
    · rw [received_finish]
      exact List.append_nil _
    · exact account_finish_self _ _ _ _ _
    · exact fun q hq => account_finish_of_ne _ _ _ _ hq
  · rw [heq]
    refine ⟨_, h.put hcall hholds rfl rfl ?_ ?_ ?_⟩
    · rw [received_finish]
      exact List.append_nil _
    · exact account_finish_self _ _ _ _ _
    · exact fun q hq => account_finish_of_ne _ _ _ _ hq
  · rw [heq]
    refine ⟨_, h.put hcall hholds rfl rfl rfl ?_ ?_⟩
    · refine account_of_call _ _ _ (c := .write (stored ++ now) left') ?_
      exact Function.update_self ..
    · exact fun q hq => account_update_of_ne _ _ s _ hq rfl rfl

theorem stream_runRead (h : s.Stream queue) (hcall : s.call p = some (.read n)) :
    ∃ queue', (s.runRead p n).Stream queue' := by
  obtain ⟨-, -, -, heq⟩ | ⟨-, -, -, heq⟩ | ⟨-, pipe, hholds, -, -, heq⟩ :=
    runRead_cases h.holds p n
  · exact ⟨_, heq ▸ h.got hcall h.holds rfl rfl rfl s.asleep⟩
  · refine ⟨queue, heq ▸ h.frame h.holds rfl rfl fun q => ?_⟩
    by_cases hq : q = p
    · subst hq
      refine (account_of_call _ _ _ (Function.update_self ..)).trans ?_
      exact (account_of_call _ _ s hcall).symm
    · exact account_update_of_ne _ _ s _ hq rfl rfl
  · exact ⟨_, heq ▸ h.got hcall hholds (List.take_append_drop n queue).symm rfl rfl _⟩

/-- A call that has just begun has nothing in its account. -/
theorem writtenBy_begin (hcall : s.call p = none) {c : PipeCall} (hput : c.put = []) (q : Nat) :
    { s with call := Function.update s.call p (some c) }.writtenBy q = s.writtenBy q := by
  by_cases hq : q = p
  · subst hq
    refine (account_of_call _ _ _ (Function.update_self ..)).trans ?_
    unfold writtenBy account
    rw [hput, hcall, Option.elim_none]
  · exact account_update_of_ne _ _ s c hq rfl rfl

theorem stream_next {e : Event} (h : s.Stream queue) (hnext : s.next e = some s') :
    ∃ queue', s'.Stream queue' := by
  rcases next_cases hnext with ⟨p, bytes, -, hcall, -, -, rfl⟩ | ⟨p, n, -, hcall, -, -, rfl⟩ |
    ⟨p, stored, left, -, -, hcall, rfl⟩ | ⟨p, n, -, -, hcall, rfl⟩ | ⟨p, -, rfl⟩ |
    ⟨p, q, -, -, rfl⟩ | ⟨p, q, -, -, rfl⟩ | ⟨p, writable, -, -, rfl⟩
  · exact ⟨queue, h.frame h.holds rfl rfl (writtenBy_begin hcall rfl)⟩
  · exact ⟨queue, h.frame h.holds rfl rfl (writtenBy_begin hcall rfl)⟩
  · exact stream_runWrite h hcall
  · exact stream_runRead h hcall
  · exact ⟨queue, h.frame h.holds rfl rfl fun _ => rfl⟩
  · exact ⟨queue, h.frame h.holds rfl rfl fun _ => rfl⟩
  · exact ⟨queue, h.frame h.holds rfl rfl fun _ => rfl⟩
  · obtain ⟨hholds, hstored, houtcomes, hcall⟩ := fileclose_frame s p writable
    exact ⟨queue, h.frame ((hholds queue).mpr h.holds) hstored houtcomes
      (account_congr _ _ houtcomes hcall)⟩

/-- A call that goes on is still for its buffer. -/
theorem askedBy_runWrite (h : s.pipe.Holds queue) (hcall : s.call p = some (.write stored left))
    (q : Nat) : (s.runWrite p stored left).askedBy q = s.askedBy q := by
  obtain ⟨pipe, now, -, -, -, ⟨hsplit, heq⟩ | ⟨left', hsplit, -, -, -, heq⟩ |
    ⟨left', hsplit, -, -, -, -, heq⟩⟩ := runWrite_cases h p stored left
  all_goals
    rw [heq]
    unfold askedBy
    by_cases hq : q = p
  · subst hq
    rw [account_finish_self, account_of_call _ _ s hcall, hsplit]
    rfl
  · exact account_finish_of_ne _ _ _ _ hq
  · subst hq
    rw [account_finish_self, account_of_call _ _ s hcall, hsplit]
    exact congrArg (fun bytes => _ ++ [bytes]) (List.append_assoc _ _ _)
  · exact account_finish_of_ne _ _ _ _ hq
  · subst hq
    rw [account_of_call _ _ s hcall, hsplit]
    refine (account_of_call _ _ _ (Function.update_self ..)).trans ?_
    exact congrArg (fun bytes => _ ++ [bytes]) (List.append_assoc _ _ _)
  · exact account_update_of_ne _ _ s _ hq rfl rfl

theorem askedBy_runRead (h : s.pipe.Holds queue) (hcall : s.call p = some (.read n)) (q : Nat) :
    (s.runRead p n).askedBy q = s.askedBy q := by
  obtain ⟨-, -, -, heq⟩ | ⟨-, -, -, heq⟩ | ⟨-, pipe, -, -, -, heq⟩ := runRead_cases h p n
  all_goals
    rw [heq]
    unfold askedBy
    by_cases hq : q = p
  · subst hq
    rw [account_finish_self, account_of_call _ _ s hcall]
    rfl
  · exact account_finish_of_ne _ _ _ _ hq
  · subst hq
    rw [account_of_call _ _ s hcall]
    exact account_of_call _ _ _ (Function.update_self ..)
  · exact account_update_of_ne _ _ s _ hq rfl rfl
  · subst hq
    rw [account_finish_self, account_of_call _ _ s hcall]
    rfl
  · exact account_finish_of_ne _ _ _ _ hq

theorem askedBy_begin (hcall : s.call p = none) (c : PipeCall) (q : Nat) :
    { s with call := Function.update s.call p (some c) }.askedBy q =
      s.askedBy q ++ if p = q then c.asked else [] := by
  by_cases hq : q = p
  · subst hq
    refine (account_of_call _ _ _ (Function.update_self ..)).trans ?_
    unfold askedBy account
    rw [if_pos rfl, hcall, Option.elim_none, List.append_nil]
  · rw [if_neg fun hp => hq hp.symm, List.append_nil]
    exact account_update_of_ne _ _ s _ hq rfl rfl

/-- The buffers in the account are those that were handed over. -/
theorem askedBy_next {e : Event} (h : s.pipe.Holds queue) (hnext : s.next e = some s') (q : Nat) :
    s'.askedBy q = s.askedBy q ++ e.asked q := by
  rcases next_cases hnext with ⟨p, bytes, rfl, hcall, -, -, rfl⟩ | ⟨p, n, rfl, hcall, -, -, rfl⟩ |
    ⟨p, stored, left, rfl, -, hcall, rfl⟩ | ⟨p, n, rfl, -, hcall, rfl⟩ | ⟨p, rfl, rfl⟩ |
    ⟨p, r, rfl, -, rfl⟩ | ⟨p, r, rfl, -, rfl⟩ | ⟨p, writable, rfl, -, rfl⟩
  · exact askedBy_begin hcall _ q
  all_goals rw [show Event.asked q _ = [] from rfl, List.append_nil]
  · refine (askedBy_begin hcall _ q).trans ?_
    rw [show (PipeCall.read n).asked = [] from rfl, ite_self, List.append_nil]
  · exact askedBy_runWrite h hcall q
  · exact askedBy_runRead h hcall q
  · rfl
  · rfl
  · rfl
  · obtain ⟨-, -, houtcomes, hcall⟩ := fileclose_frame s p writable
    exact account_congr _ _ houtcomes hcall q

theorem stream_opened (data : Nat → UInt8) (p : Nat) : (opened data p).Stream [] where
  holds := Pipe.holds_pipealloc data
  received := rfl
  written _ := rfl

theorem stream_of_run {data : Nat → UInt8} {es : List Event}
    (run : Run (stepOf next) (opened data p) es s) : ∃ queue, s.Stream queue := by
  refine run.invariant (fun t : PipeSystem => ∃ queue, t.Stream queue) ⟨[], stream_opened data p⟩ ?_
  rintro t e u ⟨queue, h⟩ hstep
  exact stream_next h hstep

theorem askedBy_of_run {data : Nat → UInt8} {es : List Event}
    (run : Run (stepOf next) (opened data p) es s) (q : Nat) :
    s.askedBy q = es.flatMap (Event.asked q) := by
  induction run with
  | nil => rfl
  | snoc before hstep ih =>
    obtain ⟨queue, h⟩ := stream_of_run before
    rw [askedBy_next h.holds hstep, ih, List.flatMap_append, List.flatMap_singleton]

/-- Bytes leave a pipe in the order in which they entered it, none is lost and none is made up. The
calls of `pipewrite` of a process are for the buffers it asked to write, and what they say that they
have stored of them is what it has put into the stream. -/
theorem fifo {data : Nat → UInt8} {es : List Event}
    (run : Run (stepOf next) (opened data p) es s) :
    ∃ queue, s.pipe.Holds queue ∧ queue.length ≤ 512 ∧
      s.received ++ queue = s.stored.map Prod.snd ∧
      ∀ q, s.storedBy q = s.writtenBy q ∧ s.askedBy q = es.flatMap (Event.asked q) := by
  obtain ⟨queue, h⟩ := stream_of_run run
  exact ⟨queue, h.holds, h.holds.length_le, h.received,
    fun q => ⟨h.written q, askedBy_of_run run q⟩⟩

/-- Two writers and a reader that takes part of what they wrote. -/
def twoWriters : List Event :=
  [.share 0 1 true, .write 0 [3, 1], .write 1 [4], .run 1, .run 0, .read 0 2, .run 0]

theorem fifo_two_writers : ∃ s, runOf next (opened (fun _ => 0) 0) twoWriters = some s ∧
    ∃ queue, s.pipe.Holds queue ∧ queue.length ≤ 512 ∧
      s.received ++ queue = s.stored.map Prod.snd ∧
      ∀ q, s.storedBy q = s.writtenBy q ∧ s.askedBy q = twoWriters.flatMap (Event.asked q) := by
  obtain ⟨s, hs⟩ := Option.isSome_iff_exists.mp
    (show (runOf next (opened (fun _ => 0) 0) twoWriters).isSome = true by decide +kernel)
  exact ⟨s, hs, fifo (run_of_runOf hs)⟩

end PipeSystem

end Cs537.P5
