import Cs537.P5.Streams

/-!
# Ends of a pipe and wakeups

Why calls on a pipe fail or find the end of the stream, and when a process that sleeps on a pipe
has to sleep.
-/

namespace Cs537.P5

open Cs537.Lib

namespace PipeSystem

variable {s s' : PipeSystem} {queue : List UInt8} {p q n : Nat} {stored left : List UInt8}

/-! ## References -/

/-- Where the calls sleep. -/
def callChannel : PipeCall → PipeChannel
  | .read _ => .nread
  | .write _ _ => .nwrite

/-- The end that the calls need which sleep on a channel. -/
def holders (s : PipeSystem) : PipeChannel → List Nat
  | .nread => s.readers
  | .nwrite => s.writers

def isOpen (s : PipeSystem) : PipeChannel → Bool
  | .nread => s.pipe.readopen
  | .nwrite => s.pipe.writeopen

/-- An end is open as long as it is referred to, processes in a call refer to theirs, and only they
sleep. -/
structure Refs (s : PipeSystem) : Prop where
  isOpen : ∀ c, s.isOpen c = true ↔ s.holders c ≠ []
  inCall : ∀ p call, s.call p = some call → p ∈ s.holders (callChannel call)
  asleep : ∀ p c, s.asleep p = some c →
    s.killed p = false ∧ ∃ call, s.call p = some call ∧ callChannel call = c

theorem wakeup_some {asleep : Nat → Option PipeChannel} {c d : PipeChannel} :
    wakeup asleep c p = some d ↔ asleep p = some d ∧ d ≠ c := by
  unfold wakeup
  constructor
  · intro h
    split at h
    · cases h
    · rename_i hne
      exact ⟨h, fun hd => hne (hd ▸ h)⟩
  · rintro ⟨h, hd⟩
    rw [if_neg, h]
    rw [h]
    exact fun heq => hd (Option.some.inj heq)

/-- A call of a process that is awake ends, and others may be woken. -/
theorem Refs.finish (h : s.Refs) (hp : s.asleep p = none) (o : PipeOutcome)
    (hholders : ∀ c, s'.holders c = s.holders c) (hopen : ∀ c, s'.isOpen c = s.isOpen c)
    (hcall : s'.call = s.call) (hkilled : s'.killed = s.killed)
    (hasleep : ∀ q c, s'.asleep q = some c → s.asleep q = some c) : (s'.finish p o).Refs where
  isOpen c := by
    refine show s'.isOpen c = true ↔ s'.holders c ≠ [] from ?_
    rw [hopen, hholders]
    exact h.isOpen c
  inCall q call hq := by
    refine show q ∈ s'.holders _ from ?_
    have hq' : Function.update s'.call p none q = some call := hq
    by_cases hqp : q = p
    · subst hqp
      rw [Function.update_self] at hq'
      cases hq'
    · rw [Function.update_of_ne hqp, hcall] at hq'
      rw [hholders]
      exact h.inCall q call hq'
  asleep q c hq := by
    have hq' := hasleep q c hq
    obtain ⟨hk, call, hqcall, hchannel⟩ := h.asleep q c hq'
    have hqp : q ≠ p := by
      rintro rfl
      rw [hp] at hq'
      cases hq'
    refine ⟨hkilled ▸ hk, call, ?_, hchannel⟩
    refine (Function.update_of_ne hqp ..).trans ?_
    rw [hcall, hqcall]

/-- A process in a call goes to sleep. -/
theorem Refs.sleep (h : s.Refs) {call call' : PipeCall} (hpcall : s.call p = some call)
    (hchannel : callChannel call' = callChannel call) (hpkilled : s.killed p = false)
    (hholders : ∀ c, s'.holders c = s.holders c) (hopen : ∀ c, s'.isOpen c = s.isOpen c)
    (hcall : s'.call = s.call) (hkilled : s'.killed = s.killed)
    (hasleep : ∀ q c, s'.asleep q = some c → s.asleep q = some c) :
    (s'.sleep p (callChannel call) call').Refs where
  isOpen c := by
    refine show s'.isOpen c = true ↔ s'.holders c ≠ [] from ?_
    rw [hopen, hholders]
    exact h.isOpen c
  inCall q d hq := by
    refine show q ∈ s'.holders _ from ?_
    have hq' : Function.update s'.call p (some call') q = some d := hq
    rw [hholders]
    by_cases hqp : q = p
    · subst hqp
      rw [Function.update_self] at hq'
      cases hq'
      rw [hchannel]
      exact h.inCall q call hpcall
    · rw [Function.update_of_ne hqp, hcall] at hq'
      exact h.inCall q d hq'
  asleep q c hq := by
    have hq' : Function.update s'.asleep p (some (callChannel call)) q = some c := hq
    refine show s'.killed q = false ∧
      ∃ d, Function.update s'.call p (some call') q = some d ∧ _ from ?_
    by_cases hqp : q = p
    · subst hqp
      rw [Function.update_self] at hq' ⊢
      cases hq'
      exact ⟨hkilled ▸ hpkilled, call', rfl, hchannel⟩
    · rw [Function.update_of_ne hqp] at hq' ⊢
      rw [hkilled, hcall]
      exact h.asleep q c (hasleep q c hq')

/-- A call begins. -/
theorem Refs.begin (h : s.Refs) (call : PipeCall) (hcall : s.call p = none)
    (hmem : p ∈ s.holders (callChannel call)) :
    Refs { s with call := Function.update s.call p (some call) } where
  isOpen := h.isOpen
  inCall q d hq := by
    have hq' : Function.update s.call p (some call) q = some d := hq
    by_cases hqp : q = p
    · subst hqp
      rw [Function.update_self] at hq'
      cases hq'
      exact hmem
    · rw [Function.update_of_ne hqp] at hq'
      exact h.inCall q d hq'
  asleep q c hq := by
    obtain ⟨hk, d, hd, hchannel⟩ := h.asleep q c hq
    have hqp : q ≠ p := by
      rintro rfl
      rw [hcall] at hd
      cases hd
    exact ⟨hk, d, (Function.update_of_ne hqp ..).trans hd, hchannel⟩

theorem Refs.kill (h : s.Refs) (p : Nat) : Refs { s with
    killed := Function.update s.killed p true, asleep := Function.update s.asleep p none } where
  isOpen := h.isOpen
  inCall := h.inCall
  asleep q c hq := by
    have hq' : Function.update s.asleep p none q = some c := hq
    have hqp : q ≠ p := by
      rintro rfl
      rw [Function.update_self] at hq'
      cases hq'
    rw [Function.update_of_ne hqp] at hq'
    obtain ⟨hk, hrest⟩ := h.asleep q c hq'
    exact ⟨(Function.update_of_ne hqp ..).trans hk, hrest⟩

theorem Refs.share (h : s.Refs) {c : PipeChannel} (hp : p ∈ s.holders c) (hcall : s'.call = s.call)
    (hkilled : s'.killed = s.killed) (hasleep : s'.asleep = s.asleep)
    (hopen : ∀ d, s'.isOpen d = s.isOpen d)
    (hholders : ∀ d, s'.holders d = if d = c then q :: s.holders c else s.holders d) :
    s'.Refs where
  isOpen d := by
    rw [hopen, hholders, h.isOpen]
    split
    · rename_i hd
      subst hd
      exact ⟨fun _ => List.cons_ne_nil _ _, fun _ => List.ne_nil_of_mem hp⟩
    · rfl
  inCall r call hr := by
    rw [hholders]
    have hmem := h.inCall r call (hcall ▸ hr)
    split
    · rename_i hd
      exact List.mem_cons_of_mem _ (hd ▸ hmem)
    · exact hmem
  asleep := by
    rw [hasleep, hkilled, hcall]
    exact h.asleep

/-- What is left of the references when a process gives one up. -/
theorem holders_fileclose (s : PipeSystem) (p : Nat) (writable : Bool) (c : PipeChannel) :
    let mine := if writable then PipeChannel.nwrite else .nread
    (s.fileclose p writable).holders c = (if c = mine then (s.holders c).erase p else s.holders c) ∧
      (s.fileclose p writable).isOpen c =
        (if c = mine ∧ (s.holders c).erase p = [] then false else s.isOpen c) := by
  cases writable with
  | true | false =>
    cases c with
    | nread | nwrite =>
      unfold fileclose pipeclose Pipe.pipeclose
      dsimp only
      split
      · rename_i hnil
        simp [holders, isOpen, hnil]
      · rename_i hnil
        simp [holders, isOpen, hnil]

theorem rest_fileclose (s : PipeSystem) (p : Nat) (writable : Bool) :
    (s.fileclose p writable).call = s.call ∧ (s.fileclose p writable).killed = s.killed ∧
      ((s.fileclose p writable).asleep = s.asleep ∨ ∃ c,
        (s.fileclose p writable).asleep = wakeup s.asleep c) := by
  unfold fileclose pipeclose
  cases writable with
  | true | false =>
    dsimp only
    split
    · exact ⟨rfl, rfl, .inr ⟨_, rfl⟩⟩
    · exact ⟨rfl, rfl, .inl rfl⟩

theorem asleep_fileclose {writable : Bool} {c : PipeChannel}
    (h : (s.fileclose p writable).asleep q = some c) : s.asleep q = some c := by
  obtain ⟨-, -, heq | ⟨d, heq⟩⟩ := rest_fileclose s p writable
  · rw [heq] at h
    exact h
  · rw [heq, wakeup_some] at h
    exact h.1

theorem Refs.fileclose (h : s.Refs) (hp : s.call p = none) (writable : Bool) :
    (s.fileclose p writable).Refs := by
  obtain ⟨hcall, hkilled, -⟩ := rest_fileclose s p writable
  refine ⟨fun c => ?_, fun q call hq => ?_, fun q c hq => ?_⟩
  · obtain ⟨hholders, hopen⟩ := holders_fileclose s p writable c
    rw [hholders, hopen]
    by_cases hc : c = if writable then PipeChannel.nwrite else .nread
    · rw [if_pos hc]
      by_cases hnil : (s.holders c).erase p = []
      · rw [if_pos ⟨hc, hnil⟩]
        exact ⟨fun hfalse => absurd hfalse Bool.false_ne_true, fun hne => absurd hnil hne⟩
      · rw [if_neg fun hboth => hnil hboth.2, h.isOpen]
        refine ⟨fun _ => hnil, fun hne heq => hne ?_⟩
        rw [heq, List.erase_nil]
    · rw [if_neg hc, if_neg fun hboth => hc hboth.1]
      exact h.isOpen c
  · rw [hcall] at hq
    have hmem := h.inCall q call hq
    have hqp : q ≠ p := by
      rintro rfl
      rw [hp] at hq
      cases hq
    rw [(holders_fileclose s p writable (callChannel call)).1]
    by_cases hc : callChannel call = if writable then PipeChannel.nwrite else .nread
    · rw [if_pos hc]
      exact (List.mem_erase_of_ne hqp).mpr hmem
    · rw [if_neg hc]
      exact hmem
  · rw [hcall, hkilled]
    exact h.asleep q c (asleep_fileclose hq)

theorem refs_opened (data : Nat → UInt8) (p : Nat) : (opened data p).Refs where
  isOpen c := by
    cases c with
    | nread | nwrite => exact ⟨fun _ => List.cons_ne_nil _ _, fun _ => rfl⟩
  inCall _ _ hq := by cases hq
  asleep _ _ hq := by cases hq

/-- Flags and references are those of the state before. -/
theorem sameEnds (s' : PipeSystem) {pipe : Pipe} (hread : pipe.readopen = s.pipe.readopen)
    (hwrite : pipe.writeopen = s.pipe.writeopen) (hpipe : s'.pipe = pipe)
    (hreaders : s'.readers = s.readers) (hwriters : s'.writers = s.writers) (c : PipeChannel) :
    s'.holders c = s.holders c ∧ s'.isOpen c = s.isOpen c := by
  cases c with
  | nread => exact ⟨hreaders, (congrArg Pipe.readopen hpipe).trans hread⟩
  | nwrite => exact ⟨hwriters, (congrArg Pipe.writeopen hpipe).trans hwrite⟩

theorem refs_next {e : Event} (h : s.Refs) (hholds : s.pipe.Holds queue)
    (hnext : s.next e = some s') : s'.Refs := by
  rcases next_cases hnext with ⟨p, bytes, -, hcall, -, hmem, rfl⟩ |
    ⟨p, n, -, hcall, -, hmem, rfl⟩ | ⟨p, stored, left, -, hp, hcall, rfl⟩ |
    ⟨p, n, -, hp, hcall, rfl⟩ | ⟨p, -, rfl⟩ | ⟨p, q, -, hp, rfl⟩ | ⟨p, q, -, hp, rfl⟩ |
    ⟨p, writable, -, hp, rfl⟩
  · exact h.begin _ hcall hmem
  · exact h.begin _ hcall hmem
  · obtain ⟨pipe, now, -, hread, hwrite, hcases⟩ := runWrite_cases hholds p stored left
    have hends := fun c => sameEnds (s.putAll p pipe now) hread hwrite rfl rfl rfl c
    have hwoken : ∀ q c, wakeup s.asleep .nread q = some c → s.asleep q = some c :=
      fun q c hq => (wakeup_some.mp hq).1
    obtain ⟨-, heq⟩ | ⟨left', -, -, -, -, heq⟩ | ⟨left', -, -, -, -, hkilled, heq⟩ := hcases
    · rw [heq]
      exact h.finish hp _ (fun c => (hends c).1) (fun c => (hends c).2) rfl rfl hwoken
    · rw [heq]
      exact h.finish hp _ (fun c => (hends c).1) (fun c => (hends c).2) rfl rfl fun _ _ hq => hq
    · rw [heq]
      exact h.sleep hcall rfl hkilled (fun c => (hends c).1) (fun c => (hends c).2) rfl rfl hwoken
  · obtain ⟨-, -, -, heq⟩ | ⟨-, -, hkilled, heq⟩ | ⟨-, pipe, -, hread, hwrite, heq⟩ :=
      runRead_cases hholds p n
    · rw [heq]
      exact h.finish hp _ (fun _ => rfl) (fun _ => rfl) rfl rfl fun _ _ hq => hq
    · rw [heq]
      exact h.sleep hcall rfl hkilled (fun _ => rfl) (fun _ => rfl) rfl rfl fun _ _ hq => hq
    · rw [heq]
      have hends := fun c => sameEnds { s with pipe := pipe } hread hwrite rfl rfl rfl c
      exact h.finish hp _ (fun c => (hends c).1) (fun c => (hends c).2) rfl rfl
        fun q c hq => (wakeup_some.mp hq).1
  · exact h.kill p
  · refine h.share (c := .nwrite) (q := q) hp rfl rfl rfl (fun d => ?_) fun d => ?_
    · cases d <;> rfl
    · cases d <;> rfl
  · refine h.share (c := .nread) (q := q) hp rfl rfl rfl (fun d => ?_) fun d => ?_
    · cases d <;> rfl
    · cases d <;> rfl
  · exact h.fileclose hp writable

/-! ## What calls say -/

/-- What the outcome of a call of process `p` tells about the state afterwards. -/
def Told (s : PipeSystem) (p : Nat) : PipeOutcome → Prop
  | .wrote _ => True
  | .writeFailed _ left => left ≠ [] ∧ (s.pipe.readopen = false ∨ s.killed p = true)
  | .received n bytes => bytes.length ≤ n ∧
      (bytes = [] → n ≠ 0 → s.pipe.writeopen = false ∧ s.received = s.stored.map Prod.snd)
  | .readFailed => s.killed p = true

/-- What only goes one way. -/
structure Ages (s s' : PipeSystem) : Prop where
  isOpen : ∀ c, s.isOpen c = false → s'.isOpen c = false
  killed : ∀ p, s.killed p = true → s'.killed p = true
  stored : s.pipe.writeopen = false → s'.stored = s.stored
  outcomes : ∃ new, s'.outcomes = s.outcomes ++ new ∧ ∀ o ∈ new, s'.Told o.1 o.2

/-- Nothing follows the end of a stream. -/
theorem Told.age {o : PipeOutcome} (h : s.Told p o) (hages : s.Ages s') {queue' : List UInt8}
    (hstream : s'.Stream queue') : s'.Told p o := by
  obtain ⟨new, houtcomes, -⟩ := hages.outcomes
  cases o with
  | wrote bytes => trivial
  | readFailed => exact hages.killed p h
  | writeFailed stored left =>
    exact ⟨h.1, h.2.imp (hages.isOpen .nread) (hages.killed p)⟩
  | received n bytes =>
    refine ⟨h.1, fun hbytes hn => ?_⟩
    obtain ⟨hclosed, hall⟩ := h.2 hbytes hn
    refine ⟨hages.isOpen .nwrite hclosed, ?_⟩
    have hreceived := hstream.received
    have hmore : s'.received = s.received ++ new.flatMap fun o => o.2.got := by
      unfold PipeSystem.received
      rw [houtcomes, List.flatMap_append]
    rw [hages.stored hclosed, ← hall] at hreceived ⊢
    have hlength := congrArg List.length hreceived
    rw [hmore, List.length_append, List.length_append] at hlength
    have hqueue : queue' = [] := List.length_eq_zero_iff.mp (by omega)
    rwa [hqueue, List.append_nil] at hreceived

/-- A step without an outcome, and without bytes. -/
theorem Ages.frame (hopen : ∀ c, s.isOpen c = false → s'.isOpen c = false)
    (hkilled : ∀ p, s.killed p = true → s'.killed p = true) (hstored : s'.stored = s.stored)
    (houtcomes : s'.outcomes = s.outcomes) : s.Ages s' :=
  ⟨hopen, hkilled, fun _ => hstored, [], by rw [houtcomes, List.append_nil],
    fun _ ho => by cases ho⟩

theorem ages_runWrite (h : s.Refs) (hholds : s.pipe.Holds queue)
    (hcall : s.call p = some (.write stored left)) : s.Ages (s.runWrite p stored left) := by
  -- the writer itself keeps the end open
  have hopen : s.pipe.writeopen = true :=
    (h.isOpen .nwrite).mpr (List.ne_nil_of_mem (h.inCall p _ hcall))
  have hstored : ∀ {t : PipeSystem}, s.pipe.writeopen = false → t.stored = s.stored := by
    intro t hfalse
    rw [hopen] at hfalse
    cases hfalse
  obtain ⟨pipe, now, -, hread, hwrite, hcases⟩ := runWrite_cases hholds p stored left
  have hends := fun c => (sameEnds (s.putAll p pipe now) hread hwrite rfl rfl rfl c).2
  obtain ⟨-, heq⟩ | ⟨left', -, hleft, -, hstop, heq⟩ | ⟨left', -, -, -, -, hkilled, heq⟩ := hcases
  · rw [heq]
    refine ⟨fun c hc => (hends c).trans hc, fun _ hk => hk, hstored, [_], rfl, ?_⟩
    exact List.forall_mem_singleton.mpr trivial
  · rw [heq]
    refine ⟨fun c hc => (hends c).trans hc, fun _ hk => hk, hstored, [_], rfl, ?_⟩
    refine List.forall_mem_singleton.mpr ⟨hleft, ?_⟩
    exact hstop.imp_left fun hclosed => (hends .nread).trans hclosed
  · rw [heq]
    exact ⟨fun c hc => (hends c).trans hc, fun _ hk => hk, hstored, [],
      (List.append_nil _).symm, fun _ ho => by cases ho⟩

theorem ages_runRead (h : s.Stream queue) (p n : Nat) : s.Ages (s.runRead p n) := by
  obtain ⟨-, -, hkilled, heq⟩ | ⟨-, -, -, heq⟩ | ⟨hclosed, pipe, -, hread, hwrite, heq⟩ :=
    runRead_cases h.holds p n
  · rw [heq]
    exact ⟨fun _ hc => hc, fun _ hk => hk, fun _ => rfl, [_], rfl,
      List.forall_mem_singleton.mpr hkilled⟩
  · rw [heq]
    exact Ages.frame (fun _ hc => hc) (fun _ hk => hk) rfl rfl
  · rw [heq]
    have hends := fun c => (sameEnds { s with pipe := pipe } hread hwrite rfl rfl rfl c).2
    refine ⟨fun c hc => (hends c).trans hc, fun _ hk => hk, fun _ => rfl, [_], rfl, ?_⟩
    refine List.forall_mem_singleton.mpr ⟨List.length_take_le _ _, fun hbytes hn => ?_⟩
    have hqueue : queue = [] := (List.take_eq_nil_iff.mp hbytes).resolve_left hn
    refine ⟨(hends .nwrite).trans (hclosed hqueue), ?_⟩
    have hreceived := h.received
    rw [hqueue, List.append_nil] at hreceived
    refine (received_finish _ _ _).trans ?_
    rw [hqueue, List.take_nil]
    exact (List.append_nil _).trans hreceived

theorem ages_next {e : Event} (h : s.Refs) (hstream : s.Stream queue)
    (hnext : s.next e = some s') : s.Ages s' := by
  rcases next_cases hnext with ⟨p, bytes, -, -, -, -, rfl⟩ | ⟨p, n, -, -, -, -, rfl⟩ |
    ⟨p, stored, left, -, -, hcall, rfl⟩ | ⟨p, n, -, -, -, rfl⟩ | ⟨p, -, rfl⟩ |
    ⟨p, q, -, -, rfl⟩ | ⟨p, q, -, -, rfl⟩ | ⟨p, writable, -, -, rfl⟩
  · exact Ages.frame (fun _ hc => hc) (fun _ hk => hk) rfl rfl
  · exact Ages.frame (fun _ hc => hc) (fun _ hk => hk) rfl rfl
  · exact ages_runWrite h hstream.holds hcall
  · exact ages_runRead hstream p n
  · refine Ages.frame (fun c hc => ?_) (fun q hk => ?_) rfl rfl
    · cases c <;> exact hc
    · by_cases hq : q = p
      · subst hq
        exact Function.update_self ..
      · exact (Function.update_of_ne hq ..).trans hk
  · refine Ages.frame (fun c hc => ?_) (fun _ hk => hk) rfl rfl
    cases c <;> exact hc
  · refine Ages.frame (fun c hc => ?_) (fun _ hk => hk) rfl rfl
    cases c <;> exact hc
  · obtain ⟨-, hstored, houtcomes, -⟩ := fileclose_frame s p writable
    obtain ⟨-, hkilled, -⟩ := rest_fileclose s p writable
    refine Ages.frame (fun c hc => ?_) (fun q hk => hkilled ▸ hk) hstored houtcomes
    rw [(holders_fileclose s p writable c).2, hc, ite_self]

/-- What is true of all reachable states but for the sleepers. -/
structure Sane (s : PipeSystem) : Prop where
  stream : ∃ queue, s.Stream queue
  refs : s.Refs
  told : ∀ o ∈ s.outcomes, s.Told o.1 o.2

theorem sane_opened (data : Nat → UInt8) (p : Nat) : (opened data p).Sane where
  stream := ⟨[], stream_opened data p⟩
  refs := refs_opened data p
  told _ ho := by cases ho

theorem sane_next {e : Event} (h : s.Sane) (hnext : s.next e = some s') : s'.Sane := by
  obtain ⟨⟨queue, hstream⟩, hrefs, htold⟩ := h
  obtain ⟨queue', hstream'⟩ := stream_next hstream hnext
  have hages := ages_next hrefs hstream hnext
  refine ⟨⟨queue', hstream'⟩, refs_next hrefs hstream.holds hnext, fun o ho => ?_⟩
  obtain ⟨new, houtcomes, hnew⟩ := hages.outcomes
  rw [houtcomes] at ho
  rcases List.mem_append.mp ho with hold | hmem
  · exact (htold o hold).age hages hstream'
  · exact hnew o hmem

/-- A call fails only for a process that was killed or when nobody can read any more. A call of
`piperead` that returns nothing though it asked for something says that the write end is closed
and all that was ever written has been read; and so it stays. -/
theorem outcomes_told {data : Nat → UInt8} {es : List Event}
    (run : Run (stepOf next) (opened data p) es s) : ∀ o ∈ s.outcomes, s.Told o.1 o.2 :=
  (run.invariant Sane (sane_opened data p) fun _ _ _ h hstep => sane_next h hstep).told

/-- A byte, and the end of the stream when the writer has gone. -/
def oneByte : List Event :=
  [.share 0 1 false, .read 1 8, .run 1, .write 0 [5], .run 0, .run 1, .close 0 true, .read 1 8,
    .run 1]

theorem outcomes_told_end : ∃ s, runOf next (opened (fun _ => 0) 0) oneByte = some s ∧
    (1, .received 8 []) ∈ s.outcomes ∧ ∀ o ∈ s.outcomes, s.Told o.1 o.2 := by
  have hend : (runOf next (opened (fun _ => 0) 0) oneByte).any
      (fun s => (1, .received 8 []) ∈ s.outcomes) = true := by decide +kernel
  obtain ⟨s, hs, hmem⟩ := (Option.any_eq_true _ _).mp hend
  exact ⟨s, hs, of_decide_eq_true hmem, outcomes_told (run_of_runOf hs)⟩

/-! ## Wakeups -/

/-- A reader sleeps on an empty pipe, a writer on a full one, as long as the other end is open. -/
def monitor : Monitor PipeSystem Nat PipeChannel where
  asleep := PipeSystem.asleep
  blocked s
    | .nread => s.pipe.nread = s.pipe.nwrite ∧ s.pipe.writeopen = true
    | .nwrite => s.pipe.nwrite = s.pipe.nread + pipesize ∧ s.pipe.readopen = true

/-- A process that was killed fills the pipe for a reader that sleeps, and has more bytes. -/
def Overfills (s : PipeSystem) : Event → Prop
  | .run p => s.killed p = true ∧ (∃ stored left, s.call p = some (.write stored left) ∧
      512 < left.length) ∧ ∃ q, s.asleep q = some .nread
  | _ => False

theorem blocked_nread (h : s.pipe.Holds queue) :
    monitor.blocked s .nread ↔ queue = [] ∧ s.pipe.writeopen = true :=
  and_congr_left fun _ => h.empty_iff

theorem blocked_nwrite (h : s.pipe.Holds queue) :
    monitor.blocked s .nwrite ↔ queue.length = 512 ∧ s.pipe.readopen = true :=
  and_congr_left fun _ => h.full_iff

/-- A full pipe stays full while bytes are put into it. -/
theorem blocked_nwrite_mono (h : s.pipe.Holds queue) {now : List UInt8}
    (h' : s'.pipe.Holds (queue ++ now)) (hopen : s'.isOpen .nread = s.isOpen .nread)
    (hblocked : monitor.blocked s .nwrite) : monitor.blocked s' .nwrite := by
  rw [blocked_nwrite h] at hblocked
  have hle := h'.length_le
  rw [List.length_append] at hle
  rw [blocked_nwrite h', List.length_append]
  exact ⟨by omega, hopen.trans hblocked.2⟩

theorem sound_runWrite_iff (h : s.Sane) (hsound : monitor.Sound s)
    (hcall : s.call p = some (.write stored left)) :
    ¬ s.Overfills (.run p) ↔ monitor.Sound (s.runWrite p stored left) := by
  obtain ⟨queue, hstream⟩ := h.stream
  obtain ⟨pipe, now, hholds, hread, hwrite, hcases⟩ := runWrite_cases hstream.holds p stored left
  have hends := fun c => (sameEnds (s.putAll p pipe now) hread hwrite rfl rfl rfl c).2
  have hfull : ∀ {t : PipeSystem}, t.pipe = pipe → monitor.blocked s .nwrite →
      monitor.blocked t .nwrite := by
    intro t ht
    exact blocked_nwrite_mono hstream.holds (ht ▸ hholds)
      ((congrArg Pipe.readopen ht).trans (hends .nread))
  have hle := hholds.length_le
  rw [List.length_append] at hle
  obtain ⟨hleft, heq⟩ | ⟨left', hleft, hne, hlength, hstop, heq⟩ |
    ⟨left', hleft, hne, hlength, hopen, hkilled, heq⟩ := hcases
  · have hnot : ¬ s.Overfills (.run p) := by
      rintro ⟨-, ⟨stored', left', hcall', hlong⟩, -⟩
      rw [hcall] at hcall'
      cases hcall'
      rw [hleft] at hlong
      omega
    refine iff_of_true hnot ?_
    rw [heq]
    refine hsound.woken .nread (fun q d hq => .inl (wakeup_some.mp hq)) fun d hd hblocked => ?_
    cases d with
    | nread => exact absurd rfl hd
    | nwrite => exact hfull rfl hblocked
  · rw [heq]
    constructor
    · intro hnot q c hq
      have hq' : s.asleep q = some c := hq
      cases c with
      | nwrite => exact hfull rfl (hsound q .nwrite hq')
      | nread =>
        refine absurd ⟨?_, ⟨stored, left, hcall, ?_⟩, q, hq'⟩ hnot
        · -- the reader keeps its end open
          obtain ⟨-, call, hqcall, hchannel⟩ := h.refs.asleep q _ hq'
          have hmem := h.refs.inCall q call hqcall
          rw [hchannel] at hmem
          have hopen : s.pipe.readopen = true :=
            (h.refs.isOpen .nread).mpr (List.ne_nil_of_mem hmem)
          rw [hopen] at hstop
          exact hstop.resolve_left fun hfalse => by cases hfalse
        · have hqueue := ((blocked_nread hstream.holds).mp (hsound q .nread hq')).1
          rw [hqueue, List.nil_append] at hlength
          have hpos := List.length_pos_iff.mpr hne
          rw [hleft, List.length_append]
          omega
    · rintro hsound' ⟨-, -, q, hq⟩
      have hblocked := hsound' q .nread hq
      have hholds' : ((s.putAll p pipe now).finish p
          (.writeFailed (stored ++ now) left')).pipe.Holds (queue ++ now) := hholds
      have hnil := ((blocked_nread hholds').mp hblocked).1
      rw [hnil] at hlength
      cases hlength
  · have hnot : ¬ s.Overfills (.run p) := by
      rintro ⟨hfalse, -⟩
      rw [hkilled] at hfalse
      cases hfalse
    refine iff_of_true hnot ?_
    rw [heq]
    have hholds' : (((s.putAll p pipe now).wake .nread).sleep p .nwrite
        (.write (stored ++ now) left')).pipe.Holds (queue ++ now) := hholds
    refine hsound.woken .nread (fun q d hq => ?_) fun d hd hblocked => ?_
    · by_cases hqp : q = p
      · subst hqp
        have hd := (Function.update_self ..).symm.trans hq
        cases hd
        exact .inr ((blocked_nwrite hholds').mpr ⟨hlength, (hends .nread).trans hopen⟩)
      · exact .inl (wakeup_some.mp ((Function.update_of_ne hqp ..).symm.trans hq))
    · cases d with
      | nread => exact absurd rfl hd
      | nwrite => exact hfull rfl hblocked

theorem sound_runRead (h : s.Stream queue) (hsound : monitor.Sound s) (p n : Nat) :
    monitor.Sound (s.runRead p n) := by
  obtain ⟨-, -, -, heq⟩ | ⟨hqueue, hopen, -, heq⟩ | ⟨hclosed, pipe, -, hread, hwrite, heq⟩ :=
    runRead_cases h.holds p n
  · rw [heq]
    exact hsound
  · rw [heq]
    refine hsound.step ⟨fun q c hq => ?_, fun c hc hfree => absurd hc hfree⟩
    by_cases hqp : q = p
    · subst hqp
      have hc := (Function.update_self ..).symm.trans hq
      cases hc
      exact .inr ((blocked_nread h.holds).mpr ⟨hqueue, hopen⟩)
    · exact .inl ((Function.update_of_ne hqp ..).symm.trans hq)
  · rw [heq]
    refine hsound.woken .nwrite (fun q d hq => .inl (wakeup_some.mp hq)) fun d hd hblocked => ?_
    cases d with
    | nwrite => exact absurd rfl hd
    | nread =>
      -- nobody copies from a pipe on which readers sleep
      obtain ⟨hqueue, hopen⟩ := (blocked_nread h.holds).mp hblocked
      rw [hclosed hqueue] at hopen
      cases hopen

theorem sound_fileclose (hsound : monitor.Sound s) (p : Nat) (writable : Bool) :
    monitor.Sound (s.fileclose p writable) := by
  unfold fileclose pipeclose
  cases writable with
  | true =>
    dsimp only
    split
    · refine hsound.woken .nread (fun q d hq => .inl (wakeup_some.mp hq)) fun d hd hblocked => ?_
      cases d with
      | nread => exact absurd rfl hd
      | nwrite => exact hblocked
    · exact hsound
  | false =>
    dsimp only
    split
    · refine hsound.woken .nwrite (fun q d hq => .inl (wakeup_some.mp hq)) fun d hd hblocked => ?_
      cases d with
      | nread => exact hblocked
      | nwrite => exact absurd rfl hd
    · exact hsound

/-- A step loses a wakeup just if it overfills the pipe. -/
theorem sound_next_iff {e : Event} (h : s.Sane) (hsound : monitor.Sound s)
    (hnext : s.next e = some s') : ¬ s.Overfills e ↔ monitor.Sound s' := by
  obtain ⟨queue, hstream⟩ := h.stream
  rcases next_cases hnext with ⟨p, bytes, rfl, -, -, -, rfl⟩ | ⟨p, n, rfl, -, -, -, rfl⟩ |
    ⟨p, stored, left, rfl, -, hcall, rfl⟩ | ⟨p, n, rfl, -, hcall, rfl⟩ | ⟨p, rfl, rfl⟩ |
    ⟨p, q, rfl, -, rfl⟩ | ⟨p, q, rfl, -, rfl⟩ | ⟨p, writable, rfl, -, rfl⟩
  · exact iff_of_true not_false hsound
  · exact iff_of_true not_false hsound
  · exact sound_runWrite_iff h hsound hcall
  · refine iff_of_true ?_ (sound_runRead hstream hsound p n)
    rintro ⟨-, ⟨stored, left, hcall', -⟩, -⟩
    rw [hcall] at hcall'
    cases hcall'
  · refine iff_of_true not_false (hsound.step (Monitor.Wakes.of_blocked ?_ fun _ hc => hc))
    intro q c hq
    by_cases hqp : q = p
    · subst hqp
      have hnone := (Function.update_self ..).symm.trans hq
      cases hnone
    · exact (Function.update_of_ne hqp ..).symm.trans hq
  · exact iff_of_true not_false hsound
  · exact iff_of_true not_false hsound
  · exact iff_of_true not_false (sound_fileclose hsound p writable)

/-- Everyone who sleeps on the pipe has to, after every step of a run, just if in no step a process
that was killed fills the pipe for a reader that sleeps and fails with more bytes to write. -/
theorem pipe_wakeups_iff (data : Nat → UInt8) (p : Nat) (es : List Event) (s : PipeSystem) :
    Run (guarded (fun s e => ¬ s.Overfills e) (stepOf next)) (opened data p) es s ↔
      Run (outcome (fun _ _ s' => monitor.Sound s') (stepOf next)) (opened data p) es s := by
  refine Run.guarded_iff_outcome (fun t : PipeSystem => t.Sane ∧ monitor.Sound t) ?_ ?_ ?_
  · exact ⟨sane_opened data p, fun q c hq => by cases hq⟩
  · rintro t e u ⟨hsane, hsound⟩ hfits hstep
    exact ⟨sane_next hsane hstep, (sound_next_iff hsane hsound hstep).mp hfits⟩
  · rintro t e u ⟨hsane, hsound⟩ hstep
    exact sound_next_iff hsane hsound hstep

/-- Such a step leaves a reader asleep on a full pipe. -/
example : (runOf next (opened (fun _ => 0) 0)
    [.share 0 1 false, .read 1 8, .run 1, .write 0 (List.replicate 513 7), .kill 0, .run 0]).any
      (fun s => s.asleep 1 = some .nread ∧ s.pipe.nwrite = 512 ∧ s.call 0 = none) := by
  decide +kernel

end PipeSystem

end Cs537.P5
