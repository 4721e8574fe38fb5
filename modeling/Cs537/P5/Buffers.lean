import Cs537.Lib.Run
import Cs537.Lib.Tally
import Cs537.P5.Bcache

/-!
# What a step of the buffer cache does

The buffers have different labels, a reference counter is the number of uses by processes, and the
driver's queue holds the buffers that processes wait for. Under these invariants every step is one
of a few.
-/

namespace Cs537.P5

open Cs537.Lib

/-- A change of one value that leaves a part of it as it was. -/
theorem apply_update_eq {α β γ : Type*} [DecidableEq α] {g : α → β} {a : α} {x : β} (f : β → γ)
    (h : f x = f (g a)) (c : α) : f (Function.update g a x c) = f (g c) := by
  by_cases hc : c = a
  · rw [hc, Function.update_self, h]
  · rw [Function.update_of_ne hc]

namespace BufCall

/-- The buffer that a call counts as a use, besides those that the process has locked. -/
def pending : BufCall → List (Fin nbuf)
  | locking b | releasing b => [b]
  | _ => []

end BufCall

namespace Bcache

variable {π : Type} {s s' : Bcache π} {p q : π} {b c : Fin nbuf} {dev n : Nat}

/-! ## The steps -/

/-- The disk has been asked for the first buffer of the queue. -/
def started (s : Bcache π) : Bcache π :=
  match s.queue.head? with
  | some b =>
    let x := s.buf b
    if x.dirty then
      { s with
        disk := Function.update s.disk (x.dev % 2)
          (Function.update (s.disk (x.dev % 2)) x.blockno x.data) }
    else s
  | none => s

theorem started_eq_or (s : Bcache π) : s.started = s ∨ ∃ b disk, s.queue.head? = some b ∧
    (s.buf b).dirty = true ∧ s.started = { s with disk := disk } := by
  unfold started
  cases s.queue.head? with
  | none => exact .inl rfl
  | some b =>
    dsimp only
    by_cases hdirty : (s.buf b).dirty = true
    · rw [if_pos hdirty]
      exact .inr ⟨b, _, rfl, hdirty, rfl⟩
    · rw [if_neg hdirty]
      exact .inl rfl

@[simp] theorem started_buf (s : Bcache π) : s.started.buf = s.buf := by
  rcases s.started_eq_or with h | ⟨b, disk, -, -, h⟩ <;> rw [h]

@[simp] theorem started_links (s : Bcache π) : s.started.links = s.links := by
  rcases s.started_eq_or with h | ⟨b, disk, -, -, h⟩ <;> rw [h]

@[simp] theorem started_queue (s : Bcache π) : s.started.queue = s.queue := by
  rcases s.started_eq_or with h | ⟨b, disk, -, -, h⟩ <;> rw [h]

@[simp] theorem started_havedisk1 (s : Bcache π) : s.started.havedisk1 = s.havedisk1 := by
  rcases s.started_eq_or with h | ⟨b, disk, -, -, h⟩ <;> rw [h]

@[simp] theorem started_call (s : Bcache π) : s.started.call = s.call := by
  rcases s.started_eq_or with h | ⟨b, disk, -, -, h⟩ <;> rw [h]

variable [DecidableEq π]

/-- A process waits in `iderw`. -/
def requested (s : Bcache π) (p : π) (b : Fin nbuf) : Bcache π :=
  { s with queue := s.queue ++ [b], call := Function.update s.call p (.waiting b) }.started

/-- The disk has finished with the first buffer. -/
def served (s : Bcache π) (b : Fin nbuf) (rest : List (Fin nbuf)) : Bcache π :=
  let x := s.buf b
  let data := if x.dirty then x.data else s.disk (x.dev % 2) x.blockno
  { s with
    queue := rest
    buf := Function.update s.buf b { x with data := data, valid := true, dirty := false } }.started

/-- A call of a process returns. -/
def returned (s : Bcache π) (p : π) : Bcache π :=
  { s with call := Function.update s.call p .running }

/-- A process stores into a buffer. -/
def stored (s : Bcache π) (b : Fin nbuf) (data : Block) : Bcache π :=
  { s with buf := Function.update s.buf b { s.buf b with data := data } }

/-- A process gives a buffer free. -/
def released (s : Bcache π) (p : π) (b : Fin nbuf) : Bcache π :=
  { s with
    buf := Function.update s.buf b { s.buf b with holder := none }
    call := Function.update s.call p (.releasing b) }

/-- The steps, with what they find. -/
inductive Moves (s : Bcache π) : Event π → Bcache π → Prop
  | share {p : π} {dev n : Nat} {b : Fin nbuf} : s.call p = .running → s.labelled dev n b →
      Moves s (.get p dev n) (s.share p b)
  | recycle {p : π} {dev n : Nat} {b : Fin nbuf} : s.call p = .running →
      (∀ c, s.labelled dev n c = false) → s.victim = some b → s.unused b →
      Moves s (.get p dev n) (s.recycle p b dev n)
  | acquire {p : π} {b : Fin nbuf} : s.call p = .locking b → (s.buf b).holder = none →
      Moves s (.run p) (s.acquiresleep p b)
  | found {p : π} {b : Fin nbuf} : s.call p = .reading b → (s.buf b).valid = true →
      Moves s (.run p) (s.returned p)
  | ask {p : π} {b : Fin nbuf} : s.call p = .reading b → (s.buf b).valid = false →
      Moves s (.run p) (s.requested p b)
  | synced {p : π} {b : Fin nbuf} : s.call p = .waiting b → (s.buf b).valid = true →
      (s.buf b).dirty = false → Moves s (.run p) (s.returned p)
  | drop {p : π} {b : Fin nbuf} : s.call p = .releasing b → Moves s (.run p) (s.drop p b)
  | modify {p : π} {b : Fin nbuf} {data : Block} : s.call p = .running → (s.buf b).holder = some p →
      Moves s (.modify p b data) (s.stored b data)
  | pin {p : π} {b : Fin nbuf} : s.call p = .running → (s.buf b).holder = some p →
      Moves s (.pin p b) (s.setDirty b)
  | bwrite {p : π} {b : Fin nbuf} : s.call p = .running → (s.buf b).holder = some p →
      Moves s (.bwrite p b) ((s.setDirty b).requested p b)
  | brelse {p : π} {b : Fin nbuf} : s.call p = .running → (s.buf b).holder = some p →
      Moves s (.brelse p b) (s.released p b)
  | idle : s.queue = [] → Moves s .ideintr s
  | serve {b : Fin nbuf} {rest : List (Fin nbuf)} : s.queue = b :: rest →
      Moves s .ideintr (s.served b rest)

/-! ## The buffers in use -/

/-- The buffers that a process uses. -/
def held (s : Bcache π) (p : π) : List (Fin nbuf) :=
  (List.finRange nbuf).filter (fun b => (s.buf b).holder = some p) ++ (s.call p).pending

theorem count_held (s : Bcache π) (p : π) (b : Fin nbuf) :
    (s.held p).count b =
      (if (s.buf b).holder = some p then 1 else 0) + (s.call p).pending.count b := by
  rw [held, List.count_append]
  congr 1
  by_cases hb : (s.buf b).holder = some p
  · rw [if_pos hb]
    refine List.count_eq_one_of_mem ((List.nodup_finRange nbuf).filter _) ?_
    exact List.mem_filter.mpr ⟨List.mem_finRange b, decide_eq_true hb⟩
  · rw [if_neg hb]
    refine List.count_eq_zero_of_not_mem fun hmem => hb ?_
    exact of_decide_eq_true (List.mem_filter.mp hmem).2

theorem mem_held : b ∈ s.held p ↔ (s.buf b).holder = some p ∨ b ∈ (s.call p).pending := by
  rw [held, List.mem_append, List.mem_filter, decide_eq_true_iff]
  exact or_congr_left (and_iff_right (List.mem_finRange b))

/-! ## The invariants -/

/-- A label is on one buffer, and all labels but the first ones are blocks of the file system. -/
structure Labels (s : Bcache π) : Prop where
  device : ∀ b, ((s.buf b).dev = 0 ∧ (s.buf b).blockno = 0) ∨
    ((s.buf b).dev = rootdev ∧ (s.buf b).blockno < fssize)
  distinct : ∀ b c, (s.buf b).dev = rootdev → (s.buf c).dev = (s.buf b).dev →
    (s.buf c).blockno = (s.buf b).blockno → c = b

/-- Who is at a buffer: in the queue are the buffers that a process waits for and that differ from
the disk. -/
structure Calls (s : Bcache π) : Prop where
  locked : ∀ p b, s.call p = .reading b ∨ s.call p = .waiting b → (s.buf b).holder = some p
  free : ∀ b, (s.buf b).holder = none →
    b ∉ s.queue ∧ ((s.buf b).dirty = true → (s.buf b).valid = true)
  filled : ∀ p b, (s.buf b).holder = some p → s.call p ≠ .reading b → s.call p ≠ .waiting b →
    b ∉ s.queue ∧ (s.buf b).valid = true
  reading : ∀ p b, s.call p = .reading b →
    b ∉ s.queue ∧ ((s.buf b).dirty = true → (s.buf b).valid = true)
  waiting : ∀ p b, s.call p = .waiting b →
    (b ∈ s.queue ↔ (s.buf b).valid = false ∨ (s.buf b).dirty = true)
  nodup : s.queue.Nodup

/-- The reference counters tally with the uses by processes. -/
def Counts [Fintype π] (s : Bcache π) : Prop :=
  Tally (fun _ => True) (fun b => ((s.buf b).refcnt : Int)) s.held

omit [DecidableEq π] in
theorem Labels.congr (h : s.Labels) (hdev : ∀ b, (s'.buf b).dev = (s.buf b).dev)
    (hblockno : ∀ b, (s'.buf b).blockno = (s.buf b).blockno) : s'.Labels := by
  constructor
  · intro b
    rw [hdev, hblockno]
    exact h.device b
  · intro b c
    rw [hdev, hdev, hblockno, hblockno]
    exact h.distinct b c

omit [DecidableEq π] in
theorem Labels.setDirty (h : s.Labels) (b : Fin nbuf) : (s.setDirty b).Labels :=
  h.congr (apply_update_eq Buf.dev rfl) (apply_update_eq Buf.blockno rfl)

/-- Only a lookup that recycles a buffer changes a label. -/
theorem Labels.moves {e : Event π} (h : s.Labels)
    (hget : ∀ p dev n, e = .get p dev n → dev = rootdev ∧ n < fssize) (hmove : s.Moves e s') :
    s'.Labels := by
  have hsame : ∀ {b : Fin nbuf} {x : Buf π}, x.dev = (s.buf b).dev → ∀ c,
      (Function.update s.buf b x c).dev = (s.buf c).dev :=
    fun h => apply_update_eq Buf.dev h
  have hsame' : ∀ {b : Fin nbuf} {x : Buf π}, x.blockno = (s.buf b).blockno → ∀ c,
      (Function.update s.buf b x c).blockno = (s.buf c).blockno :=
    fun h => apply_update_eq Buf.blockno h
  cases hmove with
  | @recycle p dev n b _ hmiss =>
    obtain ⟨rfl, hn⟩ := hget p dev n rfl
    constructor
    · intro c
      by_cases hc : c = b
      · subst hc
        exact .inr (by simp [recycle, hn])
      · simpa [recycle, hc] using h.device c
    · intro c d hc hd hblockno
      have hne : ∀ d, ¬ ((s.buf d).dev = rootdev ∧ (s.buf d).blockno = n) := by
        intro d
        simpa [labelled] using hmiss d
      by_cases hcb : c = b <;> by_cases hdb : d = b
      · rw [hcb, hdb]
      · subst hcb
        simp [recycle, hdb] at hd hblockno
        exact absurd ⟨hd, hblockno⟩ (hne d)
      · subst hdb
        simp [recycle, hcb] at hc hblockno
        exact absurd ⟨hc, hblockno.symm⟩ (hne c)
      · simp [recycle, hcb, hdb] at hc hd hblockno
        exact h.distinct c d hc hd hblockno
  | share | acquire | drop | modify | pin | brelse => exact h.congr (hsame rfl) (hsame' rfl)
  | found | synced | idle => exact h.congr (fun _ => rfl) fun _ => rfl
  | ask => exact h.congr (fun _ => by simp [requested]) fun _ => by simp [requested]
  | @bwrite p b =>
    exact (h.setDirty b).congr (fun _ => by simp [requested]) fun _ => by simp [requested]
  | serve =>
    refine h.congr (fun c => ?_) fun c => ?_
    · simp only [served, started_buf]
      refine hsame ?_ c
      rfl
    · simp only [served, started_buf]
      refine hsame' ?_ c
      rfl

/-- One process changes what it uses, and that is one buffer. -/
theorem Counts.edit [Fintype π] (h : s.Counts) {p : π} {b : Fin nbuf} {x : Buf π} {c : BufCall}
    (hbuf : s'.buf = Function.update s.buf b x) (hcall : s'.call = Function.update s.call p c)
    (hholder : ∀ q, q ≠ p → (x.holder = some q ↔ (s.buf b).holder = some q))
    (hpending : ∀ a, a ≠ b → c.pending.count a = (s.call p).pending.count a)
    (hrefcnt : x.refcnt + ((if (s.buf b).holder = some p then 1 else 0) +
        (s.call p).pending.count b) =
      (s.buf b).refcnt + ((if x.holder = some p then 1 else 0) + c.pending.count b)) :
    s'.Counts := by
  have hothers : ∀ q, q ≠ p → ∀ a, (s'.held q).count a = (s.held q).count a := by
    intro q hq a
    rw [count_held, count_held, hbuf, hcall, Function.update_of_ne hq]
    by_cases ha : a = b
    · subst ha
      rw [Function.update_self]
      simp only [hholder q hq]
    · rw [Function.update_of_ne ha]
  have hself : ∀ a, ((s'.buf a).refcnt : Int) - (s.buf a).refcnt =
      (s'.held p).count a - (s.held p).count a := by
    intro a
    rw [count_held, count_held, hbuf, hcall, Function.update_self]
    by_cases ha : a = b
    · subst ha
      rw [Function.update_self]
      omega
    · rw [Function.update_of_ne ha, hpending a ha]
      omega
  intro a ha
  refine (h.update p (fun a _ => hself a) a ha).trans (Finset.sum_congr rfl fun q _ => ?_)
  by_cases hq : q = p
  · rw [hq, Function.update_self]
  · rw [Function.update_of_ne hq, hothers q hq]

/-- No process changes what it uses. -/
theorem Counts.same [Fintype π] (h : s.Counts)
    (hbuf : ∀ b, (s'.buf b).holder = (s.buf b).holder ∧ (s'.buf b).refcnt = (s.buf b).refcnt)
    (hcall : ∀ q, (s'.call q).pending = (s.call q).pending) : s'.Counts := by
  intro b hb
  dsimp only
  rw [(hbuf b).2]
  refine (h b hb).trans (Finset.sum_congr rfl fun q _ => ?_)
  rw [count_held, count_held, (hbuf b).1, hcall]

theorem Counts.moves [Fintype π] {e : Event π} (h : s.Counts) (hmove : s.Moves e s') :
    s'.Counts := by
  have hpending : ∀ {a b : Fin nbuf}, a ≠ b → [b].count a = 0 :=
    fun hne => List.count_eq_zero_of_not_mem fun hmem => hne (List.mem_singleton.mp hmem)
  have hbuf : ∀ {b : Fin nbuf} {x : Buf π},
      x.holder = (s.buf b).holder ∧ x.refcnt = (s.buf b).refcnt → ∀ a,
      (Function.update s.buf b x a).holder = (s.buf a).holder ∧
        (Function.update s.buf b x a).refcnt = (s.buf a).refcnt := by
    intro b x hx a
    have heq := apply_update_eq (fun y : Buf π => (y.holder, y.refcnt)) (Prod.ext hx.1 hx.2) a
    exact ⟨congrArg Prod.fst heq, congrArg Prod.snd heq⟩
  have hcalls' : ∀ {p : π} {c : BufCall}, c.pending = (s.call p).pending → ∀ q,
      (Function.update s.call p c q).pending = (s.call q).pending :=
    fun hc => apply_update_eq BufCall.pending hc
  cases hmove with
  | share hcall =>
    refine h.edit rfl rfl (fun _ _ => Iff.rfl) (fun a ha => ?_) ?_
    · rw [hcall]
      exact hpending ha
    · simp only [hcall, BufCall.pending, List.count_nil, List.count_singleton_self]
      omega
  | recycle hcall _ _ hunused =>
    have hzero := (decide_eq_true_iff.mp hunused).1
    refine h.edit rfl rfl (fun _ _ => Iff.rfl) (fun a ha => ?_) ?_
    · rw [hcall]
      exact hpending ha
    · simp only [hcall, BufCall.pending, List.count_nil, List.count_singleton_self, hzero]
      omega
  | acquire hcall hfree =>
    refine h.edit rfl rfl (fun q hq => ?_) (fun a ha => ?_) ?_
    · simp [hfree, hq.symm]
    · rw [hcall]
      exact (hpending ha).symm
    · simp [hcall, hfree, BufCall.pending]
  | drop hcall =>
    rename_i p b
    have hmem : b ∈ s.held p := mem_held.mpr (.inr (by simp [hcall, BufCall.pending]))
    have hone : (1 : Int) ≤ (s.buf b).refcnt := h.pos trivial hmem
    refine h.edit rfl rfl (fun _ _ => Iff.rfl) (fun a ha => ?_) ?_
    · rw [hcall]
      exact (hpending ha).symm
    · simp only [hcall, BufCall.pending, List.count_nil, List.count_singleton_self]
      omega
  | brelse hcall hholder =>
    refine h.edit rfl rfl (fun q hq => ?_) (fun a ha => ?_) ?_
    · simp [hholder, hq.symm]
    · rw [hcall]
      exact hpending ha
    · simp [hcall, hholder, BufCall.pending]
  | found hcall | synced hcall =>
    refine h.same (fun _ => ⟨rfl, rfl⟩) (hcalls' ?_)
    rw [hcall]
    rfl
  | ask hcall =>
    refine h.same (fun _ => by simp [requested]) ?_
    simp only [requested, started_call]
    refine hcalls' ?_
    rw [hcall]
    rfl
  | modify | pin => exact h.same (hbuf ⟨rfl, rfl⟩) fun _ => rfl
  | bwrite hcall =>
    refine h.same ?_ ?_
    · simp only [requested, setDirty, started_buf]
      refine hbuf ?_
      exact ⟨rfl, rfl⟩
    · simp only [requested, setDirty, started_call]
      refine hcalls' ?_
      rw [hcall]
      rfl
  | idle => exact h
  | serve =>
    refine h.same ?_ fun _ => by simp [served]
    simp only [served, started_buf]
    refine hbuf ?_
    exact ⟨rfl, rfl⟩

namespace Calls

theorem share (h : s.Calls) (hcall : s.call p = .running) (b : Fin nbuf) : (s.share p b).Calls := by
  obtain ⟨hlocked, hfree, hfilled, hreading, hwaiting, hnodup⟩ := h
  constructor <;> simp only [Bcache.share] <;> grind [Function.update_apply]

theorem recycle (h : s.Calls) (hcall : s.call p = .running) (hnobody : ∀ q, b ∉ s.held q)
    (dev n : Nat) : (s.recycle p b dev n).Calls := by
  obtain ⟨hlocked, hfree, hfilled, hreading, hwaiting, hnodup⟩ := h
  simp only [mem_held, not_or] at hnobody
  constructor <;> simp only [Bcache.recycle] <;> grind [Function.update_apply]

theorem acquiresleep (h : s.Calls) (hcall : s.call p = .locking b)
    (hb : (s.buf b).holder = none) : (s.acquiresleep p b).Calls := by
  obtain ⟨hlocked, hfree, hfilled, hreading, hwaiting, hnodup⟩ := h
  constructor <;> simp only [Bcache.acquiresleep] <;> grind [Function.update_apply]

/-- A process returns from `bread`, or from `iderw`. -/
theorem returned (h : s.Calls) (hcall : s.call p = .reading b ∨ s.call p = .waiting b)
    (hvalid : (s.buf b).valid = true) (hclean : s.call p = .waiting b → (s.buf b).dirty = false) :
    (s.returned p).Calls := by
  obtain ⟨hlocked, hfree, hfilled, hreading, hwaiting, hnodup⟩ := h
  constructor <;> simp only [Bcache.returned] <;> grind [Function.update_apply]

/-- A process that has locked a buffer waits for the disk. -/
theorem requested (h : s.Calls) (hholder : (s.buf b).holder = some p) (hqueue : b ∉ s.queue)
    (hcall : s.call p = .reading b ∨ s.call p = .running)
    (hneed : (s.buf b).valid = false ∨ (s.buf b).dirty = true) : (s.requested p b).Calls := by
  obtain ⟨hlocked, hfree, hfilled, hreading, hwaiting, hnodup⟩ := h
  constructor <;> simp only [Bcache.requested, started_buf, started_call, started_queue] <;>
    grind [Function.update_apply]

theorem drop (h : s.Calls) (hcall : s.call p = .releasing b) : (s.drop p b).Calls := by
  obtain ⟨hlocked, hfree, hfilled, hreading, hwaiting, hnodup⟩ := h
  constructor <;> simp only [Bcache.drop] <;> grind [Function.update_apply]

omit [DecidableEq π] in
theorem stored (h : s.Calls) (b : Fin nbuf) (data : Block) : (s.stored b data).Calls := by
  obtain ⟨hlocked, hfree, hfilled, hreading, hwaiting, hnodup⟩ := h
  constructor <;> simp only [Bcache.stored] <;> grind [Function.update_apply]

omit [DecidableEq π] in
theorem setDirty (h : s.Calls) (hcall : s.call p = .running)
    (hholder : (s.buf b).holder = some p) : (s.setDirty b).Calls := by
  obtain ⟨hlocked, hfree, hfilled, hreading, hwaiting, hnodup⟩ := h
  constructor <;> simp only [Bcache.setDirty] <;> grind [Function.update_apply]

theorem released (h : s.Calls) (hcall : s.call p = .running)
    (hholder : (s.buf b).holder = some p) : (s.released p b).Calls := by
  obtain ⟨hlocked, hfree, hfilled, hreading, hwaiting, hnodup⟩ := h
  constructor <;> simp only [Bcache.released] <;> grind [Function.update_apply]

omit [DecidableEq π] in
theorem served (h : s.Calls) {rest : List (Fin nbuf)} (hqueue : s.queue = b :: rest) :
    (s.served b rest).Calls := by
  obtain ⟨hlocked, hfree, hfilled, hreading, hwaiting, hnodup⟩ := h
  constructor <;> simp only [Bcache.served, started_buf, started_call, started_queue] <;>
    grind [Function.update_apply]

omit [DecidableEq π] in
/-- A buffer that a process has locked outside of any call is valid and not in the queue. -/
theorem at_rest (h : s.Calls) (hcall : s.call p = .running)
    (hholder : (s.buf b).holder = some p) : b ∉ s.queue ∧ (s.buf b).valid = true :=
  h.filled p b hholder (by rw [hcall]; nofun) (by rw [hcall]; nofun)

theorem moves {e : Event π} (h : s.Calls) (hunused : ∀ b, s.unused b → ∀ p, b ∉ s.held p)
    (hmove : s.Moves e s') : s'.Calls := by
  cases hmove with
  | share hcall => exact h.share hcall _
  | recycle hcall _ _ hb => exact h.recycle hcall (hunused _ hb) _ _
  | acquire hcall hb => exact h.acquiresleep hcall hb
  | found hcall hvalid =>
    refine h.returned (.inl hcall) hvalid fun hwaiting => ?_
    rw [hcall] at hwaiting
    cases hwaiting
  | ask hcall hvalid =>
    exact h.requested (h.locked _ _ (.inl hcall)) (h.reading _ _ hcall).1 (.inl hcall) (.inl hvalid)
  | synced hcall hvalid hclean => exact h.returned (.inr hcall) hvalid fun _ => hclean
  | drop hcall => exact h.drop hcall
  | modify hcall hholder => exact h.stored _ _
  | pin hcall hholder => exact h.setDirty hcall hholder
  | @bwrite p b hcall hholder =>
    have hself : (s.setDirty b).buf b = { s.buf b with dirty := true } := Function.update_self ..
    refine (h.setDirty hcall hholder).requested ?_ (h.at_rest hcall hholder).1 (.inr hcall) ?_
    · rw [hself]
      exact hholder
    · rw [hself]
      exact .inr rfl
  | brelse hcall hholder => exact h.released hcall hholder
  | idle => exact h
  | serve hqueue => exact h.served hqueue

end Calls

/-! ### The ring and the disk -/

/-- All buffers are in the ring. -/
def Ring (s : Bcache π) : Prop := ∃ l, s.links.Holds l ∧ ∀ b, b ∈ l

/-- The disk already has what the first buffer of the queue is to write. -/
def Begun (s : Bcache π) : Prop := ∀ b, s.queue.head? = some b → (s.buf b).dirty = true →
  s.disk ((s.buf b).dev % 2) (s.buf b).blockno = (s.buf b).data

omit [DecidableEq π] in
theorem hit_eq {l : List (Fin nbuf)} (h : s.links.Holds l) (dev n : Nat) :
    s.hit dev n = l.find? (s.labelled dev n) :=
  h.walk_next _ (by simpa using Nat.lt_succ_of_le h.nodup.length_le_card)

omit [DecidableEq π] in
theorem victim_eq {l : List (Fin nbuf)} (h : s.links.Holds l) :
    s.victim = l.reverse.find? s.unused :=
  h.walk_prev _ (by simpa using Nat.lt_succ_of_le h.nodup.length_le_card)

omit [DecidableEq π] in
theorem Ring.hit_none (h : s.Ring) (hmiss : s.hit dev n = none) (b : Fin nbuf) :
    s.labelled dev n b = false := by
  obtain ⟨l, hl, hall⟩ := h
  rw [hit_eq hl, List.find?_eq_none] at hmiss
  exact Bool.eq_false_of_not_eq_true (hmiss b (hall b))

omit [DecidableEq π] in
theorem Ring.hit_some (h : s.Ring) (hhit : s.hit dev n = some b) : s.labelled dev n b = true := by
  obtain ⟨l, hl, -⟩ := h
  rw [hit_eq hl] at hhit
  exact List.find?_some hhit

omit [DecidableEq π] in
theorem Ring.victim_some (h : s.Ring) (hvictim : s.victim = some b) : s.unused b = true := by
  obtain ⟨l, hl, -⟩ := h
  rw [victim_eq hl] at hvictim
  exact List.find?_some hvictim

omit [DecidableEq π] in
theorem Ring.victim_none (h : s.Ring) : s.victim = none ↔ ∀ b, s.unused b = false := by
  obtain ⟨l, hl, hall⟩ := h
  rw [victim_eq hl, List.find?_eq_none]
  constructor
  · intro hnone b
    exact Bool.eq_false_of_not_eq_true (hnone b (List.mem_reverse.mpr (hall b)))
  · intro hnone b _
    rw [hnone b]
    exact Bool.false_ne_true

theorem Ring.moves {e : Event π} (h : s.Ring) (hmove : s.Moves e s') : s'.Ring := by
  cases hmove with
  | @drop p b _ =>
    obtain ⟨l, hl, hall⟩ := h
    by_cases hzero : (s.buf b).refcnt - 1 = 0
    · refine ⟨b :: l.erase b, ?_, fun c => ?_⟩
      · have hlinks : (s.drop p b).links = (s.links.unlink b).insertFront b := if_pos hzero
        rw [hlinks]
        exact (hl.unlink (hall b)).insertFront fun hmem => hl.nodup.not_mem_erase hmem
      · by_cases hc : c = b
        · exact List.mem_cons.mpr (.inl hc)
        · exact List.mem_cons_of_mem b ((List.mem_erase_of_ne hc).mpr (hall c))
    · have hlinks : (s.drop p b).links = s.links := if_neg hzero
      exact ⟨l, hlinks ▸ hl, hall⟩
  | ask | serve => simpa [Ring, requested, served] using h
  | bwrite => simpa [Ring, requested, setDirty] using h
  | share | recycle | acquire | found | synced | modify | pin | brelse | idle => exact h

omit [DecidableEq π] in
theorem begun_started (s : Bcache π) : s.started.Begun := by
  intro b hb hdirty
  rw [started_queue] at hb
  rw [started_buf] at hdirty
  simp [started, hb, hdirty]

omit [DecidableEq π] in
theorem Begun.congr (h : s.Begun) (hqueue : s'.queue = s.queue) (hdisk : s'.disk = s.disk)
    (hbuf : ∀ b ∈ s.queue, (s'.buf b).dirty = (s.buf b).dirty ∧ (s'.buf b).dev = (s.buf b).dev ∧
      (s'.buf b).blockno = (s.buf b).blockno ∧ (s'.buf b).data = (s.buf b).data) : s'.Begun := by
  intro b hb
  rw [hqueue] at hb
  obtain ⟨hdirty, hdev, hblockno, hdata⟩ := hbuf b (List.mem_of_mem_head? hb)
  rw [hdirty, hdisk, hdev, hblockno, hdata]
  exact h b hb

omit [DecidableEq π] in
theorem Begun.started_eq (h : s.Begun) : s.started = s := by
  unfold started
  cases hhead : s.queue.head? with
  | none => rfl
  | some b =>
    dsimp only
    by_cases hdirty : (s.buf b).dirty = true
    · rw [if_pos hdirty, ← h b hhead hdirty, Function.update_eq_self, Function.update_eq_self]
    · rw [if_neg hdirty]

/-! ## The steps under the invariants -/

structure Sound [Fintype π] (s : Bcache π) : Prop where
  labels : s.Labels
  counts : s.Counts
  calls : s.Calls
  ring : s.Ring
  begun : s.Begun
  disk1 : s.havedisk1 = true

omit [DecidableEq π] in
theorem Labels.blockno_lt (h : s.Labels) (b : Fin nbuf) : (s.buf b).blockno < fssize := by
  rcases h.device b with ⟨-, hzero⟩ | ⟨-, hlt⟩
  · rw [hzero]
    exact Nat.zero_lt_succ _
  · exact hlt

omit [DecidableEq π] in
theorem idestart_eq (hblockno : (s.buf b).blockno < fssize) (hhead : s.queue.head? = some b) :
    s.idestart b = some s.started := by
  unfold idestart started
  rw [hhead]
  dsimp only
  rw [if_neg (Nat.not_le_of_lt hblockno)]
  by_cases hdirty : (s.buf b).dirty = true
  · rw [if_pos hdirty, if_pos hdirty]
  · rw [if_neg hdirty, if_neg hdirty]

/-- What `iderw` does for a buffer that is locked and differs from the disk. -/
theorem iderw_eq (hbegun : s.Begun) (hlabels : s.Labels) (hdisk1 : s.havedisk1 = true)
    (hholder : (s.buf b).holder = some p) (hqueue : b ∉ s.queue)
    (hneed : ¬ ((s.buf b).valid = true ∧ (s.buf b).dirty = false)) :
    s.iderw p b = some (s.requested p b) := by
  have hdisk : ¬ ((s.buf b).dev ≠ 0 ∧ s.havedisk1 = false) := by
    rw [hdisk1]
    exact fun h => nomatch h.2
  unfold iderw requested
  dsimp only
  rw [if_neg (not_not_intro hholder), if_neg hneed, if_neg hdisk]
  cases hcases : s.queue with
  | nil =>
    rw [List.nil_append, List.head?_cons, if_pos rfl]
    exact idestart_eq (hlabels.blockno_lt b) rfl
  | cons c rest =>
    rw [hcases] at hqueue
    have hcb : c ≠ b := fun h => hqueue (h ▸ List.mem_cons_self)
    rw [List.cons_append, List.head?_cons, if_neg fun h => hcb (Option.some.inj h)]
    refine congrArg some (Begun.started_eq ?_).symm
    intro a ha
    exact hbegun a (by rw [hcases]; exact ha)

omit [DecidableEq π] in
theorem ideintr_eq (hlabels : s.Labels) {rest : List (Fin nbuf)} (hqueue : s.queue = b :: rest) :
    s.ideintr = some (s.served b rest) := by
  unfold ideintr served
  rw [hqueue]
  cases rest with
  | nil => rfl
  | cons c rest =>
    refine idestart_eq ?_ rfl
    refine (apply_update_eq Buf.blockno ?_ c).trans_lt (hlabels.blockno_lt c)
    rfl

namespace Sound

variable [Fintype π]

theorem unheld (h : s.Sound) (hb : s.unused b = true) (p : π) : b ∉ s.held p := by
  intro hmem
  have hpos : (1 : Int) ≤ (s.buf b).refcnt := h.counts.pos trivial hmem
  have hzero := (decide_eq_true_iff.mp hb).1
  omega

theorem begun_setDirty (h : s.Sound) (hqueue : b ∉ s.queue) : (s.setDirty b).Begun := by
  refine h.begun.congr rfl rfl fun c hc => ?_
  have hne : c ≠ b := fun heq => hqueue (heq ▸ hc)
  have hother : (s.setDirty b).buf c = s.buf c := Function.update_of_ne hne ..
  rw [hother]
  exact ⟨rfl, rfl, rfl, rfl⟩

theorem iderw_setDirty (h : s.Sound) (hcall : s.call p = .running)
    (hholder : (s.buf b).holder = some p) :
    (s.setDirty b).iderw p b = some ((s.setDirty b).requested p b) := by
  have hqueue := (h.calls.at_rest hcall hholder).1
  have hself : (s.setDirty b).buf b = { s.buf b with dirty := true } := Function.update_self ..
  refine iderw_eq (h.begun_setDirty hqueue) (h.labels.setDirty b) h.disk1 ?_ hqueue ?_
  · rw [hself]
    exact hholder
  · rw [hself]
    exact fun hclean => nomatch hclean.2

/-- Every step is one of those that `Moves` lists. -/
theorem moves_of_next {e : Event π} (h : s.Sound) (hnext : s.next e = some s') : s.Moves e s' := by
  cases e with
  | get p dev n =>
    simp only [next, Option.ite_none_right_eq_some] at hnext
    obtain ⟨hcall, hget⟩ := hnext
    unfold bget at hget
    cases hhit : s.hit dev n with
    | some b =>
      rw [hhit] at hget
      cases hget
      exact .share hcall (h.ring.hit_some hhit)
    | none =>
      rw [hhit] at hget
      obtain ⟨b, hb, rfl⟩ := Option.map_eq_some_iff.mp hget
      exact .recycle hcall (h.ring.hit_none hhit) hb (h.ring.victim_some hb)
  | run p =>
    simp only [next, run] at hnext
    cases hcall : s.call p with
    | running =>
      rw [hcall] at hnext
      cases hnext
    | locking b =>
      simp only [hcall, Option.ite_none_right_eq_some] at hnext
      obtain ⟨hfree, hsome⟩ := hnext
      cases hsome
      exact .acquire hcall hfree
    | reading b =>
      simp only [hcall, bread] at hnext
      cases hvalid : (s.buf b).valid with
      | true =>
        rw [hvalid, if_pos rfl] at hnext
        cases hnext
        exact .found hcall hvalid
      | false =>
        have hholder := h.calls.locked p b (.inl hcall)
        have heq := iderw_eq h.begun h.labels h.disk1 hholder (h.calls.reading p b hcall).1
          fun hneed => by simp [hvalid] at hneed
        rw [hvalid, if_neg Bool.false_ne_true, heq] at hnext
        cases hnext
        exact .ask hcall hvalid
    | waiting b =>
      simp only [hcall, Option.ite_none_right_eq_some] at hnext
      obtain ⟨⟨hvalid, hclean⟩, hsome⟩ := hnext
      cases hsome
      exact .synced hcall hvalid hclean
    | releasing b =>
      rw [hcall] at hnext
      cases hnext
      exact .drop hcall
  | modify p b data =>
    simp only [next, Option.ite_none_right_eq_some] at hnext
    obtain ⟨⟨hcall, hholder⟩, hsome⟩ := hnext
    cases hsome
    exact .modify hcall hholder
  | pin p b =>
    simp only [next, Option.ite_none_right_eq_some] at hnext
    obtain ⟨⟨hcall, hholder⟩, hsome⟩ := hnext
    cases hsome
    exact .pin hcall hholder
  | bwrite p b =>
    simp only [next, Bcache.bwrite, Option.ite_none_right_eq_some, Option.ite_none_left_eq_some,
      not_not] at hnext
    obtain ⟨hcall, hholder, hiderw⟩ := hnext
    rw [h.iderw_setDirty hcall hholder] at hiderw
    cases hiderw
    exact .bwrite hcall hholder
  | brelse p b =>
    simp only [next, Bcache.brelse, Option.ite_none_right_eq_some, Option.ite_none_left_eq_some,
      not_not] at hnext
    obtain ⟨hcall, hholder, hsome⟩ := hnext
    cases hsome
    exact .brelse hcall hholder
  | ideintr =>
    cases hqueue : s.queue with
    | nil =>
      simp only [next, Bcache.ideintr, hqueue] at hnext
      cases hnext
      exact .idle hqueue
    | cons b rest =>
      rw [next, ideintr_eq h.labels hqueue] at hnext
      cases hnext
      exact .serve hqueue

end Sound

/-! ## The runs -/

theorem binit_holds : binit.Holds (List.finRange nbuf).reverse := by
  have hempty : (⟨fun _ => none, fun _ => none⟩ : Links (Fin nbuf)).Holds [] :=
    ⟨⟨rfl, rfl⟩, List.nodup_nil⟩
  have hring := hempty.foldl_insertFront (by
    rw [List.append_nil]
    exact List.nodup_finRange nbuf)
  rwa [List.append_nil] at hring

/-- Lookups are for blocks of the file system. -/
def Event.OnDisk : Event π → Prop
  | .get _ dev n => dev = rootdev ∧ n < fssize
  | _ => True

namespace Sound

variable [Fintype π] {e : Event π}

theorem unqueued (h : s.Sound) (hb : s.unused b = true) : b ∉ s.queue := by
  cases hholder : (s.buf b).holder with
  | none => exact (h.calls.free b hholder).1
  | some p => exact absurd (mem_held.mpr (.inl hholder)) (h.unheld hb p)

theorem begun_moves (h : s.Sound) (hmove : s.Moves e s') : s'.Begun := by
  have hsame : ∀ {b : Fin nbuf} {x : Buf π},
      (x.dirty, x.dev, x.blockno, x.data) =
        ((s.buf b).dirty, (s.buf b).dev, (s.buf b).blockno, (s.buf b).data) → ∀ c,
      ((Function.update s.buf b x c).dirty = (s.buf c).dirty ∧
        (Function.update s.buf b x c).dev = (s.buf c).dev ∧
        (Function.update s.buf b x c).blockno = (s.buf c).blockno ∧
        (Function.update s.buf b x c).data = (s.buf c).data) := by
    intro b x hx c
    have heq := apply_update_eq (fun y : Buf π => (y.dirty, y.dev, y.blockno, y.data)) hx c
    simpa using heq
  -- a buffer outside of the queue may change as it likes
  have hother : ∀ {b : Fin nbuf} {x : Buf π}, b ∉ s.queue → ∀ c ∈ s.queue,
      ((Function.update s.buf b x c).dirty = (s.buf c).dirty ∧
        (Function.update s.buf b x c).dev = (s.buf c).dev ∧
        (Function.update s.buf b x c).blockno = (s.buf c).blockno ∧
        (Function.update s.buf b x c).data = (s.buf c).data) := by
    intro b x hb c hc
    have hne : c ≠ b := by
      rintro rfl
      exact hb hc
    rw [Function.update_of_ne hne]
    exact ⟨rfl, rfl, rfl, rfl⟩
  cases hmove with
  | share | acquire | drop | brelse =>
    refine h.begun.congr rfl rfl fun c _ => hsame ?_ c
    rfl
  | found | synced | idle => exact h.begun
  | recycle _ _ _ hb => exact h.begun.congr rfl rfl (hother (h.unqueued hb))
  | modify hcall hholder | pin hcall hholder =>
    exact h.begun.congr rfl rfl (hother (h.calls.at_rest hcall hholder).1)
  | ask | bwrite | serve => exact begun_started _

theorem moves (h : s.Sound) (hdisk : e.OnDisk) (hmove : s.Moves e s') : s'.Sound where
  labels := h.labels.moves (fun _ _ _ heq => by rw [heq] at hdisk; exact hdisk) hmove
  counts := h.counts.moves hmove
  calls := h.calls.moves (fun _ hb => h.unheld hb) hmove
  ring := h.ring.moves hmove
  begun := h.begun_moves hmove
  disk1 := by
    have hdisk1 := h.disk1
    cases hmove with
    | ask | serve => simpa [requested, served] using hdisk1
    | bwrite => simpa [requested, setDirty] using hdisk1
    | share | recycle | acquire | found | synced | drop | modify | pin | brelse | idle =>
      exact hdisk1

theorem of_boot (disk : Nat → Nat → Block) : (boot disk true : Bcache π).Sound where
  labels := ⟨fun _ => .inl ⟨rfl, rfl⟩, fun _ _ hdev => nomatch hdev⟩
  counts := by
    intro b _
    refine (Finset.sum_eq_zero fun p _ => ?_).symm
    rw [count_held]
    rfl
  calls := by
    refine ⟨?_, fun b _ => ⟨List.not_mem_nil, nofun⟩, ?_, ?_, ?_, List.nodup_nil⟩
    · intro p b hb
      rcases hb with hb | hb
      · cases hb
      · cases hb
    · intro p b hb
      cases hb
    · intro p b hb
      cases hb
    · intro p b hb
      cases hb
  ring := ⟨_, binit_holds, fun b => List.mem_reverse.mpr (List.mem_finRange b)⟩
  begun := fun b hb => nomatch hb
  disk1 := rfl

theorem of_run {disk : Nat → Nat → Block} {es : List (Event π)}
    (run : Run (guarded (fun _ e => e.OnDisk) (stepOf next)) (boot disk true) es s) : s.Sound :=
  run.invariant Sound (of_boot disk) fun _ _ _ h hstep => h.moves hstep.1 (h.moves_of_next hstep.2)

/-- A buffer that counts no references is used by no process. -/
theorem refcnt_eq_zero_iff (h : s.Sound) (b : Fin nbuf) :
    (s.buf b).refcnt = 0 ↔ ∀ q, b ∉ s.held q := by
  constructor
  · intro hzero q hmem
    have hpos : (1 : Int) ≤ (s.buf b).refcnt := h.counts.pos trivial hmem
    omega
  · intro hunheld
    have hsum : ((s.buf b).refcnt : Int) = ∑ q, ((s.held q).count b : Int) := h.counts b trivial
    have hzero : ∑ q, ((s.held q).count b : Int) = 0 := by
      refine Finset.sum_eq_zero fun q _ => ?_
      rw [List.count_eq_zero_of_not_mem (hunheld q)]
      rfl
    omega

theorem bget_eq_none_iff (h : s.Sound) (p : π) (dev n : Nat) :
    s.bget p dev n = none ↔ (∀ b, s.labelled dev n b = false) ∧
      ∀ b, (s.buf b).dirty = true ∨ ∃ q, b ∈ s.held q := by
  have hused : ∀ b, s.unused b = false ↔ (s.buf b).dirty = true ∨ ∃ q, b ∈ s.held q := by
    intro b
    rw [unused, decide_eq_false_iff_not, h.refcnt_eq_zero_iff, not_and_or, or_comm,
      Bool.not_eq_false, not_forall]
    simp only [not_not]
  unfold bget
  cases hhit : s.hit dev n with
  | some b =>
    have hlabel := h.ring.hit_some hhit
    constructor
    · intro hnone
      cases hnone
    · intro hall
      rw [hall.1 b] at hlabel
      cases hlabel
  | none =>
    rw [Option.map_eq_none_iff, h.ring.victim_none]
    simp only [hused]
    exact (and_iff_right (h.ring.hit_none hhit)).symm

/-- A process inside a call goes on, unless it waits for a lock or for the disk. -/
theorem run_eq_none_iff (h : s.Sound) (p : π) : s.run p = none ↔ s.call p = .running ∨
    (∃ b, s.call p = .locking b ∧ (s.buf b).holder ≠ none) ∨
      ∃ b, s.call p = .waiting b ∧ b ∈ s.queue := by
  unfold run
  cases hcall : s.call p with
  | running => simp
  | locking b => simp
  | reading b =>
    have hsome : (s.bread p b).isSome = true := by
      unfold bread
      cases hvalid : (s.buf b).valid with
      | true => rfl
      | false =>
        rw [if_neg Bool.false_ne_true, iderw_eq h.begun h.labels h.disk1
          (h.calls.locked p b (.inl hcall)) (h.calls.reading p b hcall).1
          fun hneed => by simp [hvalid] at hneed]
        rfl
    simp [Option.isSome_iff_ne_none.mp hsome]
  | waiting b =>
    have hqueue := h.calls.waiting p b hcall
    by_cases hdone : (s.buf b).valid = true ∧ (s.buf b).dirty = false
    · simp [hdone, hqueue]
    · have hmem : b ∈ s.queue := by
        rw [hqueue]
        simpa [imp_iff_not_or] using hdone
      simp [hdone, hmem]
  | releasing b => simp

end Sound

/-- In every run a lookup panics just if the block is in no buffer and every buffer is dirty or used
by a process. A process inside a call waits for nothing but a lock and the disk, and nothing else
panics. -/
theorem no_buffers_iff [Fintype π] {disk : Nat → Nat → Block} {es : List (Event π)}
    (run : Run (guarded (fun _ e => e.OnDisk) (stepOf next)) (boot disk true) es s) :
    (∀ p n, s.call p = .running → (s.next (.get p rootdev n) = none ↔
      (∀ b, s.labelled rootdev n b = false) ∧
        ∀ b, (s.buf b).dirty = true ∨ ∃ q, b ∈ s.held q)) ∧
    (∀ p, s.next (.run p) = none ↔ s.call p = .running ∨
      (∃ b, s.call p = .locking b ∧ (s.buf b).holder ≠ none) ∨
        ∃ b, s.call p = .waiting b ∧ b ∈ s.queue) ∧
    (∀ p b, s.call p = .running → (s.buf b).holder = some p →
      (s.next (.bwrite p b)).isSome ∧ (s.next (.brelse p b)).isSome) ∧
    (s.next .ideintr).isSome := by
  have hsound := Sound.of_run run
  refine ⟨fun p n hcall => ?_, hsound.run_eq_none_iff, fun p b hcall hholder => ⟨?_, ?_⟩, ?_⟩
  · rw [next, if_pos hcall]
    exact hsound.bget_eq_none_iff p rootdev n
  · rw [next, if_pos hcall, Bcache.bwrite, if_neg (not_not_intro hholder),
      hsound.iderw_setDirty hcall hholder]
    rfl
  · rw [next, if_pos hcall, Bcache.brelse, if_neg (not_not_intro hholder)]
    rfl
  · cases hqueue : s.queue with
    | nil =>
      unfold next ideintr
      rw [hqueue]
      rfl
    | cons b rest =>
      rw [next, ideintr_eq hsound.labels hqueue]
      rfl

instance (e : Event π) : Decidable e.OnDisk :=
  match e with
  | .get _ _ _ => inferInstanceAs (Decidable (_ ∧ _))
  | .run _ | .modify _ _ _ | .pin _ _ | .bwrite _ _ | .brelse _ _ | .ideintr =>
    inferInstanceAs (Decidable True)

/-- Each of `nbuf` processes looks up a block of its own. -/
def lookAll : List (Event (Fin (nbuf + 1))) :=
  (List.finRange nbuf).map fun p : Fin nbuf => .get p.castSucc rootdev p

/-- The lookup of one more process panics: its block is in no buffer, and all are in use. -/
theorem no_buffers_iff_all_used : ∃ s,
    runOf (fun s e => if Event.OnDisk e then next s e else none) (boot (fun _ _ => .zero) true)
      lookAll = some s ∧
    s.next (.get (Fin.last nbuf) rootdev nbuf) = none ∧
    (∀ b, s.labelled rootdev nbuf b = false) ∧
    (∀ b, (s.buf b).dirty = true ∨ ∃ q, b ∈ s.held q) ∧
    (∀ p, s.next (.run p) = none ↔ s.call p = .running ∨
      (∃ b, s.call p = .locking b ∧ (s.buf b).holder ≠ none) ∨
        ∃ b, s.call p = .waiting b ∧ b ∈ s.queue) := by
  have hobs : (runOf (fun s e => if Event.OnDisk e then next s e else none)
      (boot (fun _ _ => .zero) true) lookAll).map (fun s =>
        ((s.next (.get (Fin.last nbuf) rootdev nbuf)).isNone,
          decide (s.call (Fin.last nbuf) = .running))) = some (true, true) := by
    decide +kernel
  obtain ⟨s, hs, hfacts⟩ := Option.map_eq_some_iff.mp hobs
  simp only [Prod.mk.injEq, Option.isNone_iff_eq_none, decide_eq_true_eq] at hfacts
  obtain ⟨hpanic, hrunning⟩ := hfacts
  obtain ⟨hlookup, hwaits, -, -⟩ := no_buffers_iff (run_guarded_of_runOf hs)
  obtain ⟨habsent, hused⟩ := (hlookup _ _ hrunning).mp hpanic
  exact ⟨s, hs, hpanic, habsent, hused, hwaits⟩

end Bcache

end Cs537.P5
