import Cs537.P5.Buffers

/-!
# The buffer cache as a store of blocks

A store of blocks has the current contents of each block and the contents on the disk, which follow
when the block is synced. The buffer cache is such a store, if nobody releases a buffer with changes
that are neither pinned nor written.
-/

namespace Cs537.P5

open Cs537.Lib

/-- The contents of the blocks, and what the disk has of them. -/
structure BlockStore where
  current : Nat → Block
  durable : Nat → Block

namespace BlockStore

inductive Event where
  | read (n : Nat) (data : Block)
  | write (n : Nat) (data : Block)
  /-- The disk gets the block. -/
  | sync (n : Nat)

/-- A read finds the current contents. -/
def next (a : BlockStore) : Event → Option BlockStore
  | .read n data => if a.current n = data then some a else none
  | .write n data => some { a with current := Function.update a.current n data }
  | .sync n => some { a with durable := Function.update a.durable n (a.current n) }

end BlockStore

/-- The part of a buffer that decides what a reader finds. -/
def Buf.shown {π : Type} (x : Buf π) : Nat × Nat × Bool × Block :=
  (x.dev, x.blockno, x.valid, x.data)

namespace Bcache

variable {π : Type} {s s' : Bcache π} {p : π} {b c : Fin nbuf} {rest : List (Fin nbuf)} {n : Nat}

/-! ## The blocks in the cache -/

def caches (s : Bcache π) (n : Nat) (b : Fin nbuf) : Bool :=
  s.labelled rootdev n b && (s.buf b).valid

/-- What a process that reads block `n` finds. -/
def view (s : Bcache π) (n : Nat) : Block :=
  match (List.finRange nbuf).find? (s.caches n) with
  | some b => (s.buf b).data
  | none => s.disk rootdev n

theorem caches_iff : s.caches n b = true ↔
    (s.buf b).dev = rootdev ∧ (s.buf b).blockno = n ∧ (s.buf b).valid = true := by
  simp [caches, labelled, and_assoc]

theorem caches_congr (hdev : (s'.buf b).dev = (s.buf b).dev)
    (hblockno : (s'.buf b).blockno = (s.buf b).blockno)
    (hvalid : (s'.buf b).valid = (s.buf b).valid) (n : Nat) : s'.caches n b = s.caches n b := by
  unfold caches labelled
  rw [hdev, hblockno, hvalid]

theorem view_of_caches (h : s.Labels) (hb : s.caches n b = true) : s.view n = (s.buf b).data := by
  unfold view
  cases hfind : (List.finRange nbuf).find? (s.caches n) with
  | none =>
    have hno := List.find?_eq_none.mp hfind b (List.mem_finRange b)
    exact absurd hb hno
  | some c =>
    obtain ⟨hdev, hblockno, -⟩ := caches_iff.mp hb
    obtain ⟨hdev', hblockno', -⟩ := caches_iff.mp (List.find?_some hfind)
    have hcb : c = b := h.distinct b c hdev (hdev'.trans hdev.symm) (hblockno'.trans hblockno.symm)
    dsimp only
    rw [hcb]

theorem view_of_uncached (h : ∀ b, s.caches n b = false) : s.view n = s.disk rootdev n := by
  have hfind : (List.finRange nbuf).find? (s.caches n) = none := by
    refine List.find?_eq_none.mpr fun b _ => ?_
    rw [h b]
    exact Bool.false_ne_true
  unfold view
  rw [hfind]

theorem view_congr (h : s.Labels) (hbuf : ∀ b, (s'.buf b).shown = (s.buf b).shown)
    (hdisk : ∀ n, (∀ b, s.caches n b = false) → s'.disk rootdev n = s.disk rootdev n) :
    s'.view = s.view := by
  have hdev : ∀ b, (s'.buf b).dev = (s.buf b).dev := fun b => congrArg Prod.fst (hbuf b)
  have hblockno : ∀ b, (s'.buf b).blockno = (s.buf b).blockno :=
    fun b => congrArg (fun x => x.2.1) (hbuf b)
  have hvalid : ∀ b, (s'.buf b).valid = (s.buf b).valid :=
    fun b => congrArg (fun x => x.2.2.1) (hbuf b)
  have hcaches : ∀ n b, s'.caches n b = s.caches n b :=
    fun n b => caches_congr (hdev b) (hblockno b) (hvalid b) n
  funext n
  by_cases hcached : ∃ b, s.caches n b = true
  · obtain ⟨b, hb⟩ := hcached
    rw [view_of_caches h hb,
      view_of_caches (h.congr hdev hblockno) ((hcaches n b).trans hb)]
    exact congrArg (fun x => x.2.2.2) (hbuf b)
  · have hno : ∀ b, s.caches n b = false :=
      fun b => Bool.eq_false_of_not_eq_true fun hb => hcached ⟨b, hb⟩
    rw [view_of_uncached hno, view_of_uncached fun b => (hcaches n b).trans (hno b)]
    exact hdisk n hno

variable [DecidableEq π]

/-! ## What the store does -/

/-- The disk is asked to write the first buffer of the queue. -/
def syncing (s : Bcache π) : List BlockStore.Event :=
  match s.queue.head? with
  | some b => if (s.buf b).dirty then [.sync (s.buf b).blockno] else []
  | none => []

/-- What a step does to the store. -/
def told (s : Bcache π) : Event π → List BlockStore.Event
  | .run p =>
    match s.call p with
    | .reading b => if (s.buf b).valid then [.read (s.buf b).blockno (s.buf b).data] else []
    | .waiting b => [.read (s.buf b).blockno (s.buf b).data]
    | _ => []
  | .modify _ b data => [.write (s.buf b).blockno data]
  | .bwrite _ b => if s.queue = [] then [.sync (s.buf b).blockno] else []
  | .ideintr => { s with queue := s.queue.tail }.syncing
  | _ => []

/-- What holds as long as no changes get lost: a buffer that nobody has locked is pinned, or as on
the disk. -/
structure Kept (s : Bcache π) : Prop where
  fresh : ∀ b, (s.buf b).dev = 0 → (s.buf b).refcnt = 0 ∧ (s.buf b).valid = false
  dirty : ∀ b, (s.buf b).dirty = true → (s.buf b).valid = true
  clean : ∀ b, (s.buf b).holder = none → (s.buf b).valid = true → (s.buf b).dirty = false →
    (s.buf b).data = s.disk rootdev (s.buf b).blockno

/-- The store that a cache stands for. -/
def store (s : Bcache π) : BlockStore := ⟨s.view, s.disk rootdev⟩

omit [DecidableEq π] in
theorem started_disk (hhead : s.queue.head? = some b) (hdirty : (s.buf b).dirty = true)
    (hdev : (s.buf b).dev = rootdev) :
    s.started.disk rootdev =
      Function.update (s.disk rootdev) (s.buf b).blockno (s.buf b).data := by
  have hmod : rootdev % 2 = rootdev := rfl
  simp [started, hhead, hdirty, hdev, hmod]

omit [DecidableEq π] in
/-- What the disk is asked to write is what the block holds. -/
theorem run_started (h : s.Labels) (hhead : ∀ b, s.queue.head? = some b →
      (s.buf b).dirty = true → s.caches (s.buf b).blockno b = true) :
    Run (stepOf BlockStore.next) s.store s.syncing s.started.store := by
  unfold syncing
  cases hfirst : s.queue.head? with
  | none =>
    have hsame : s.started = s := by
      unfold started
      rw [hfirst]
    rw [hsame]
    exact .nil
  | some b =>
    dsimp only
    by_cases hdirty : (s.buf b).dirty = true
    · rw [if_pos hdirty]
      have hcaches := hhead b hfirst hdirty
      have hview : s.started.view = s.view := by
        refine view_congr h (fun b => by rw [started_buf]) fun n hno => ?_
        rw [started_disk hfirst hdirty (caches_iff.mp hcaches).1, Function.update_of_ne]
        rintro rfl
        rw [hno b] at hcaches
        cases hcaches
      refine run_of_runOf ?_
      have hdisk := started_disk hfirst hdirty (caches_iff.mp hcaches).1
      rw [← view_of_caches h hcaches] at hdisk
      simp only [runOf, BlockStore.next, store, Option.bind_some, hview, hdisk]
    · rw [if_neg hdirty]
      have hsame : s.started = s := by
        unfold started
        rw [hfirst]
        exact if_neg hdirty
      rw [hsame]
      exact .nil

/-- Lookups are for blocks of the file system, and whoever releases a buffer has pinned or written
what is in it. -/
def Careful (s : Bcache π) : Event π → Prop
  | .get _ dev n => dev = rootdev ∧ n < fssize
  | .brelse _ b => (s.buf b).dirty = true ∨ (s.buf b).data = s.disk rootdev (s.buf b).blockno
  | _ => True

omit [DecidableEq π] in
theorem Careful.onDisk {e : Event π} (h : s.Careful e) : e.OnDisk := by
  cases e with
  | get => exact h
  | _ => trivial

omit [DecidableEq π] in
theorem Kept.caches (h : s.Kept) (hlabels : s.Labels) (hvalid : (s.buf b).valid = true) :
    s.caches (s.buf b).blockno b = true := by
  refine caches_iff.mpr ⟨?_, rfl, hvalid⟩
  rcases hlabels.device b with ⟨hzero, -⟩ | ⟨hdev, -⟩
  · rw [(h.fresh b hzero).2] at hvalid
    cases hvalid
  · exact hdev

omit [DecidableEq π] in
theorem store_congr (h : s.Labels) (hbuf : ∀ b, (s'.buf b).shown = (s.buf b).shown)
    (hdisk : s'.disk = s.disk) : s'.store = s.store := by
  unfold store
  rw [view_congr h hbuf fun n _ => by rw [hdisk], hdisk]

/-- A process that reads a valid buffer finds what the block holds. -/
theorem run_read (h : s.Kept) (hlabels : s.Labels) (hvalid : (s.buf b).valid = true) (p : π) :
    Run (stepOf BlockStore.next) s.store [.read (s.buf b).blockno (s.buf b).data]
      (s.returned p).store := by
  have hsame : (s.returned p).store = s.store := rfl
  rw [hsame]
  refine run_of_runOf ?_
  have hview := view_of_caches hlabels (h.caches hlabels hvalid)
  simp only [runOf, BlockStore.next, store, hview, if_true, Option.bind_some]

omit [DecidableEq π] in
/-- A process stores into a buffer that it has locked. -/
theorem store_stored (h : s.Kept) (hlabels : s.Labels) (hvalid : (s.buf b).valid = true)
    (data : Block) : (s.stored b data).store =
      ⟨Function.update s.view (s.buf b).blockno data, s.disk rootdev⟩ := by
  have hdev : ∀ c, ((s.stored b data).buf c).dev = (s.buf c).dev := apply_update_eq Buf.dev rfl
  have hblockno : ∀ c, ((s.stored b data).buf c).blockno = (s.buf c).blockno :=
    apply_update_eq Buf.blockno rfl
  have hvalid' : ∀ c, ((s.stored b data).buf c).valid = (s.buf c).valid :=
    apply_update_eq Buf.valid rfl
  have hlabels' : (s.stored b data).Labels := hlabels.congr hdev hblockno
  have hcaches : ∀ n c, (s.stored b data).caches n c = s.caches n c :=
    fun n c => caches_congr (hdev c) (hblockno c) (hvalid' c) n
  have hstored : (s.stored b data).buf b = { s.buf b with data := data } := Function.update_self ..
  have hself := h.caches hlabels hvalid
  have hview : (s.stored b data).view = Function.update s.view (s.buf b).blockno data := by
    funext n
    by_cases hn : n = (s.buf b).blockno
    · subst hn
      rw [Function.update_self, view_of_caches hlabels' ((hcaches _ b).trans hself), hstored]
    · rw [Function.update_of_ne hn]
      by_cases hcached : ∃ c, s.caches n c = true
      · obtain ⟨c, hc⟩ := hcached
        have hcb : c ≠ b := by
          rintro rfl
          exact hn (caches_iff.mp hc).2.1.symm
        have hother : (s.stored b data).buf c = s.buf c := Function.update_of_ne hcb ..
        rw [view_of_caches hlabels' ((hcaches n c).trans hc), view_of_caches hlabels hc, hother]
      · have hno : ∀ c, s.caches n c = false :=
          fun c => Bool.eq_false_of_not_eq_true fun hc => hcached ⟨c, hc⟩
        rw [view_of_uncached hno, view_of_uncached fun c => (hcaches n c).trans (hno c)]
        rfl
  unfold store
  rw [hview]
  rfl

/-- A buffer that is recycled shows what the disk has. -/
theorem store_recycle (h : s.Kept) (hlabels : s.Labels)
    (hlabels' : (s.recycle p b rootdev n).Labels) (hunlocked : (s.buf b).holder = none)
    (hclean : (s.buf b).dirty = false) :
    (s.recycle p b rootdev n).store = s.store := by
  have hself : (s.recycle p b rootdev n).buf b = { s.buf b with
      dev := rootdev, blockno := n, valid := false, dirty := false, refcnt := 1 } :=
    Function.update_self ..
  have hother : ∀ c, c ≠ b → (s.recycle p b rootdev n).buf c = s.buf c :=
    fun c hc => Function.update_of_ne hc ..
  have hview : (s.recycle p b rootdev n).view = s.view := by
    funext m
    by_cases hcached : ∃ c, s.caches m c = true
    · obtain ⟨c, hc⟩ := hcached
      obtain ⟨hdev, hblockno, hvalid⟩ := caches_iff.mp hc
      by_cases hcb : c = b
      · -- the old contents of the buffer are on the disk
        subst hcb
        rw [view_of_caches hlabels hc, h.clean c hunlocked hvalid hclean, hblockno]
        refine view_of_uncached fun a => Bool.eq_false_of_not_eq_true fun ha => ?_
        obtain ⟨hadev, hablockno, havalid⟩ := caches_iff.mp ha
        by_cases hac : a = c
        · rw [hac, hself] at havalid
          cases havalid
        · rw [hother a hac] at hadev hablockno
          exact hac (hlabels.distinct c a hdev (hadev.trans hdev.symm)
            (hablockno.trans hblockno.symm))
      · rw [view_of_caches hlabels hc, view_of_caches hlabels' (b := c), hother c hcb]
        rw [caches_iff, hother c hcb]
        exact ⟨hdev, hblockno, hvalid⟩
    · have hno : ∀ c, s.caches m c = false :=
        fun c => Bool.eq_false_of_not_eq_true fun hc => hcached ⟨c, hc⟩
      rw [view_of_uncached hno]
      refine view_of_uncached fun a => Bool.eq_false_of_not_eq_true fun ha => ?_
      by_cases hab : a = b
      · rw [caches_iff, hab, hself] at ha
        cases ha.2.2
      · rw [caches_iff, hother a hab, ← caches_iff, hno a] at ha
        cases ha
  unfold store
  rw [hview]
  rfl

/-! ## Nothing gets lost -/

/-- A process waits, and the disk has not been asked yet. -/
def enqueued (s : Bcache π) (p : π) (b : Fin nbuf) : Bcache π :=
  { s with queue := s.queue ++ [b], call := Function.update s.call p (.waiting b) }

/-- The disk has finished with the first buffer, and has not been asked for the next one. -/
def finished (s : Bcache π) (b : Fin nbuf) (rest : List (Fin nbuf)) : Bcache π :=
  let x := s.buf b
  let data := if x.dirty then x.data else s.disk (x.dev % 2) x.blockno
  { s with
    queue := rest
    buf := Function.update s.buf b { x with data := data, valid := true, dirty := false } }

theorem requested_eq (s : Bcache π) (p : π) (b : Fin nbuf) :
    s.requested p b = (s.enqueued p b).started := rfl

omit [DecidableEq π] in
theorem served_eq (s : Bcache π) (b : Fin nbuf) (rest : List (Fin nbuf)) :
    s.served b rest = (s.finished b rest).started := rfl

omit [DecidableEq π] in
theorem labels_finished (h : s.Labels) (b : Fin nbuf) (rest : List (Fin nbuf)) :
    (s.finished b rest).Labels :=
  h.congr (apply_update_eq Buf.dev rfl) (apply_update_eq Buf.blockno rfl)

omit [DecidableEq π] in
theorem Kept.update (h : s.Kept) {x : Buf π} (hbuf : s'.buf = Function.update s.buf b x)
    (hdisk : s'.disk = s.disk) (hfresh : x.dev = 0 → x.refcnt = 0 ∧ x.valid = false)
    (hdirty : x.dirty = true → x.valid = true)
    (hclean : x.holder = none → x.valid = true → x.dirty = false →
      x.data = s.disk rootdev x.blockno) : s'.Kept := by
  have hself : s'.buf b = x := by
    rw [hbuf]
    exact Function.update_self ..
  have hother : ∀ c, c ≠ b → s'.buf c = s.buf c := by
    intro c hc
    rw [hbuf]
    exact Function.update_of_ne hc ..
  refine ⟨fun c => ?_, fun c => ?_, fun c => ?_⟩
  · by_cases hc : c = b
    · rw [hc, hself]
      exact hfresh
    · rw [hother c hc]
      exact h.fresh c
  · by_cases hc : c = b
    · rw [hc, hself]
      exact hdirty
    · rw [hother c hc]
      exact h.dirty c
  · by_cases hc : c = b
    · rw [hc, hself, hdisk]
      exact hclean
    · rw [hother c hc, hdisk]
      exact h.clean c

omit [DecidableEq π] in
/-- The disk gets the first buffer of the queue, which somebody has locked. -/
theorem Kept.started (h : s.Kept) (hlabels : s.Labels)
    (hholder : ∀ b, s.queue.head? = some b → (s.buf b).holder ≠ none) : s.started.Kept := by
  refine ⟨?_, ?_, fun a => ?_⟩
  · rw [started_buf]
    exact h.fresh
  · rw [started_buf]
    exact h.dirty
  · rw [started_buf]
    intro hnone hvalid hclean
    have hdisk : s.started.disk rootdev (s.buf a).blockno = s.disk rootdev (s.buf a).blockno := by
      cases hhead : s.queue.head? with
      | none =>
        unfold Bcache.started
        rw [hhead]
      | some c =>
        by_cases hdirty : (s.buf c).dirty = true
        · have hc := caches_iff.mp (h.caches hlabels (h.dirty c hdirty))
          have ha := caches_iff.mp (h.caches hlabels hvalid)
          rw [started_disk hhead hdirty hc.1, Function.update_of_ne]
          intro heq
          have hac : a = c := hlabels.distinct c a hc.1 (ha.1.trans hc.1.symm) heq
          exact hholder c hhead (hac ▸ hnone)
        · unfold Bcache.started
          rw [hhead]
          exact congrArg (fun t : Bcache π => t.disk rootdev (s.buf a).blockno) (if_neg hdirty)
    rw [hdisk]
    exact h.clean a hnone hvalid hclean

omit [DecidableEq π] in
theorem Calls.holder_of_queue (h : s.Calls) (hb : b ∈ s.queue) : (s.buf b).holder ≠ none :=
  fun hnone => (h.free b hnone).1 hb

omit [DecidableEq π] in
theorem holder_of_head (h : s.Calls) (hholder : (s.buf b).holder = some p) :
    ∀ c, (s.queue ++ [b]).head? = some c → (s.buf c).holder ≠ none := by
  intro c hc
  rcases List.mem_append.mp (List.mem_of_mem_head? hc) with hmem | hmem
  · exact h.holder_of_queue hmem
  · rw [List.mem_singleton.mp hmem, hholder]
    exact Option.some_ne_none p

omit [DecidableEq π] in
theorem Kept.setDirty (h : s.Kept) (hvalid : (s.buf b).valid = true) : (s.setDirty b).Kept :=
  h.update rfl rfl (h.fresh b) (fun _ => hvalid) fun _ _ hclean => nomatch hclean

/-- The buffers of a queue are in use. -/
theorem Kept.finished [Fintype π] (hkept : s.Kept) (h : s.Sound) (hmem : b ∈ s.queue)
    (rest : List (Fin nbuf)) : (s.finished b rest).Kept := by
  refine hkept.update rfl rfl (fun hzero => ?_) nofun fun hnone => ?_
  · obtain ⟨p, hp⟩ := Option.ne_none_iff_exists'.mp (h.calls.holder_of_queue hmem)
    have hpos : (1 : Int) ≤ (s.buf b).refcnt := h.counts.pos trivial (mem_held.mpr (.inl hp))
    have hrefcnt := (hkept.fresh b hzero).1
    omega
  · exact absurd hnone (h.calls.holder_of_queue hmem)

theorem Kept.moves [Fintype π] {e : Event π} (hkept : s.Kept) (h : s.Sound) (hcareful : s.Careful e)
    (hmove : s.Moves e s') : s'.Kept := by
  cases hmove with
  | @share p dev n b _ hlabel =>
    have hdev : (s.buf b).dev = rootdev := (decide_eq_true_iff.mp hlabel).1.trans hcareful.1
    refine hkept.update rfl rfl (fun hzero => ?_) (hkept.dirty b) (hkept.clean b)
    rw [hdev] at hzero
    cases hzero
  | recycle =>
    obtain ⟨rfl, -⟩ := hcareful
    exact hkept.update rfl rfl nofun nofun fun _ hvalid => nomatch hvalid
  | @acquire p b =>
    exact hkept.update rfl rfl (hkept.fresh b) (hkept.dirty b) nofun
  | found | synced | idle => exact ⟨hkept.fresh, hkept.dirty, hkept.clean⟩
  | @ask p b hcall _ =>
    have hsame : (s.enqueued p b).Kept := ⟨hkept.fresh, hkept.dirty, hkept.clean⟩
    exact hsame.started (h.labels.congr (fun _ => rfl) fun _ => rfl)
      (holder_of_head h.calls (h.calls.locked p b (.inl hcall)))
  | @drop p b =>
    refine hkept.update rfl rfl (fun hzero => ?_) (hkept.dirty b) (hkept.clean b)
    obtain ⟨hrefcnt, hvalid⟩ := hkept.fresh b hzero
    exact ⟨by simp [hrefcnt], hvalid⟩
  | @modify p b data _ hholder =>
    refine hkept.update rfl rfl (hkept.fresh b) (hkept.dirty b) fun hnone => ?_
    rw [hholder] at hnone
    cases hnone
  | pin hcall hholder => exact hkept.setDirty (h.calls.at_rest hcall hholder).2
  | @bwrite p b hcall hholder =>
    have hdirty := hkept.setDirty (h.calls.at_rest hcall hholder).2
    have hself : (s.setDirty b).buf b = { s.buf b with dirty := true } := Function.update_self ..
    have hsame : ((s.setDirty b).enqueued p b).Kept := ⟨hdirty.fresh, hdirty.dirty, hdirty.clean⟩
    refine hsame.started ((h.labels.setDirty b).congr (fun _ => rfl) fun _ => rfl) ?_
    exact holder_of_head (h.calls.setDirty hcall hholder) (by rw [hself]; exact hholder)
  | @brelse p b =>
    refine hkept.update rfl rfl (hkept.fresh b) (hkept.dirty b) fun _ _ hclean => ?_
    rcases hcareful with hdirty | hdata
    · rw [hdirty] at hclean
      cases hclean
    · exact hdata
  | @serve b rest hqueue =>
    rw [served_eq]
    have hmem : b ∈ s.queue := by
      rw [hqueue]
      exact List.mem_cons_self
    have hfinished := hkept.finished h hmem rest
    refine hfinished.started (labels_finished h.labels b rest) fun c hc => ?_
    have hcmem : c ∈ s.queue := by
      rw [hqueue]
      exact List.mem_cons_of_mem b (List.mem_of_mem_head? hc)
    have hholder : ((s.finished b rest).buf c).holder = (s.buf c).holder := by
      unfold Bcache.finished
      refine apply_update_eq Buf.holder ?_ c
      rfl
    rw [hholder]
    exact h.calls.holder_of_queue hcmem

/-! ## The simulation -/

omit [DecidableEq π] in
theorem shown_update {x : Buf π} (hx : x.shown = (s.buf b).shown) :
    ∀ c, (Function.update s.buf b x c).shown = (s.buf c).shown :=
  apply_update_eq Buf.shown hx

omit [DecidableEq π] in
/-- A buffer that is read shows what the disk has. -/
theorem store_finished (hkept : s.Kept) (hlabels : s.Labels) (hkept' : (s.finished b rest).Kept)
    (hneed : (s.buf b).valid = false ∨ (s.buf b).dirty = true) :
    (s.finished b rest).store = s.store := by
  by_cases hdirty : (s.buf b).dirty = true
  · refine store_congr hlabels (fun c => ?_) rfl
    unfold finished
    dsimp only
    refine shown_update ?_ c
    rw [if_pos hdirty, Buf.shown, Buf.shown, hkept.dirty b hdirty]
  · have hinvalid := hneed.resolve_right hdirty
    have hlabels' := labels_finished hlabels b rest
    have hself : (s.finished b rest).buf b = { s.buf b with
        data := s.disk ((s.buf b).dev % 2) (s.buf b).blockno, valid := true, dirty := false } := by
      unfold finished
      dsimp only
      rw [if_neg hdirty]
      exact Function.update_self ..
    have hother : ∀ c, c ≠ b → (s.finished b rest).buf c = s.buf c :=
      fun c hc => Function.update_of_ne hc ..
    have hcaches' := hkept'.caches hlabels' (b := b) (by rw [hself])
    rw [hself] at hcaches'
    have hdev : (s.buf b).dev = rootdev := by
      have hdev := (caches_iff.mp hcaches').1
      rwa [hself] at hdev
    have hcaches : ∀ n c, c ≠ b → (s.finished b rest).caches n c = s.caches n c := by
      intro n c hc
      have heq := hother c hc
      exact caches_congr (by rw [heq]) (by rw [heq]) (by rw [heq]) n
    have hunread : ∀ n, s.caches n b = false := by
      intro n
      unfold caches
      rw [hinvalid, Bool.and_false]
    have hview : (s.finished b rest).view = s.view := by
      funext n
      by_cases hcached : ∃ c, s.caches n c = true
      · obtain ⟨c, hc⟩ := hcached
        have hcb : c ≠ b := by
          rintro rfl
          rw [hunread n] at hc
          cases hc
        rw [view_of_caches hlabels hc, view_of_caches hlabels' ((hcaches n c hcb).trans hc),
          hother c hcb]
      · have hno : ∀ c, s.caches n c = false :=
          fun c => Bool.eq_false_of_not_eq_true fun hc => hcached ⟨c, hc⟩
        rw [view_of_uncached hno]
        by_cases hn : n = (s.buf b).blockno
        · subst hn
          rw [view_of_caches hlabels' hcaches', hself, hdev]
          rfl
        · refine view_of_uncached fun c => Bool.eq_false_of_not_eq_true fun hc => ?_
          by_cases hcb : c = b
          · rw [caches_iff, hcb, hself] at hc
            exact hn hc.2.1.symm
          · rw [hcaches n c hcb, hno c] at hc
            cases hc
    unfold store
    rw [hview]
    rfl

/-- What the disk is asked for is known beforehand. -/
theorem run_requested (hkept : s.Kept) (hlabels : s.Labels) (hbegun : s.Begun)
    (p : π) (b : Fin nbuf) :
    Run (stepOf BlockStore.next) s.store
      (if s.queue = [] ∧ (s.buf b).dirty = true then [.sync (s.buf b).blockno] else [])
      (s.requested p b).store := by
  rw [requested_eq]
  have hsame : (s.enqueued p b).store = s.store := rfl
  rw [← hsame]
  cases hqueue : s.queue with
  | nil =>
    have hhead : (s.enqueued p b).queue.head? = some b := by
      unfold enqueued
      rw [hqueue]
      rfl
    have hsyncing : (s.enqueued p b).syncing =
        if (s.buf b).dirty = true then [.sync (s.buf b).blockno] else [] := by
      unfold syncing
      rw [hhead]
      rfl
    simp only [true_and]
    rw [← hsyncing]
    refine run_started (hlabels.congr (fun _ => rfl) fun _ => rfl) fun c hc hdirty => ?_
    exact hkept.caches hlabels (hkept.dirty c hdirty)
  | cons a rest =>
    rw [if_neg fun h => List.cons_ne_nil a rest h.1]
    have hstarted : (s.enqueued p b).started = s.enqueued p b := by
      refine Begun.started_eq fun c hc => hbegun c ?_
      unfold enqueued at hc
      rw [hqueue] at hc ⊢
      exact hc
    rw [hstarted]
    exact .nil

/-- Every step does to the store what `told` says. -/
theorem told_moves [Fintype π] {e : Event π} (hkept : s.Kept) (h : s.Sound)
    (hcareful : s.Careful e) (hmove : s.Moves e s') :
    Run (stepOf BlockStore.next) s.store (s.told e) s'.store := by
  have hquiet : ∀ {t : Bcache π}, (∀ c, (t.buf c).shown = (s.buf c).shown) → t.disk = s.disk →
      Run (stepOf BlockStore.next) s.store [] t.store := by
    intro t hbuf hdisk
    rw [store_congr h.labels hbuf hdisk]
    exact .nil
  cases hmove with
  | share => exact hquiet (shown_update rfl) rfl
  | @recycle p dev n b hcall hmiss hvictim hunused =>
    have hunlocked : (s.buf b).holder = none := by
      refine Option.eq_none_iff_forall_ne_some.mpr fun q hq => ?_
      exact h.unheld hunused q (mem_held.mpr (.inl hq))
    have hlabels := h.labels.moves (fun _ _ _ heq => by rw [heq] at hcareful; exact hcareful)
      (.recycle hcall hmiss hvictim hunused)
    obtain ⟨rfl, -⟩ := hcareful
    rw [store_recycle hkept h.labels hlabels hunlocked (decide_eq_true_iff.mp hunused).2]
    exact .nil
  | acquire hcall =>
    simp only [told, hcall]
    exact hquiet (shown_update rfl) rfl
  | found hcall hvalid =>
    simp only [told, hcall, hvalid, if_true]
    exact run_read hkept h.labels hvalid _
  | @ask p b hcall hvalid =>
    have hclean : ¬ (s.buf b).dirty = true := by
      intro hdirty
      rw [hkept.dirty b hdirty] at hvalid
      cases hvalid
    have hrun := run_requested hkept h.labels h.begun p b
    rw [if_neg fun hboth => hclean hboth.2] at hrun
    simpa only [told, hcall, hvalid, Bool.false_eq_true, if_false] using hrun
  | synced hcall hvalid =>
    simp only [told, hcall]
    exact run_read hkept h.labels hvalid _
  | drop hcall =>
    simp only [told, hcall]
    exact hquiet (shown_update rfl) rfl
  | @modify p b data hcall hholder =>
    have hstore := store_stored hkept h.labels (h.calls.at_rest hcall hholder).2 data
    rw [hstore]
    exact run_of_runOf rfl
  | pin => exact hquiet (shown_update rfl) rfl
  | @bwrite p b hcall hholder =>
    have hvalid := (h.calls.at_rest hcall hholder).2
    have hself : (s.setDirty b).buf b = { s.buf b with dirty := true } := Function.update_self ..
    have hbegun := h.begun_setDirty (h.calls.at_rest hcall hholder).1
    have hrun := run_requested (hkept.setDirty hvalid) (h.labels.setDirty b) hbegun p b
    have hstore : (s.setDirty b).store = s.store :=
      store_congr h.labels (shown_update rfl) rfl
    rw [hstore, hself] at hrun
    have hqueue : (s.setDirty b).queue = s.queue := rfl
    rw [hqueue] at hrun
    by_cases hempty : s.queue = []
    · have htold : s.told (.bwrite p b) = [.sync (s.buf b).blockno] := if_pos hempty
      rw [if_pos ⟨hempty, rfl⟩] at hrun
      rw [htold]
      exact hrun
    · have htold : s.told (.bwrite p b) = [] := if_neg hempty
      rw [if_neg fun hboth => hempty hboth.1] at hrun
      rw [htold]
      exact hrun
  | brelse => exact hquiet (shown_update rfl) rfl
  | idle hqueue =>
    have hnothing : s.told .ideintr = [] := by
      simp only [told, syncing, hqueue, List.tail_nil, List.head?_nil]
    rw [hnothing]
    exact .nil
  | @serve b rest hqueue =>
    have hmem : b ∈ s.queue := by
      rw [hqueue]
      exact List.mem_cons_self
    obtain ⟨p, hp⟩ := Option.ne_none_iff_exists'.mp (h.calls.holder_of_queue hmem)
    have hneed : (s.buf b).valid = false ∨ (s.buf b).dirty = true := by
      by_cases hreading : s.call p = .reading b
      · exact absurd hmem (h.calls.reading p b hreading).1
      · by_cases hwaiting : s.call p = .waiting b
        · exact (h.calls.waiting p b hwaiting).mp hmem
        · exact absurd hmem (h.calls.filled p b hp hreading hwaiting).1
    have hfinished := hkept.finished h hmem rest
    have htold : s.told .ideintr = (s.finished b rest).syncing := by
      have hnodup := h.calls.nodup
      rw [hqueue] at hnodup
      simp only [told, syncing, hqueue, List.tail_cons, finished]
      cases rest with
      | nil => rfl
      | cons c rest =>
        have hcb : c ≠ b := by
          rintro rfl
          exact (List.nodup_cons.mp hnodup).1 List.mem_cons_self
        simp only [List.head?_cons, Function.update_of_ne hcb]
    rw [htold, served_eq, ← store_finished hkept h.labels hfinished hneed]
    refine run_started (labels_finished h.labels b rest) fun c _ hdirty => ?_
    exact hfinished.caches (labels_finished h.labels b rest) (hfinished.dirty c hdirty)

/-! ## The runs -/

/-- A step, with what the store has done up to then. -/
def recorded (s : Bcache π × List BlockStore.Event) (e : Event π) :
    Option (Bcache π × List BlockStore.Event) :=
  (next s.1 e).map fun s' => (s', s.2 ++ s.1.told e)

/-- As long as whoever releases a buffer has pinned or written what is in it, the buffer cache does
what a store of blocks does: every read finds what was written last, and the disk changes only where
a block is synced. -/
theorem refines_block_store [Fintype π] {disk : Nat → Nat → Block} {es : List (Event π)}
    {log : List BlockStore.Event}
    (run : Run (guarded (fun s e => s.1.Careful e) (stepOf recorded)) (boot disk true, []) es
      (s, log)) :
    Run (stepOf BlockStore.next) ⟨disk rootdev, disk rootdev⟩ log ⟨s.view, s.disk rootdev⟩ ∧
    (∀ p b, s.call p = .running → (s.buf b).holder = some p →
      (s.buf b).dev = rootdev ∧ (s.buf b).data = s.view (s.buf b).blockno) ∧
    ∀ n b, s.caches n b = true → (s.buf b).holder = none → (s.buf b).dirty = false →
      s.disk rootdev n = s.view n := by
  have hinv := run.invariant (fun s => s.1.Sound ∧ s.1.Kept ∧
    Run (stepOf BlockStore.next) ⟨disk rootdev, disk rootdev⟩ s.2 s.1.store) ?_ ?_
  · obtain ⟨hsound, hkept, hrun⟩ := hinv
    refine ⟨hrun, fun p b hcall hholder => ?_, fun n b hb hunlocked hclean => ?_⟩
    · have hcaches := hkept.caches hsound.labels (hsound.calls.at_rest hcall hholder).2
      exact ⟨(caches_iff.mp hcaches).1, (view_of_caches hsound.labels hcaches).symm⟩
    · obtain ⟨-, rfl, hvalid⟩ := caches_iff.mp hb
      rw [view_of_caches hsound.labels hb, hkept.clean b hunlocked hvalid hclean]
  · have hview : (boot disk true : Bcache π).view = disk rootdev :=
      funext fun n => view_of_uncached fun _ => rfl
    refine ⟨.of_boot disk, ⟨fun _ _ => ⟨rfl, rfl⟩, nofun, fun _ _ hvalid => nomatch hvalid⟩, ?_⟩
    rw [store, hview]
    exact .nil
  · intro s e t hinv hstep
    obtain ⟨hsound, hkept, hrun⟩ := hinv
    obtain ⟨hcareful, hnext⟩ := hstep
    obtain ⟨s', hs', rfl⟩ := Option.map_eq_some_iff.mp hnext
    have hmove := hsound.moves_of_next hs'
    exact ⟨hsound.moves hcareful.onDisk hmove, hkept.moves hsound hcareful hmove,
      hrun.trans (told_moves hkept hsound hcareful hmove)⟩

instance (s : Bcache π) (e : Event π) : Decidable (s.Careful e) :=
  match e with
  | .get _ _ _ => inferInstanceAs (Decidable (_ ∧ _))
  | .brelse _ _ => inferInstanceAs (Decidable (_ ∨ _))
  | .run _ | .modify _ _ _ | .pin _ _ | .bwrite _ _ | .ideintr => inferInstanceAs (Decidable True)

/-- One process changes a block and pins it, and another one writes it to the disk. -/
def writtenLater (p q : π) (b : Fin nbuf) (n : Nat) (data : Block) : List (Event π) :=
  [.get p rootdev n, .run p, .run p, .ideintr, .run p, .modify p b data, .pin p b, .brelse p b,
    .get q rootdev n, .run p, .run q, .run q, .bwrite q b, .ideintr, .run q]

theorem refines_block_store_written_later : ∃ s log,
    runOf (fun s e => if s.1.Careful e then recorded s e else none)
      (boot (fun _ _ => .zero) true, [])
      (writtenLater (0 : Fin 2) 1 ⟨0, by decide⟩ 5 fun _ => 1) = some (s, log) ∧
    Run (stepOf BlockStore.next) ⟨fun _ => .zero, fun _ => .zero⟩ log ⟨s.view, s.disk rootdev⟩ ∧
    (∀ p b, s.call p = .running → (s.buf b).holder = some p →
      (s.buf b).dev = rootdev ∧ (s.buf b).data = s.view (s.buf b).blockno) ∧
    ∀ n b, s.caches n b = true → (s.buf b).holder = none → (s.buf b).dirty = false →
      s.disk rootdev n = s.view n := by
  obtain ⟨⟨s, log⟩, hs⟩ := Option.isSome_iff_exists.mp
    (show (runOf (fun s e => if s.1.Careful e then recorded s e else none)
      (boot (fun _ _ => .zero) true, [])
      (writtenLater (0 : Fin 2) 1 ⟨0, by decide⟩ 5 fun _ => 1)).isSome = true by decide +kernel)
  exact ⟨s, log, hs, refines_block_store (run_guarded_of_runOf hs)⟩

end Bcache

end Cs537.P5
