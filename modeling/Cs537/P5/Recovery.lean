import Cs537.P5.Logging

/-!
# What a crash leaves

The log makes the operations atomic. `Sim` relates the machine to a store whose contents become
durable only while no operation is going on: what a recovery makes of the disk is what is durable,
and what `bread` finds is what is current. The header is the one block that decides: before it is
written the record on the disk is empty, afterwards it holds all that the operations have changed.
-/

namespace Cs537.P5

open Cs537.Lib

/-! ## The header -/

namespace Block

theorem word_putEntries {b : Block} {i j : Nat} {lh : List Nat} (hfits : i + lh.length ≤ 128) :
    (b.putEntries i lh).word j =
      if i ≤ j then ((lh[j - i]?).map UInt32.ofNat).getD (b.word j) else b.word j := by
  induction lh generalizing b i with
  | nil => simp [putEntries]
  | cons x lh ih =>
    rw [List.length_cons] at hfits
    rw [putEntries, ih (by omega)]
    by_cases hij : j = i
    · subst hij
      rw [if_neg (by omega), if_pos (le_refl j), word_setWord (by omega), Nat.sub_self]
      rfl
    · rw [word_setWord_of_ne (by omega) hij]
      by_cases hle : i ≤ j
      · rw [if_pos (by omega), if_pos hle, show j - i = j - (i + 1) + 1 by omega,
          List.getElem?_cons_succ]
      · rw [if_neg (by omega), if_neg hle]

/-- Reading back the header that was written. -/
theorem head_putHead {b : Block} {lh : List Nat} (hlength : lh.length ≤ 127)
    (hsmall : ∀ x ∈ lh, x < 2 ^ 32) : (b.putHead lh).head = lh := by
  have hn : ((b.putHead lh).word 0).toNat = lh.length := by
    rw [putHead, word_putEntries (by omega), if_neg (by omega), word_setWord (by omega)]
    exact Nat.mod_eq_of_lt (by omega)
  have hcount : (i32 ((b.putHead lh).word 0).toNat).toNat = lh.length := by
    rw [hn, i32_of_mem (by omega) (by omega), Int.toNat_natCast]
  unfold head
  rw [hcount]
  apply List.ext_getElem?
  intro i
  rw [List.getElem?_map]
  by_cases hi : i < lh.length
  · have hx := hsmall lh[i] (List.getElem_mem hi)
    rw [List.getElem?_range hi, Option.map_some, putHead, word_putEntries (by omega),
      if_pos (by omega), Nat.add_sub_cancel, List.getElem?_eq_getElem hi]
    exact congrArg some (Nat.mod_eq_of_lt hx)
  · rw [List.getElem?_eq_none (by simpa using hi), List.getElem?_eq_none (by omega)]
    rfl

end Block

/-! ## The record on the disk -/

section

variable (sb : Superblock)

/-- The writes that a header stands for. -/
def record (disk : Nat → Block) (lh : List Nat) : List (Nat × Block) :=
  lh.zipIdx.map fun x => (x.1, disk (sb.logstart + x.2 + 1))

/-- What a recovery makes of a disk. -/
def recovered (disk : Nat → Block) : Nat → Block :=
  replay disk (record sb disk (disk sb.logstart).head)

/-- A header that the log has room for. -/
structure Fits (lh : List Nat) : Prop where
  room : lh.length ≤ logSize
  inLog : lh.length < sb.nlog
  home : ∀ b ∈ lh, LogSystem.Home sb b
  small : ∀ b ∈ lh, b < 2 ^ 32

end

section

variable {sb : Superblock} {disk disk' : Nat → Block} {lh : List Nat} {b i : Nat}

open LogSystem (Home)

theorem Fits.nil (hlog : 0 < sb.nlog) : Fits sb [] :=
  ⟨Nat.zero_le _, hlog, fun _ h => absurd h List.not_mem_nil, fun _ h => absurd h List.not_mem_nil⟩

theorem Fits.head_putHead (h : Fits sb lh) (b : Block) : (b.putHead lh).head = lh := by
  refine Block.head_putHead ?_ h.small
  have hroom := h.room
  unfold logSize maxOpBlocks at hroom
  omega

theorem record_congr
    (h : ∀ i < lh.length, disk' (sb.logstart + i + 1) = disk (sb.logstart + i + 1)) :
    record sb disk' lh = record sb disk lh := by
  apply List.map_congr_left
  rintro ⟨x, i⟩ hx
  have hi := List.snd_lt_of_mem_zipIdx hx
  rw [h i (by simpa using hi)]

theorem map_fst_record (disk : Nat → Block) (lh : List Nat) :
    (record sb disk lh).map Prod.fst = lh := by
  rw [record, List.map_map]
  exact List.zipIdx_map_fst 0 lh

theorem record_getElem? (sb : Superblock) (disk : Nat → Block) (lh : List Nat) (i : Nat) :
    (record sb disk lh)[i]? = (lh[i]?).map fun b => (b, disk (sb.logstart + i + 1)) := by
  rw [record, List.getElem?_map, List.getElem?_zipIdx, Option.map_map]
  simp only [Function.comp_def, Nat.zero_add]

/-- The home of a block lies outside of the log. -/
theorem Home.ne_log (h : Home sb b) (hi : i < sb.nlog) : b ≠ sb.logstart + i := by
  unfold LogSystem.Home at h
  omega

theorem record_update (hfits : Fits sb lh) (hb : Home sb b) (v : Block) :
    record sb (Function.update disk b v) lh = record sb disk lh := by
  apply record_congr
  intro i hi
  have hlog := hfits.inLog
  have hne : sb.logstart + i + 1 ≠ b := (Home.ne_log hb (show i + 1 < sb.nlog by omega)).symm
  rw [Function.update_of_ne hne]

/-- The rest of the record from one of its writes on. -/
theorem drop_record (sb : Superblock) (disk : Nat → Block) (h : lh[i]? = some b) :
    (record sb disk lh).drop i =
    (b, disk (sb.logstart + i + 1)) :: (record sb disk lh).drop (i + 1) := by
  refine List.drop_eq_getElem_cons ?_ |>.trans ?_
  · rw [← List.length_map (f := Prod.fst), map_fst_record]
    exact (List.getElem?_eq_some_iff.mp h).1
  · congr 1
    have hget := record_getElem? sb disk lh i
    rw [h] at hget
    exact Option.some.inj ((List.getElem?_eq_getElem _).symm.trans hget)

end

/-! ## The machine and the store -/

namespace LogSystem

variable (sb : Superblock)

/-- Nothing of the operations is on the disk: the record is empty, and what differs from the disk is
in `lh` and pinned in the buffer cache. -/
structure Open (s : LogSystem) (a : Store Nat Nat Block) : Prop where
  header : (s.disk sb.logstart).head = []
  current : ∀ b, Home sb b → s.buf b = a.current b
  pinned : ∀ b, s.dirty b = true → b ∈ s.lh

/-- The first `n` blocks of `lh` are in the log. -/
def Copied (s : LogSystem) (n : Nat) : Prop :=
  ∀ i < n, ∀ b, s.lh[i]? = some b → s.disk (sb.logstart + i + 1) = s.buf b

/-- The record is on the disk, and its first `tail` blocks are at home. -/
structure Installing (s : LogSystem) (a : Store Nat Nat Block) (tail : Nat) (recovering : Bool) :
    Prop where
  idle : s.ops = []
  header : (s.disk sb.logstart).head = s.lh
  settled : ∀ b, Home sb b → a.current b = a.durable b
  rest : ∀ b, Home sb b → replay s.disk ((record sb s.disk s.lh).drop tail) b = a.durable b
  pinned : ∀ b, s.dirty b = true → b ∈ s.lh.drop tail
  values : recovering = false → ∀ w ∈ record sb s.disk s.lh, w.2 = a.current w.1
  view : recovering = false → ∀ b, Home sb b → s.buf b = a.current b

/-- Everything is at home. -/
structure Installed (s : LogSystem) (a : Store Nat Nat Block) : Prop where
  idle : s.ops = []
  empty : s.lh = []
  settled : ∀ b, Home sb b → a.current b = a.durable b
  home : ∀ b, Home sb b → s.disk b = a.durable b
  unpinned : ∀ b, s.dirty b = false

/-- What holds where the committing process stands. -/
def Phase (s : LogSystem) (a : Store Nat Nat Block) : LogPc → Prop
  | .quiet => s.Open sb a ∧ s.committing = false ∧ (s.ops = [] → s.lh = [])
  | .writing tail => s.Open sb a ∧ s.committing = true ∧ s.ops = [] ∧ s.Copied sb tail
  | .heading => s.Open sb a ∧ s.committing = true ∧ s.ops = [] ∧ s.Copied sb s.lh.length
  | .installing tail r => s.Installing sb a tail r ∧ s.committing = !r
  | .erasing r => s.Installed sb a ∧ s.committing = !r
  | .closing => s.Open sb a ∧ s.committing = true ∧ s.ops = [] ∧ s.lh = []
  | .booting => (s.ops = [] ∧ s.lh = [] ∧ s.committing = false ∧ ∀ b, s.dirty b = false) ∧
      ∀ b, Home sb b → a.current b = a.durable b

/-- The machine and the store it stands for. -/
structure Sim (s : LogSystem) (a : Store Nat Nat Block) : Prop where
  fits : Fits sb s.lh
  header : Fits sb (s.disk sb.logstart).head
  clean : ∀ b, s.dirty b = false → s.buf b = s.disk b
  active : a.active = s.ops.map Prod.fst
  outstanding : s.outstanding = s.ops.length
  durable : ∀ b, Home sb b → recovered sb s.disk b = a.durable b
  phase : s.Phase sb a s.pc

variable {sb} {s s' : LogSystem} {a : Store Nat Nat Block}

theorem Sim.hlog (h : s.Sim sb a) : 0 < sb.nlog := Nat.lt_of_le_of_lt (Nat.zero_le _) h.fits.inLog

/-- Somebody sleeps or wakes. -/
theorem Sim.setAsleep (h : s.Sim sb a) (f : Nat → Bool) : { s with asleep := f }.Sim sb a where
  fits := h.fits
  header := h.header
  clean := h.clean
  active := h.active
  outstanding := h.outstanding
  durable := h.durable
  phase := by
    have hphase := h.phase
    cases hpc : s.pc with
    | quiet | writing _ | heading | closing =>
      rw [hpc] at hphase
      obtain ⟨⟨header, current, pinned⟩, hrest⟩ := hphase
      exact ⟨⟨header, current, pinned⟩, hrest⟩
    | installing _ _ =>
      rw [hpc] at hphase
      obtain ⟨⟨idle, header, settled, rest, pinned, values, view⟩, hcommitting⟩ := hphase
      exact ⟨⟨idle, header, settled, rest, pinned, values, view⟩, hcommitting⟩
    | erasing _ =>
      rw [hpc] at hphase
      obtain ⟨⟨idle, empty, settled, home, unpinned⟩, hcommitting⟩ := hphase
      exact ⟨⟨idle, empty, settled, home, unpinned⟩, hcommitting⟩
    | booting =>
      rw [hpc] at hphase
      exact hphase

/-- A buffer that is clean can be read again. -/
theorem Sim.evict (h : s.Sim sb a) {b : Nat} (hb : s.dirty b = false) :
    { s with buf := Function.update s.buf b (s.disk b) }.Sim sb a := by
  rw [← h.clean b hb, Function.update_eq_self]
  exact h

/-- While operations go on nobody commits or recovers. -/
theorem Sim.quiet (h : s.Sim sb a) (hops : s.ops ≠ []) :
    s.pc = .quiet ∧ s.Open sb a ∧ s.committing = false := by
  have hphase := h.phase
  cases hpc : s.pc with
  | quiet =>
    rw [hpc] at hphase
    exact ⟨rfl, hphase.1, hphase.2.1⟩
  | writing _ | heading | closing =>
    rw [hpc] at hphase
    exact absurd hphase.2.2.1 hops
  | installing _ _ | erasing _ =>
    rw [hpc] at hphase
    exact absurd hphase.1.idle hops
  | booting =>
    rw [hpc] at hphase
    exact absurd hphase.1.1 hops

/-- An empty record. -/
theorem recovered_of_head {disk : Nat → Block} (h : (disk sb.logstart).head = []) :
    recovered sb disk = disk := by
  rw [recovered, h]
  rfl

/-- What is not pinned is on the disk. -/
theorem Sim.clean_bwrite (h : s.Sim sb a) (b : Nat) (data : Block) (x : Nat)
    (hx : (s.bwrite b data).dirty x = false) :
    (s.bwrite b data).buf x = (s.bwrite b data).disk x := by
  by_cases hxb : x = b
  · rw [hxb]
    simp only [bwrite, Function.update_self]
  · simp only [bwrite, Function.update_of_ne hxb] at hx ⊢
    exact h.clean x hx

theorem home_ne_logstart (h : 0 < sb.nlog) {b : Nat} (hb : Home sb b) : b ≠ sb.logstart :=
  Home.ne_log hb (i := 0) h

/-! ### The operations -/

theorem Sim.beginOp (h : s.Sim sb a) (hrec : s.pc.recovering = false) (p : Nat) :
    (s.blocked = true ∧ (s.beginOp p).Sim sb a) ∨
      (s.blocked = false ∧ (s.beginOp p).Sim sb { a with active := p :: a.active }) := by
  unfold LogSystem.beginOp
  cases hblocked : s.blocked with
  | true => exact .inl ⟨rfl, h.setAsleep _⟩
  | false =>
    right
    refine ⟨rfl, ?_⟩
    have hcommitting : s.committing = false := by
      unfold blocked at hblocked
      rw [Bool.or_eq_false_iff] at hblocked
      exact hblocked.1
    have hphase := h.phase
    have hquiet : s.pc = .quiet ∧ s.Open sb a := by
      cases hpc : s.pc with
      | quiet =>
        rw [hpc] at hphase
        exact ⟨rfl, hphase.1⟩
      | writing _ | heading | closing =>
        rw [hpc] at hphase
        rw [hphase.2.1] at hcommitting
        cases hcommitting
      | installing _ r | erasing r =>
        rw [hpc] at hphase hrec
        rw [hphase.2] at hcommitting
        cases r with
        | true => cases hrec
        | false => cases hcommitting
      | booting =>
        rw [hpc] at hrec
        cases hrec
    obtain ⟨hpc, hopen⟩ := hquiet
    refine ⟨h.fits, h.header, h.clean, ?_, ?_, h.durable, ?_⟩
    · rw [h.active]
      rfl
    · rw [h.outstanding]
      rfl
    · rw [hpc]
      exact ⟨⟨hopen.header, hopen.current, hopen.pinned⟩, hcommitting, fun hnil => nomatch hnil⟩

theorem map_fst_charge (p b : Nat) (ops : List (Nat × List Nat)) :
    (charge p b ops).map Prod.fst = ops.map Prod.fst := by
  rw [charge, List.map_map]
  apply List.map_congr_left
  intro o _
  by_cases ho : o.1 = p
  · rw [Function.comp_apply, if_pos ho, ho]
  · rw [Function.comp_apply, if_neg ho]

theorem length_charge (p b : Nat) (ops : List (Nat × List Nat)) :
    (charge p b ops).length = ops.length := List.length_map _

/-- What `log_write` does if it does not panic. -/
theorem logWrite_eq_some {b : Nat} (h : s.logWrite sb b = some s') :
    s.lh.length < logSize ∧ s.lh.length + 1 < sb.nlog ∧ s' = { s with
      lh := if b ∈ s.lh then s.lh else s.lh ++ [b]
      dirty := Function.update s.dirty b true } := by
  unfold logWrite at h
  split at h
  · cases h
  · rename_i hroom
    split at h
    · cases h
    · cases h
      rw [not_or] at hroom
      exact ⟨by omega, by omega, rfl⟩

theorem Sim.write (h : s.Sim sb a) {p b : Nat} {data : Block} (hp : p ∈ s.ops.map Prod.fst)
    (hb : Home sb b) (hsmall : b < 2 ^ 32)
    (hwrite :
      { s with buf := Function.update s.buf b data, ops := charge p b s.ops }.logWrite sb b =
      some s') :
    s'.Sim sb { a with current := Function.update a.current b data } := by
  obtain ⟨hroom, hlog, rfl⟩ := logWrite_eq_some hwrite
  have hops : s.ops ≠ [] := by
    rintro hnil
    rw [hnil] at hp
    cases hp
  obtain ⟨hpc, hopen, hcommitting⟩ := h.quiet hops
  simp only at hroom hlog
  have hlh : ∀ x ∈ if b ∈ s.lh then s.lh else s.lh ++ [b], x ∈ s.lh ∨ x = b := by
    intro x hx
    split at hx
    · exact .inl hx
    · simpa using hx
  have hbin : b ∈ if b ∈ s.lh then s.lh else s.lh ++ [b] := by
    split
    · assumption
    · simp
  have hlength : (if b ∈ s.lh then s.lh else s.lh ++ [b]).length ≤ s.lh.length + 1 := by
    split
    · omega
    · simp
  refine ⟨⟨?_, ?_, ?_, ?_⟩, h.header, ?_, ?_, ?_, h.durable, ?_⟩
  · exact Nat.le_trans hlength hroom
  · exact Nat.lt_of_le_of_lt hlength hlog
  · intro x hx
    rcases hlh x hx with hx | rfl
    · exact h.fits.home x hx
    · exact hb
  · intro x hx
    rcases hlh x hx with hx | rfl
    · exact h.fits.small x hx
    · exact hsmall
  · intro x hx
    dsimp only at hx ⊢
    by_cases hxb : x = b
    · rw [hxb, Function.update_self] at hx
      cases hx
    · rw [Function.update_of_ne hxb] at hx ⊢
      exact h.clean x hx
  · rw [h.active, map_fst_charge]
  · rw [h.outstanding, length_charge]
  · dsimp only
    rw [hpc]
    refine ⟨⟨hopen.header, ?_, ?_⟩, hcommitting, ?_⟩
    · intro x hx
      dsimp only
      by_cases hxb : x = b
      · rw [hxb, Function.update_self, Function.update_self]
      · rw [Function.update_of_ne hxb, Function.update_of_ne hxb]
        exact hopen.current x hx
    · intro x hx
      dsimp only at hx ⊢
      by_cases hxb : x = b
      · rw [hxb]
        exact hbin
      · rw [Function.update_of_ne hxb] at hx
        have hmem := hopen.pinned x hx
        split
        · exact hmem
        · exact List.mem_append_left _ hmem
    · intro hnil
      have hzero := congrArg List.length hnil
      rw [length_charge] at hzero
      exact absurd (List.length_eq_zero_iff.mp hzero) hops

theorem map_fst_eraseP (p : Nat) (ops : List (Nat × List Nat)) :
    (ops.eraseP (·.1 = p)).map Prod.fst = (ops.map Prod.fst).erase p := by
  induction ops with
  | nil => rfl
  | cons o ops ih =>
    by_cases ho : o.1 = p
    · rw [List.eraseP_cons_of_pos (by simpa using ho), List.map_cons, ho, List.erase_cons_head]
    · rw [List.eraseP_cons_of_neg (by simpa using ho), List.map_cons, List.map_cons,
        List.erase_cons_tail (by simpa using ho), ih]

theorem Sim.endOp (h : s.Sim sb a) {p : Nat} (hp : p ∈ s.ops.map Prod.fst)
    (hend : s.endOp p = some s') : s'.Sim sb { a with active := a.active.erase p } := by
  have hops : s.ops ≠ [] := by
    rintro hnil
    rw [hnil] at hp
    cases hp
  obtain ⟨hpc, hopen, hcommitting⟩ := h.quiet hops
  have hactive : a.active.erase p = (s.ops.eraseP (·.1 = p)).map Prod.fst := by
    rw [h.active, map_fst_eraseP]
  have hcount : s.outstanding - 1 = (s.ops.eraseP (·.1 = p)).length := by
    rw [← List.length_map (f := Prod.fst), map_fst_eraseP, List.length_erase_of_mem hp,
      List.length_map, h.outstanding]
  unfold LogSystem.endOp at hend
  dsimp only at hend
  rw [if_neg (by rw [hcommitting]; exact Bool.false_ne_true)] at hend
  by_cases hzero : s.outstanding - 1 = 0
  · rw [if_pos hzero] at hend
    cases hend
    have hnil : s.ops.eraseP (·.1 = p) = [] := List.length_eq_zero_iff.mp (hcount.symm.trans hzero)
    refine ⟨h.fits, h.header, h.clean, hactive, hcount, h.durable, ?_⟩
    by_cases hlh : s.lh = []
    · simp only [if_pos hlh]
      exact ⟨⟨hopen.header, hopen.current, hopen.pinned⟩, rfl, hnil, hlh⟩
    · simp only [if_neg hlh]
      exact ⟨⟨hopen.header, hopen.current, hopen.pinned⟩, rfl, hnil,
        fun i hi => absurd hi (Nat.not_lt_zero i)⟩
  · rw [if_neg hzero] at hend
    cases hend
    refine ⟨h.fits, h.header, h.clean, hactive, hcount, h.durable, ?_⟩
    dsimp only
    rw [hpc]
    refine ⟨⟨hopen.header, hopen.current, hopen.pinned⟩, hcommitting, ?_⟩
    intro hnil
    dsimp only at hnil
    rw [hnil] at hcount
    exact absurd hcount hzero

/-! ### Commit and recovery -/

/-- A block of the record is no home and not the header. -/
theorem Sim.body (h : s.Sim sb a) {i b : Nat} (hi : s.lh[i]? = some b) :
    (∀ x, Home sb x → x ≠ sb.logstart + i + 1) ∧ sb.logstart ≠ sb.logstart + i + 1 := by
  have hlt := (List.getElem?_eq_some_iff.mp hi).1
  have hlog := h.fits.inLog
  refine ⟨fun x hx => Home.ne_log hx (show i + 1 < sb.nlog by omega), by omega⟩

theorem Sim.writeBody (h : s.Sim sb a) {tail b : Nat} (hpc : s.pc = .writing tail)
    (hb : s.lh[tail]? = some b) :
    { s.bwrite (sb.logstart + tail + 1) (s.buf b) with pc := .writing (tail + 1) }.Sim sb a := by
  have hphase := h.phase
  rw [hpc] at hphase
  obtain ⟨hopen, hcommitting, hops, hcopied⟩ := hphase
  obtain ⟨hhome, hstart⟩ := h.body hb
  have hhead : Function.update s.disk (sb.logstart + tail + 1) (s.buf b) sb.logstart =
      s.disk sb.logstart := Function.update_of_ne hstart _ _
  have hempty :
      (Function.update s.disk (sb.logstart + tail + 1) (s.buf b) sb.logstart).head = [] := by
    rw [hhead]
    exact hopen.header
  refine ⟨h.fits, ?_, h.clean_bwrite _ _, h.active, h.outstanding, ?_, ?_⟩
  · dsimp only [bwrite]
    rw [hhead]
    exact h.header
  · intro x hx
    dsimp only [bwrite]
    rw [← h.durable x hx, recovered_of_head hempty, recovered_of_head hopen.header]
    exact Function.update_of_ne (hhome x hx) _ _
  · refine ⟨⟨hempty, ?_, ?_⟩, hcommitting, hops, ?_⟩
    · intro x hx
      dsimp only [bwrite]
      rw [Function.update_of_ne (hhome x hx)]
      exact hopen.current x hx
    · intro x hx
      refine hopen.pinned x ?_
      dsimp only [bwrite] at hx
      by_cases hxb : x = sb.logstart + tail + 1
      · rw [hxb, Function.update_self] at hx
        cases hx
      · rwa [Function.update_of_ne hxb] at hx
    · intro i hi x hx
      dsimp only [bwrite] at hx ⊢
      have hne : x ≠ sb.logstart + tail + 1 := hhome x (h.fits.home x (List.mem_of_getElem? hx))
      rw [Function.update_of_ne hne]
      by_cases hit : i = tail
      · subst hit
        rw [Function.update_self]
        rw [hb] at hx
        cases hx
        rfl
      · rw [Function.update_of_ne (by omega)]
        exact hcopied i (by omega) x hx

/-- The write of the header commits. -/
theorem Sim.commit (h : s.Sim sb a) (hpc : s.pc = .heading) :
    a.active = [] ∧ { s.writeHead sb with pc := .installing 0 false }.Sim sb
      { a with durable := a.current } := by
  have hphase := h.phase
  rw [hpc] at hphase
  obtain ⟨hopen, hcommitting, hops, hcopied⟩ := hphase
  refine ⟨by rw [h.active, hops]; rfl, ?_⟩
  have hhead : (Function.update s.disk sb.logstart ((s.buf sb.logstart).putHead s.lh)
      sb.logstart).head = s.lh := by
    rw [Function.update_self, h.fits.head_putHead]
  have hrecord : record sb (Function.update s.disk sb.logstart ((s.buf sb.logstart).putHead s.lh))
      s.lh = record sb s.disk s.lh := by
    apply record_congr
    intro i _
    exact Function.update_of_ne (by omega) _ _
  have hvalues : ∀ w ∈ record sb s.disk s.lh, w.2 = a.current w.1 := by
    intro w hw
    obtain ⟨i, hi⟩ := List.mem_iff_getElem?.mp hw
    rw [record_getElem?, Option.map_eq_some_iff] at hi
    obtain ⟨b, hb, rfl⟩ := hi
    rw [← hopen.current b (h.fits.home b (List.mem_of_getElem? hb))]
    exact hcopied i (List.getElem?_eq_some_iff.mp hb).1 b hb
  have hcurrent : ∀ b, Home sb b → replay (Function.update s.disk sb.logstart
      ((s.buf sb.logstart).putHead s.lh)) (record sb s.disk s.lh) b = a.current b := by
    intro b hb
    refine replay_eq hvalues ?_
    intro hnot
    rw [map_fst_record] at hnot
    have hdirty : s.dirty b = false := by
      by_contra hdirty
      exact hnot (hopen.pinned b (by simpa using hdirty))
    rw [Function.update_of_ne (home_ne_logstart h.hlog hb), ← h.clean b hdirty]
    exact hopen.current b hb
  refine ⟨h.fits, ?_, h.clean_bwrite _ _, h.active, h.outstanding, ?_, ?_⟩
  · dsimp only [writeHead, bwrite]
    rw [hhead]
    exact h.fits
  · intro b hb
    dsimp only [writeHead, bwrite]
    rw [recovered, hhead, hrecord]
    exact hcurrent b hb
  · refine ⟨⟨hops, hhead, fun _ _ => rfl, ?_, ?_, ?_, ?_⟩, hcommitting⟩
    · intro b hb
      dsimp only [writeHead, bwrite]
      rw [hrecord, List.drop_zero]
      exact hcurrent b hb
    · intro b hb
      rw [List.drop_zero]
      refine hopen.pinned b ?_
      dsimp only [writeHead, bwrite] at hb
      by_cases hbs : b = sb.logstart
      · rw [hbs, Function.update_self] at hb
        cases hb
      · rwa [Function.update_of_ne hbs] at hb
    · intro _
      dsimp only [writeHead, bwrite]
      rw [hrecord]
      exact hvalues
    · intro _ b hb
      dsimp only [writeHead, bwrite]
      rw [Function.update_of_ne (home_ne_logstart h.hlog hb)]
      exact hopen.current b hb

theorem Sim.install (h : s.Sim sb a) {tail b : Nat} {r : Bool} (hpc : s.pc = .installing tail r)
    (hb : s.lh[tail]? = some b) :
    { s.bwrite b (s.buf (sb.logstart + tail + 1)) with
      pc := .installing (tail + 1) r }.Sim sb a := by
  have hphase := h.phase
  rw [hpc] at hphase
  obtain ⟨hinstalling, hcommitting⟩ := hphase
  have hbhome : Home sb b := h.fits.home b (List.mem_of_getElem? hb)
  have hbody : s.buf (sb.logstart + tail + 1) = s.disk (sb.logstart + tail + 1) := by
    refine h.clean _ ?_
    by_contra hdirty
    have hmem := List.mem_of_mem_drop (hinstalling.pinned _ (by simpa using hdirty))
    exact (h.body hb).1 _ (h.fits.home _ hmem) rfl
  have hhead : Function.update s.disk b (s.buf (sb.logstart + tail + 1)) sb.logstart =
      s.disk sb.logstart := Function.update_of_ne (home_ne_logstart h.hlog hbhome).symm _ _
  have hrecord : record sb (Function.update s.disk b (s.buf (sb.logstart + tail + 1))) s.lh =
      record sb s.disk s.lh := record_update h.fits hbhome _
  have hdrop := drop_record sb s.disk hb
  refine ⟨h.fits, ?_, h.clean_bwrite _ _, h.active, h.outstanding, ?_, ?_⟩
  · dsimp only [bwrite]
    rw [hhead]
    exact h.header
  · intro x hx
    dsimp only [bwrite]
    rw [recovered, hhead, hinstalling.header, hrecord, replay_update, ← h.durable x hx, recovered,
      hinstalling.header]
    rw [map_fst_record]
    exact List.mem_of_getElem? hb
  · refine ⟨⟨hinstalling.idle, ?_, hinstalling.settled, ?_, ?_, ?_, ?_⟩, hcommitting⟩
    · dsimp only [bwrite]
      rw [hhead]
      exact hinstalling.header
    · intro x hx
      dsimp only [bwrite]
      rw [hrecord, ← hinstalling.rest x hx, hdrop, replay_cons, hbody]
    · intro x hx
      dsimp only [bwrite] at hx ⊢
      by_cases hxb : x = b
      · rw [hxb, Function.update_self] at hx
        cases hx
      · rw [Function.update_of_ne hxb] at hx
        have hmem := hinstalling.pinned x hx
        have hsplit : s.lh.drop tail = b :: s.lh.drop (tail + 1) := by
          obtain ⟨hlt, hget⟩ := List.getElem?_eq_some_iff.mp hb
          rw [List.drop_eq_getElem_cons hlt, hget]
        rw [hsplit, List.mem_cons] at hmem
        exact hmem.resolve_left hxb
    · intro hr
      dsimp only [bwrite]
      rw [hrecord]
      exact hinstalling.values hr
    · intro hr x hx
      dsimp only [bwrite]
      by_cases hxb : x = b
      · have hget := record_getElem? sb s.disk s.lh tail
        rw [hb] at hget
        have hvalue := hinstalling.values hr _ (List.mem_of_getElem? hget)
        rw [hxb, Function.update_self, hbody]
        exact hvalue
      · rw [Function.update_of_ne hxb]
        exact hinstalling.view hr x hx

theorem Sim.installed (h : s.Sim sb a) {tail : Nat} {r : Bool} (hpc : s.pc = .installing tail r)
    (hnone : s.lh[tail]? = none) : { s with lh := [], pc := .erasing r }.Sim sb a := by
  have hphase := h.phase
  rw [hpc] at hphase
  obtain ⟨hinstalling, hcommitting⟩ := hphase
  have hlength := List.getElem?_eq_none_iff.mp hnone
  refine ⟨Fits.nil h.hlog, h.header, h.clean, h.active, h.outstanding, h.durable, ?_, hcommitting⟩
  refine ⟨hinstalling.idle, rfl, hinstalling.settled, ?_, ?_⟩
  · intro b hb
    have hrest := hinstalling.rest b hb
    have hnil : (record sb s.disk s.lh).drop tail = [] := by
      apply List.drop_eq_nil_of_le
      rw [← List.length_map (f := Prod.fst), map_fst_record]
      exact hlength
    rwa [hnil] at hrest
  · intro b
    by_contra hdirty
    have hmem := hinstalling.pinned b (by simpa using hdirty)
    rw [List.drop_eq_nil_of_le hlength] at hmem
    cases hmem

theorem Sim.erase (h : s.Sim sb a) {r : Bool} (hpc : s.pc = .erasing r) :
    { s.writeHead sb with pc := if r then .quiet else .closing }.Sim sb a := by
  have hphase := h.phase
  rw [hpc] at hphase
  obtain ⟨hinstalled, hcommitting⟩ := hphase
  have hhead : (Function.update s.disk sb.logstart ((s.buf sb.logstart).putHead s.lh)
      sb.logstart).head = [] := by
    rw [Function.update_self, h.fits.head_putHead, hinstalled.empty]
  have hdisk : ∀ b, Home sb b → Function.update s.disk sb.logstart
      ((s.buf sb.logstart).putHead s.lh) b = a.durable b := by
    intro b hb
    rw [Function.update_of_ne (home_ne_logstart h.hlog hb)]
    exact hinstalled.home b hb
  refine ⟨h.fits, ?_, h.clean_bwrite _ _, h.active, h.outstanding, ?_, ?_⟩
  · dsimp only [writeHead, bwrite]
    rw [hhead]
    exact Fits.nil h.hlog
  · intro b hb
    dsimp only [writeHead, bwrite]
    rw [recovered_of_head hhead]
    exact hdisk b hb
  · have hopen : Open sb { s.writeHead sb with pc := if r then .quiet else .closing } a := by
      refine ⟨hhead, ?_, ?_⟩
      · intro b hb
        dsimp only [writeHead, bwrite]
        rw [Function.update_of_ne (home_ne_logstart h.hlog hb), h.clean b (hinstalled.unpinned b),
          hinstalled.home b hb, hinstalled.settled b hb]
      · intro b hb
        dsimp only [writeHead, bwrite] at hb
        by_cases hbs : b = sb.logstart
        · rw [hbs, Function.update_self] at hb
          cases hb
        · rw [Function.update_of_ne hbs, hinstalled.unpinned b] at hb
          cases hb
    cases r with
    | true => exact ⟨hopen, hcommitting, fun _ => hinstalled.empty⟩
    | false => exact ⟨hopen, hcommitting, hinstalled.idle, hinstalled.empty⟩

theorem Sim.readHead (h : s.Sim sb a) (hpc : s.pc = .booting) :
    { s with lh := (s.buf sb.logstart).head, pc := .installing 0 true }.Sim sb a := by
  have hphase := h.phase
  rw [hpc] at hphase
  obtain ⟨⟨hops, hlh, hcommitting, hdirty⟩, hsettled⟩ := hphase
  have hbuf : s.buf sb.logstart = s.disk sb.logstart := h.clean _ (hdirty _)
  refine ⟨?_, h.header, h.clean, h.active, h.outstanding, h.durable, ?_, hcommitting⟩
  · dsimp only
    rw [hbuf]
    exact h.header
  · refine ⟨hops, ?_, hsettled, ?_, ?_, nofun, nofun⟩
    · dsimp only
      rw [hbuf]
    · intro b hb
      dsimp only
      rw [hbuf, List.drop_zero]
      exact h.durable b hb
    · intro b hb
      dsimp only at hb
      rw [hdirty b] at hb
      cases hb

/-- The process that commits or recovers goes on. -/
theorem Sim.work (h : s.Sim sb a) (hwork : s.work sb = some s') :
    s'.Sim sb a ∨ (a.active = [] ∧ s'.Sim sb { a with durable := a.current }) := by
  unfold LogSystem.work at hwork
  cases hpc : s.pc with
  | quiet =>
    rw [hpc] at hwork
    cases hwork
  | writing tail =>
    rw [hpc] at hwork
    dsimp only at hwork
    cases hb : s.lh[tail]? with
    | some b =>
      rw [hb] at hwork
      cases hwork
      exact .inl (h.writeBody hpc hb)
    | none =>
      rw [hb] at hwork
      cases hwork
      have hphase := h.phase
      rw [hpc] at hphase
      obtain ⟨⟨header, current, pinned⟩, hcommitting, hops, hcopied⟩ := hphase
      have hlength := List.getElem?_eq_none_iff.mp hb
      exact .inl ⟨h.fits, h.header, h.clean, h.active, h.outstanding, h.durable,
        ⟨header, current, pinned⟩, hcommitting, hops,
        fun i hi => hcopied i (Nat.lt_of_lt_of_le hi hlength)⟩
  | heading =>
    rw [hpc] at hwork
    cases hwork
    exact .inr (h.commit hpc)
  | installing tail r =>
    rw [hpc] at hwork
    dsimp only at hwork
    cases hb : s.lh[tail]? with
    | some b =>
      rw [hb] at hwork
      cases hwork
      exact .inl (h.install hpc hb)
    | none =>
      rw [hb] at hwork
      cases hwork
      exact .inl (h.installed hpc hb)
  | erasing r =>
    rw [hpc] at hwork
    cases hwork
    exact .inl (h.erase hpc)
  | closing =>
    rw [hpc] at hwork
    cases hwork
    have hphase := h.phase
    rw [hpc] at hphase
    obtain ⟨⟨header, current, pinned⟩, -, hops, hlh⟩ := hphase
    exact .inl ⟨h.fits, h.header, h.clean, h.active, h.outstanding, h.durable,
      ⟨header, current, pinned⟩, rfl, fun _ => hlh⟩
  | booting =>
    rw [hpc] at hwork
    cases hwork
    exact .inl (h.readHead hpc)

/-- A boot falls back to what is durable. -/
theorem sim_boot {disk durable : Nat → Block} (hfits : Fits sb (disk sb.logstart).head)
    (hdurable : ∀ b, Home sb b → recovered sb disk b = durable b) :
    (boot disk).Sim sb ⟨durable, durable, []⟩ where
  fits := Fits.nil (Nat.lt_of_le_of_lt (Nat.zero_le _) hfits.inLog)
  header := hfits
  clean := fun _ _ => rfl
  active := rfl
  outstanding := rfl
  durable := hdurable
  phase := ⟨⟨rfl, rfl, rfl, fun _ => rfl⟩, fun _ _ => rfl⟩

/-! ### Runs -/

/-- What an event does to the store. -/
def Event.effect : Event → Option (Store.Event Nat Nat Block)
  | .write p b data => some (.write p b data)
  | .finish p => some (.finish p)
  | .crash => some .crash
  | .begin _ | .work | .evict _ | .kill _ => none

/-- Every step of the machine is a step of the store, or none. -/
theorem Sim.step (h : s.Sim sb a) {e : Event} (hstep : s.next sb e = some s') :
    ∃ es a', Run (stepOf Store.next) a es a' ∧ s'.Sim sb a' ∧
      es.filter Store.Event.visible = e.effect.toList := by
  have one {e' : Store.Event Nat Nat Block} {a' : Store Nat Nat Block}
      (hnext : Store.next a e' = some a') : Run (stepOf Store.next) a [e'] a' := Run.nil.snoc hnext
  cases e with
  | begin p =>
    simp only [next, Option.ite_none_right_eq_some, Option.some.injEq] at hstep
    obtain ⟨⟨hrec, -, -⟩, rfl⟩ := hstep
    rcases h.beginOp hrec p with ⟨-, hsim⟩ | ⟨-, hsim⟩
    · exact ⟨[], a, .nil, hsim, rfl⟩
    · exact ⟨[.begin p], _, one rfl, hsim, rfl⟩
  | write p b data =>
    simp only [next, Option.ite_none_right_eq_some] at hstep
    obtain ⟨⟨hp, hb, hsmall⟩, hwrite⟩ := hstep
    exact ⟨[.write p b data], _, one (if_pos (by rw [h.active]; exact hp)),
      h.write hp hb hsmall hwrite, rfl⟩
  | finish p =>
    simp only [next, Option.ite_none_right_eq_some] at hstep
    obtain ⟨hp, hend⟩ := hstep
    exact ⟨[.finish p], _, one (if_pos (by rw [h.active]; exact hp)), h.endOp hp hend, rfl⟩
  | work =>
    rcases h.work hstep with hsim | ⟨hactive, hsim⟩
    · exact ⟨[], a, .nil, hsim, rfl⟩
    · exact ⟨[.commit], _, one (if_pos hactive), hsim, rfl⟩
  | evict b =>
    simp only [next, Option.ite_none_right_eq_some, Option.some.injEq] at hstep
    obtain ⟨hclean, rfl⟩ := hstep
    exact ⟨[], a, .nil, h.evict hclean, rfl⟩
  | kill p =>
    cases hstep
    exact ⟨[], a, .nil, h.setAsleep _, rfl⟩
  | crash =>
    cases hstep
    exact ⟨[.crash], _, one rfl, sim_boot h.header h.durable, rfl⟩

/-- After the recovery `bread` finds what is current. -/
theorem Sim.view (h : s.Sim sb a) (hrec : s.pc.recovering = false) {b : Nat} (hb : Home sb b) :
    s.buf b = a.current b := by
  have hphase := h.phase
  cases hpc : s.pc with
  | quiet | writing _ | heading | closing =>
    rw [hpc] at hphase
    exact hphase.1.current b hb
  | installing _ r =>
    rw [hpc] at hphase hrec
    cases r with
    | true => cases hrec
    | false => exact hphase.1.view rfl b hb
  | erasing r =>
    rw [hpc] at hphase
    rw [h.clean b (hphase.1.unpinned b), hphase.1.home b hb, hphase.1.settled b hb]
  | booting =>
    rw [hpc] at hrec
    cases hrec

/-- When nothing goes on everything is durable, and at home. -/
theorem Sim.idle (h : s.Sim sb a) (hpc : s.pc = .quiet) (hops : s.ops = []) {b : Nat}
    (hb : Home sb b) : a.current b = a.durable b ∧ s.disk b = a.durable b := by
  have hphase := h.phase
  rw [hpc] at hphase
  obtain ⟨hopen, -, hempty⟩ := hphase
  have hdurable := h.durable b hb
  rw [recovered_of_head hopen.header] at hdurable
  have hdirty : s.dirty b = false := by
    by_contra hdirty
    have hmem := hopen.pinned b (by simpa using hdirty)
    rw [hempty hops] at hmem
    cases hmem
  refine ⟨?_, hdurable⟩
  rw [← hopen.current b hb, h.clean b hdirty, hdurable]

variable {disk : Nat → Block} {es : List Event}

theorem sim_run (hfits : Fits sb (disk sb.logstart).head)
    (run : Run (stepOf (next sb)) (boot disk) es s) :
    ∃ es' a, Run (stepOf Store.next) ⟨recovered sb disk, recovered sb disk, []⟩ es' a ∧
      s.Sim sb a ∧ es'.filter Store.Event.visible = es.filterMap Event.effect := by
  induction run with
  | nil => exact ⟨[], _, .nil, sim_boot hfits fun _ _ => rfl, rfl⟩
  | snoc _ hstep ih =>
    obtain ⟨es₁, a, hrun, hsim, hseen⟩ := ih
    obtain ⟨es₂, a', hrun', hsim', hseen'⟩ := hsim.step hstep
    refine ⟨es₁ ++ es₂, a', hrun.trans hrun', hsim', ?_⟩
    rw [List.filter_append, List.filterMap_append, hseen, hseen']
    congr 1

/-- The log makes the operations atomic: the machine does to the blocks outside of the log what a
store does that makes its contents durable all at once, while no operation is going on. A crash at
any moment leaves what is durable, and when the last operation is over and has been committed that
is everything. -/
theorem refines_store (hfits : Fits sb (disk sb.logstart).head)
    (run : Run (stepOf (next sb)) (boot disk) es s) :
    ∃ es' a, Run (stepOf Store.next) ⟨recovered sb disk, recovered sb disk, []⟩ es' a ∧
      es'.filter Store.Event.visible = es.filterMap Event.effect ∧
      a.active = s.ops.map Prod.fst ∧
      (∀ b, Home sb b → recovered sb s.disk b = a.durable b) ∧
      (s.pc.recovering = false → ∀ b, Home sb b → s.buf b = a.current b) ∧
      (s.pc = .quiet → s.ops = [] → ∀ b, Home sb b → a.current b = a.durable b) := by
  obtain ⟨es', a, hrun, hsim, hseen⟩ := sim_run hfits run
  exact ⟨es', a, hrun, hseen, hsim.active, hsim.durable, fun hrec b hb => hsim.view hrec hb,
    fun hpc hops b hb => (hsim.idle hpc hops hb).1⟩

/-- A disk full of zeroes. -/
def blank : Nat → Block := fun _ => Block.zero

theorem fits_blank : Fits .mkfs (blank Superblock.mkfs.logstart).head := by
  have hempty : (blank Superblock.mkfs.logstart).head = [] := by decide +kernel
  rw [hempty]
  exact Fits.nil (by decide)

/-- A block of ones is in the log and the header is on the disk when the machine crashes. -/
def cutOff : List Event :=
  [.work, .work, .work, .begin 1, .write 1 60 fun _ => 1, .finish 1, .work, .work, .work, .crash]

/-- The theorem at a crash between the write of the header and the installation. -/
theorem refines_store_cut_off : ∃ s, runOf (next .mkfs) (boot blank) cutOff = some s ∧
    ∃ es' a, Run (stepOf Store.next) ⟨recovered .mkfs blank,
        recovered .mkfs blank, []⟩ es' a ∧
      es'.filter Store.Event.visible = cutOff.filterMap Event.effect ∧
      a.active = s.ops.map Prod.fst ∧
      (∀ b, Home .mkfs b → recovered .mkfs s.disk b = a.durable b) ∧
      (s.pc.recovering = false → ∀ b, Home .mkfs b → s.buf b = a.current b) ∧
      (s.pc = .quiet → s.ops = [] → ∀ b, Home .mkfs b → a.current b = a.durable b) := by
  have hruns : (runOf (next .mkfs) (boot blank) cutOff).isSome := by decide +kernel
  obtain ⟨s, hs⟩ := Option.isSome_iff_exists.mp hruns
  exact ⟨s, hs, refines_store fits_blank (run_of_runOf hs)⟩

/-! ### Recovering over and over -/

/-- What the process that commits or recovers still has to do. -/
def left (sb : Superblock) (s : LogSystem) : Nat :=
  match s.pc with
  | .quiet => 0
  | .writing tail => s.lh.length - tail + s.lh.length + 6
  | .heading => s.lh.length + 5
  | .installing tail _ => s.lh.length - tail + 3
  | .erasing _ => 2
  | .closing => 1
  | .booting => (s.buf sb.logstart).head.length + 4

/-- The process that commits or recovers can go on until it is done. -/
theorem work_progress (sb : Superblock) (hpc : s.pc ≠ .quiet) :
    ∃ s', s.work sb = some s' ∧ s'.left sb < s.left sb := by
  unfold LogSystem.work
  cases hpc' : s.pc with
  | quiet => exact absurd hpc' hpc
  | heading | closing | booting =>
    refine ⟨_, rfl, ?_⟩
    simp only [left, hpc', writeHead, bwrite]
    omega
  | erasing r =>
    refine ⟨_, rfl, ?_⟩
    cases r with
    | true | false =>
      simp only [left, hpc', if_true, Bool.false_eq_true, if_false]
      omega
  | writing tail | installing tail _ =>
    dsimp only
    cases hb : s.lh[tail]? with
    | some b =>
      refine ⟨_, rfl, ?_⟩
      have hlt := (List.getElem?_eq_some_iff.mp hb).1
      simp only [left, hpc', bwrite]
      omega
    | none =>
      refine ⟨_, rfl, ?_⟩
      simp only [left, hpc']
      omega

/-- A commit or a recovery that nothing cuts off comes to its end. -/
theorem work_ends (sb : Superblock) (s : LogSystem) :
    ∃ n t, Run (stepOf (next sb)) s (List.replicate n .work) t ∧ t.pc = .quiet := by
  induction hleft : s.left sb using Nat.strongRecOn generalizing s with
  | ind k ih =>
    by_cases hquiet : s.pc = .quiet
    · exact ⟨0, s, .nil, hquiet⟩
    · obtain ⟨s', hwork, hlt⟩ := work_progress sb hquiet
      obtain ⟨n, t, hrun, hdone⟩ := ih _ (hleft ▸ hlt) s' rfl
      have hstep : Run (stepOf (next sb)) s [.work] s' := Run.nil.snoc hwork
      exact ⟨n + 1, t, hstep.trans hrun, hdone⟩

/-- A recovery goes on, or is over. -/
theorem recovering_work (hwork : s.work sb = some s') (hrec : s.pc.recovering = true) :
    s'.pc.recovering = true ∨ s'.pc = .quiet := by
  unfold LogSystem.work at hwork
  cases hpc : s.pc with
  | quiet | writing _ | heading | closing =>
    rw [hpc] at hrec
    cases hrec
  | booting =>
    rw [hpc] at hwork
    cases hwork
    exact .inl rfl
  | erasing r =>
    rw [hpc] at hrec hwork
    cases hwork
    cases r with
    | true => exact .inr rfl
    | false => cases hrec
  | installing tail r =>
    rw [hpc] at hrec hwork
    dsimp only at hwork
    cases r with
    | false => cases hrec
    | true =>
      split at hwork
      · cases hwork
        exact .inl rfl
      · cases hwork
        exact .inl rfl

/-- Crashes during the recovery change nothing. -/
theorem recovering_run {durable : Nat → Block} {t : LogSystem}
    (hsim : s.Sim sb ⟨durable, durable, []⟩) (hrec : s.pc.recovering = true ∨ s.pc = .quiet)
    (hops : s.ops = []) (run : Run (stepOf (next sb)) s es t)
    (honly : ∀ e ∈ es, e = .work ∨ e = .crash) :
    t.Sim sb ⟨durable, durable, []⟩ ∧ (t.pc.recovering = true ∨ t.pc = .quiet) ∧ t.ops = [] := by
  induction run with
  | nil => exact ⟨hsim, hrec, hops⟩
  | @snoc es u v e _ hstep ih =>
    obtain ⟨hsim', hrec', hops'⟩ := ih fun x hx => honly x (List.mem_append_left _ hx)
    rcases honly e (by simp) with rfl | rfl
    · have hkept : v.Sim sb ⟨durable, durable, []⟩ := by
        rcases hsim'.work hstep with h | ⟨-, h⟩ <;> exact h
      have hidle : v.ops = [] := List.map_eq_nil_iff.mp hkept.active.symm
      rcases hrec' with hrec' | hquiet
      · exact ⟨hkept, recovering_work hstep hrec', hidle⟩
      · unfold stepOf next LogSystem.work at hstep
        rw [hquiet] at hstep
        cases hstep
    · cases hstep
      exact ⟨sim_boot hsim'.header hsim'.durable, .inl rfl, rfl⟩

/-- However often the machine crashes during the recovery, in the end the disk holds what the
operations had written at a moment at which none of them was going on. -/
theorem crash_recovery (hfits : Fits sb (disk sb.logstart).head)
    (run : Run (stepOf (next sb)) (boot disk) es s) {es' : List Event} {t : LogSystem}
    (again : Run (stepOf (next sb)) (boot s.disk) es' t)
    (honly : ∀ e ∈ es', e = .work ∨ e = .crash) :
    (∃ n u, Run (stepOf (next sb)) t (List.replicate n .work) u ∧ u.pc = .quiet) ∧
    (t.pc = .quiet → ∃ seen u, seen.filter Store.Event.visible <+: es.filterMap Event.effect ∧
      Run (stepOf Store.next) ⟨recovered sb disk, recovered sb disk, []⟩ seen u ∧ u.active = [] ∧
      ∀ b, Home sb b → t.disk b = u.current b ∧ t.buf b = u.current b) := by
  obtain ⟨seen, a, hrun, hsim, hseen⟩ := sim_run hfits run
  obtain ⟨es₁, es₂, u, hes, hrun', hactive, hdurable⟩ :=
    Store.durable_eq_current rfl rfl hrun
  obtain ⟨hsim', hrec, hops⟩ :=
    recovering_run (sim_boot hsim.header hsim.durable) (.inl rfl) rfl again honly
  refine ⟨work_ends sb t, fun hquiet => ⟨es₁, u, ?_, hrun', hactive, ?_⟩⟩
  · rw [← hseen, hes, List.filter_append]
    exact List.prefix_append _ _
  · intro b hb
    have hdisk := (hsim'.idle hquiet hops hb).2
    have hbuf := hsim'.view (by rw [hquiet]; rfl) hb
    rw [← hdurable]
    exact ⟨hdisk, hbuf⟩

/-- The theorem at a recovery that is cut off when the block is at home and begins anew. -/
theorem crash_recovery_twice :
    ∃ s t, runOf (next .mkfs) (boot blank) cutOff = some s ∧
      runOf (next .mkfs) (boot s.disk) [.work, .work, .crash, .work] = some t ∧
      (∃ n u, Run (stepOf (next .mkfs)) t (List.replicate n .work) u ∧ u.pc = .quiet) ∧
      (t.pc = .quiet → ∃ seen u, seen.filter Store.Event.visible <+: cutOff.filterMap Event.effect ∧
        Run (stepOf Store.next) ⟨recovered .mkfs blank,
          recovered .mkfs blank, []⟩ seen u ∧ u.active = [] ∧
        ∀ b, Home .mkfs b → t.disk b = u.current b ∧ t.buf b = u.current b) := by
  have hruns : ((runOf (next .mkfs) (boot blank) cutOff).bind fun s =>
      runOf (next .mkfs) (boot s.disk) [.work, .work, .crash, .work]).isSome := by decide +kernel
  obtain ⟨t, ht⟩ := Option.isSome_iff_exists.mp hruns
  obtain ⟨s, hs, ht⟩ := Option.bind_eq_some_iff.mp ht
  refine ⟨s, t, hs, ht, crash_recovery fits_blank (run_of_runOf hs) (run_of_runOf ht) ?_⟩
  simp

end LogSystem

end Cs537.P5
