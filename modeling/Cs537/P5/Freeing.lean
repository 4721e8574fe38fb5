import Cs537.P5.WriteBack

/-!
# Which pages `umunmap` frees

`umunmap` looks for an entry at the rounded address, but frees the pages from the address itself
on; it finds entries that were removed already; and a length close to `2 ^ 31` is negative when
rounded up. Before that, the write-back touches all pages of the mapping, and so maps those that
were not present. `frees_own_iff` says when the pages of the mapping that were asked for are freed
and nothing else has changed.
-/

namespace Cs537.P5

open Cs537.Lib

namespace Table

variable {t t' : Table} {va : Int} {vma : Vma} {present : Bool}

/-- The handler changes the table only where a mapping grows. -/
theorem doMap_table (h : t.pgftHandler va present = (.doMap vma, t')) :
    t' = t ∨ t.covering va = none ∧ 0 < t.totalVmas ∧ t' = t.grown := by
  unfold pgftHandler at h
  split at h
  · cases h
  · split at h
    · simp only at h
      split at h
      · cases h
      · cases h
        exact .inl rfl
    · rename_i hcover
      split at h
      · rename_i hgrow
        cases h
        exact .inr ⟨hcover, hgrow.1, rfl⟩
      · cases h

end Table

namespace Machine

variable {m m' m₁ : Machine} {va : Int} {i : Int} {locked : Option Nat}

/-! ## Pages that come in -/

/-- `fileread` changes bytes and the offset of a file. -/
theorem fileread_same {f : UInt32} {addr n r : Int}
    (hok : m.fileread locked f addr n = .ok (r, m')) :
    m'.dir = m.dir ∧ m'.free = m.free ∧ m'.maps = m.maps := by
  unfold fileread at hok
  split at hok
  · cases hok
    exact ⟨rfl, rfl, rfl⟩
  · split at hok
    · cases hok
    · cases hread : readi (m.data (m.file f).ip) (m.file f).off (u32 n) with
      | none =>
        rw [hread] at hok
        cases hok
        exact ⟨rfl, rfl, rfl⟩
      | some bs =>
        rw [hread] at hok
        simp only at hok
        rcases m.store_cases addr bs with ⟨-, bytes, hstore⟩ | ⟨-, herror⟩
        · rw [hstore] at hok
          cases hok
          exact ⟨rfl, rfl, rfl⟩
        · rw [herror] at hok
          cases hok

theorem fillPage_same {vma : Vma} (hok : m.fillPage locked va vma = .ok m') :
    m'.dir = m.dir ∧ m'.free = m.free ∧ m'.maps = m.maps := by
  unfold fillPage at hok
  split at hok
  · cases hok
    exact ⟨rfl, rfl, rfl⟩
  · cases hread : m.fileread locked vma.file (pageOf va * pgsize) (readSize vma) with
    | error e =>
      rw [hread] at hok
      cases hok
    | ok r =>
      rw [hread] at hok
      cases hok
      exact fileread_same hread

/-- How the kernel reads a byte of user memory: the page is present, or it comes in. -/
inductive Loaded (m m' : Machine) (va : Int) : Prop
  | present (there : m.dir.pte (pageOf va) ≠ none) (eq : m' = m)
  | mapped (vma : Vma) (t : Table) (e : Pte) (absent : m.dir.pte (pageOf va) = none)
      (handler : m.maps.pgftHandler va (m.dir.table (pdx va)).isSome = (.doMap vma, t))
      (taken : e.frame ∈ m.free) (free : m'.free ⊆ m.free)
      (pte : m'.dir.pte = Function.update m.dir.pte (pageOf va) (some e)) (maps : m'.maps = t)

theorem load_cases {c : UInt8} (hok : m.load locked va = .ok (c, m')) : Loaded m m' va := by
  have hm : mmapBase = 0x60000000 := rfl
  have hk : kernBase = 0x80000000 := rfl
  unfold load at hok
  cases habsent : m.dir.pte (pageOf va) with
  | some e =>
    rw [habsent] at hok
    cases hok
    exact .present (by rw [habsent]; exact Option.some_ne_none e) rfl
  | none =>
    rw [habsent] at hok
    simp only at hok
    cases hfault : m.pgftHandler locked va with
    | error e =>
      rw [hfault] at hok
      cases hok
    | ok m₁ =>
      rw [hfault] at hok
      simp only at hok
      cases hpte : m₁.dir.pte (pageOf va) with
      | none =>
        rw [hpte] at hok
        cases hok
      | some e =>
        rw [hpte] at hok
        cases hok
        unfold pgftHandler at hfault
        rcases hhandler : m.maps.pgftHandler va (m.dir.table (pdx va)).isSome with ⟨fault, t⟩
        rw [hhandler] at hfault
        cases fault with
        | killed =>
          cases hfault
          cases habsent.symm.trans hpte
        | doMap vma =>
          have hmem := doMap_mem hhandler
          simp only at hfault
          cases doMap_cases (m := { m with maps := t }) locked vma (by omega) (by omega) habsent with
          | killed free bytes few suffix same eq =>
            rw [eq] at hfault
            cases hfault
            cases habsent.symm.trans hpte
          | mapped mem rest free dir enough taken suffix pte eq =>
            rw [eq] at hfault
            obtain ⟨hdir, hfree, hmaps⟩ := fillPage_same hfault
            have hsub : rest ⊆ m.free := by
              rw [show m.free = mem :: rest from taken]
              exact List.subset_cons_self mem rest
            refine .mapped vma t ⟨mem, mapPerm vma⟩ habsent hhandler ?_ ?_ ?_ hmaps
            · rw [show m.free = mem :: rest from taken]
              exact List.mem_cons_self
            · rw [hfree]
              exact fun f hf => hsub (suffix.subset hf)
            · rw [hdir]
              exact pte

/-- The addresses of an entry, as `writei` reads them. -/
def InEntry (v : Vma) (va : Int) : Prop := ∃ k : Nat, (k : Int) < v.len ∧ va = u32 (v.addr + k)

/-- An entry that is live lies in the user part. -/
def UserEntry (t : Table) (i : Int) : Prop :=
  t.Live i → 0 ≤ (t.vmas i).addr ∧ (t.vmas i).addr + (t.vmas i).len ≤ kernBase

/-- What reading the memory of entry `i` does: no page is lost, pages of the entry come in, in frames
that were free, and the entry stays as it is. -/
structure Paged (m m' : Machine) (i : Int) : Prop where
  kept : ∀ p e, m.dir.pte p = some e → m'.dir.pte p = some e
  only : ∀ p, (¬ ∃ va, InEntry (m.maps.vmas i) va ∧ pageOf va = p) → m'.dir.pte p = m.dir.pte p
  frames : ∀ p e, m'.dir.pte p = some e → m.dir.pte p = none → e.frame ∈ m.free
  free : m'.free ⊆ m.free
  total : m'.maps.totalVmas = m.maps.totalVmas
  entry : m'.maps.vmas i = m.maps.vmas i
  addr : ∀ j, (m'.maps.vmas j).addr = (m.maps.vmas j).addr
  maps : m.maps.Live i → m'.maps = m.maps

theorem Paged.refl (m : Machine) (i : Int) : Paged m m i := by
  refine ⟨fun _ _ h => h, fun _ _ => rfl, ?_, fun _ h => h, rfl, rfl, fun _ => rfl, fun _ => rfl⟩
  intro p e hp habsent
  rw [habsent] at hp
  cases hp

theorem Paged.trans (h : Paged m m₁ i) (h' : Paged m₁ m' i) : Paged m m' i := by
  refine ⟨fun p e hp => h'.kept p e (h.kept p e hp), ?_, ?_, fun f hf => h.free (h'.free hf),
    h'.total.trans h.total, h'.entry.trans h.entry, fun j => (h'.addr j).trans (h.addr j),
    fun hlive => (h'.maps (by rw [h.maps hlive]; exact hlive)).trans (h.maps hlive)⟩
  · intro p hp
    rw [h'.only p (by rw [h.entry]; exact hp), h.only p hp]
  · intro p e hp habsent
    cases hfirst : m₁.dir.pte p with
    | none => exact h.free (h'.frames p e hp hfirst)
    | some e' =>
      cases (h'.kept p e' hfirst).symm.trans hp
      exact h.frames p _ hfirst habsent

theorem Paged.user (h : Paged m m' i) (huser : UserEntry m.maps i) : UserEntry m'.maps i := by
  intro hlive
  rw [h.entry]
  refine huser ?_
  rw [Table.Live, ← h.total]
  exact hlive

/-- The state changes that have to do with neither pages nor entries. -/
theorem Paged.congr {m₂ : Machine} (h : Paged m m' i) (hdir : m₂.dir = m'.dir)
    (hfree : m₂.free = m'.free) (hmaps : m₂.maps = m'.maps) : Paged m m₂ i := by
  obtain ⟨hkept, honly, hframes, hfree', htotal, hentry, haddr, hsame⟩ := h
  rw [← hdir] at hkept honly hframes
  rw [← hfree] at hfree'
  rw [← hmaps] at htotal hentry haddr hsame
  exact ⟨hkept, honly, hframes, hfree', htotal, hentry, haddr, hsame⟩

/-- An address of a live entry is covered, so that nothing grows. -/
theorem Loaded.maps_eq (h : Loaded m m' va) (huser : UserEntry m.maps i)
    (hin : InEntry (m.maps.vmas i) va) (hlive : m.maps.Live i) : m'.maps = m.maps := by
  have hk : kernBase = 0x80000000 := rfl
  cases h with
  | present there eq => rw [eq]
  | mapped vma t e absent handler taken free pte maps =>
    rw [maps]
    rcases Table.doMap_table handler with rfl | ⟨hcover, -, -⟩
    · rfl
    · obtain ⟨k, hlt, rfl⟩ := hin
      obtain ⟨h0, hend⟩ := huser hlive
      obtain ⟨hi0, hi⟩ := hlive
      have hnot := findFrom_eq_none hcover i hi0 (by omega)
      refine absurd ?_ (of_decide_eq_false hnot)
      rw [u32_of_mem h0 (by omega), u32_of_mem (x := _ + (k : Int)) (by omega) (by omega),
        u32_of_mem (by omega) (by omega)]
      omega

/-- Growing leaves the entry alone that is read. -/
theorem Loaded.entry (h : Loaded m m' va) (huser : UserEntry m.maps i)
    (hin : InEntry (m.maps.vmas i) va) :
    m'.maps.totalVmas = m.maps.totalVmas ∧ m'.maps.vmas i = m.maps.vmas i ∧
      ∀ j, (m'.maps.vmas j).addr = (m.maps.vmas j).addr := by
  have hk : kernBase = 0x80000000 := rfl
  cases h with
  | present there eq =>
    rw [eq]
    exact ⟨rfl, rfl, fun _ => rfl⟩
  | mapped vma t e absent handler taken free pte maps =>
    rw [maps]
    rcases Table.doMap_table handler with rfl | ⟨hcover, hpos, rfl⟩
    · exact ⟨rfl, rfl, fun _ => rfl⟩
    · -- the entry is live if it is entry 0, and then it covers the address
      have hne : i ≠ 0 := by
        rintro rfl
        obtain ⟨k, hlt, rfl⟩ := hin
        obtain ⟨h0, hend⟩ := huser ⟨Int.le_refl 0, hpos⟩
        have hnot := findFrom_eq_none hcover 0 (Int.le_refl 0) (by omega)
        refine of_decide_eq_false hnot ?_
        rw [u32_of_mem h0 (by omega), u32_of_mem (x := _ + (k : Int)) (by omega) (by omega),
          u32_of_mem (by omega) (by omega)]
        omega
      refine ⟨rfl, Function.update_of_ne hne _ _, ?_⟩
      intro j
      simp only [Table.grown, Table.set, Function.update_apply]
      by_cases hj : j = 0
      · rw [if_pos hj, hj]
      · rw [if_neg hj]

theorem Loaded.paged (h : Loaded m m' va) (huser : UserEntry m.maps i)
    (hin : InEntry (m.maps.vmas i) va) : Paged m m' i ∧ m'.dir.pte (pageOf va) ≠ none := by
  obtain ⟨htotal, hentry, haddr⟩ := h.entry huser hin
  have hsame := h.maps_eq huser hin
  cases h with
  | present there eq =>
    rw [eq]
    exact ⟨Paged.refl m i, there⟩
  | mapped vma t e absent handler taken free pte maps =>
    refine ⟨⟨?_, ?_, ?_, free, htotal, hentry, haddr, hsame⟩, ?_⟩
    · intro p e' hp
      rw [pte, Function.update_of_ne]
      · exact hp
      · rintro rfl
        rw [absent] at hp
        cases hp
    · intro p hp
      rw [pte, Function.update_of_ne]
      rintro rfl
      exact hp ⟨va, hin, rfl⟩
    · intro p e' hp habsent
      rw [pte, Function.update_apply] at hp
      split at hp
      · cases hp
        exact taken
      · rw [habsent] at hp
        cases hp
    · rw [pte, Function.update_self]
      exact Option.some_ne_none e

/-- Reading bytes of the entry. -/
theorem loads_paged {n : Nat} {bs : List UInt8} (huser : UserEntry m.maps i)
    (hin : ∀ k < n, InEntry (m.maps.vmas i) (u32 (va + k)))
    (hok : m.loads locked va n = .ok (bs, m')) :
    Paged m m' i ∧ ∀ k < n, m'.dir.pte (pageOf (u32 (va + k))) ≠ none := by
  induction n generalizing m va bs with
  | zero =>
    cases hok
    exact ⟨Paged.refl _ i, fun k hk => absurd hk (Nat.not_lt_zero k)⟩
  | succ n ih =>
    obtain ⟨c, m₁, cs, hload, hloads, rfl⟩ := loads_succ_ok hok
    have hfirst := hin 0 (Nat.succ_pos n)
    rw [show va + ((0 : Nat) : Int) = va by omega] at hfirst
    obtain ⟨hpaged, hpresent⟩ := (load_cases hload).paged huser hfirst
    have hnext (k : Nat) : va + 1 + (k : Int) = va + ((k + 1 : Nat) : Int) := by omega
    obtain ⟨hpaged', hpresent'⟩ := ih (hpaged.user huser) (by
      intro k hk
      rw [hpaged.entry, hnext]
      exact hin (k + 1) (by omega)) hloads
    refine ⟨hpaged.trans hpaged', ?_⟩
    intro k hk
    cases k with
    | zero =>
      obtain ⟨e, he⟩ := Option.ne_none_iff_exists'.mp hpresent
      rw [show va + ((0 : Nat) : Int) = va by omega, hpaged'.kept _ e he]
      exact Option.some_ne_none e
    | succ k =>
      rw [← hnext]
      exact hpresent' k (by omega)

theorem writei_paged {ip n : Nat} {off : Int} {done : Bool} (huser : UserEntry m.maps i)
    (hin : ∀ k < n, InEntry (m.maps.vmas i) (u32 (va + k)))
    (hok : m.writei ip va off n = .ok (done, m')) :
    Paged m m' i ∧ (done = true → ∀ k < n, m'.dir.pte (pageOf (u32 (va + k))) ≠ none) := by
  unfold writei at hok
  split at hok
  · cases hok
    exact ⟨Paged.refl _ i, fun h => by cases h⟩
  · split at hok
    · cases hok
      exact ⟨Paged.refl _ i, fun h => by cases h⟩
    · cases hloads : m.loads (some ip) va n with
      | error e =>
        rw [hloads] at hok
        cases hok
      | ok r =>
        obtain ⟨bs, m₁⟩ := r
        rw [hloads] at hok
        cases hok
        obtain ⟨hpaged, hpresent⟩ := loads_paged huser hin hloads
        exact ⟨hpaged.congr rfl rfl rfl, fun _ => hpresent⟩

theorem writeLoop_paged {f : UInt32} {fuel n : Nat} {done : Bool} (huser : UserEntry m.maps i)
    (hin : ∀ k < n, InEntry (m.maps.vmas i) (u32 (va + k)))
    (hok : writeLoop f fuel m va n = .ok (done, m')) :
    Paged m m' i ∧ (done = true → ∀ k < n, m'.dir.pte (pageOf (u32 (va + k))) ≠ none) := by
  induction fuel generalizing m va n with
  | zero =>
    cases hok
    refine ⟨Paged.refl _ i, ?_⟩
    intro hdone k hk
    have := of_decide_eq_true hdone
    omega
  | succ fuel ih =>
    rw [writeLoop] at hok
    by_cases hn : n = 0
    · rw [if_pos hn] at hok
      cases hok
      exact ⟨Paged.refl _ i, fun _ k hk => by omega⟩
    · rw [if_neg hn] at hok
      simp only at hok
      have hle : min n maxChunk ≤ n := Nat.min_le_left _ _
      generalize min n maxChunk = n1 at hok hle
      cases hwrite : m.writei (m.file f).ip va (m.file f).off n1 with
      | error e =>
        rw [hwrite] at hok
        cases hok
      | ok r =>
        obtain ⟨done₁, m₁⟩ := r
        rw [hwrite] at hok
        obtain ⟨hpaged, hpresent⟩ := writei_paged huser (fun k hk => hin k (by omega)) hwrite
        cases done₁ with
        | false =>
          cases hok
          exact ⟨hpaged, fun h => by cases h⟩
        | true =>
          have hseek : Paged m (m₁.seek f ((m₁.file f).off + n1)) i := hpaged.congr rfl rfl rfl
          have hnext (k : Nat) : va + (n1 : Int) + (k : Int) = va + ((n1 + k : Nat) : Int) := by
            omega
          obtain ⟨hpaged', hpresent'⟩ := ih (hseek.user huser) (by
            intro k hk
            rw [hseek.entry, hnext]
            exact hin (n1 + k) (by omega)) hok
          refine ⟨hseek.trans hpaged', ?_⟩
          intro hdone k hk
          by_cases hfirst : k < n1
          · obtain ⟨e, he⟩ := Option.ne_none_iff_exists'.mp (hpresent rfl k hfirst)
            rw [hpaged'.kept _ e he]
            exact Option.some_ne_none e
          · have hrest := hpresent' hdone (k - n1) (by omega)
            rwa [hnext, show n1 + (k - n1) = k by omega] at hrest

/-- The entry that is found, and whether it is written back. -/
theorem dirtyEntry_cases {t : Table} {addr : Int} (hfind : t.findVma (u32 (pgroundup addr)) = some i) :
    dirtyEntry t addr = some (t.vmas i) ∧ (t.vmas i).len ≠ 0 ∧ has (t.vmas i).flags mapShared ∧
        ¬ has (t.vmas i).flags mapAnonymous ∧ has (t.vmas i).prot protWrite ∨
      dirtyEntry t addr = none ∧ ((t.vmas i).len ≠ 0 → ¬ (has (t.vmas i).flags mapShared ∧
        ¬ has (t.vmas i).flags mapAnonymous ∧ has (t.vmas i).prot protWrite)) := by
  unfold dirtyEntry
  rw [hfind]
  simp only
  split
  · rename_i hdirty
    exact .inl ⟨rfl, hdirty⟩
  · rename_i hclean
    exact .inr ⟨rfl, fun hlen hflags => hclean ⟨hlen, hflags⟩⟩

/-- What the write-back of entry `i` does. -/
structure Wrote (m m' : Machine) (addr i w : Int) : Prop where
  paged : Paged m m' i
  clean : dirtyEntry m.maps addr = none → m' = m ∧ w = 0
  dirty : dirtyEntry m.maps addr ≠ none → 0 ≤ w →
    0 < (m.maps.vmas i).len ∧ ∀ va, InEntry (m.maps.vmas i) va → m'.dir.pte (pageOf va) ≠ none

theorem writeBack_wrote {addr w : Int} (huser : UserEntry m.maps i)
    (hfind : m.maps.findVma (u32 (pgroundup addr)) = some i)
    (hok : m.writeBack addr = .ok (w, m')) : Wrote m m' addr i w := by
  unfold writeBack at hok
  rcases dirtyEntry_cases hfind with ⟨hdirty, hlen, -⟩ | ⟨hclean, -⟩
  · rw [hdirty] at hok
    simp only at hok
    have hseek : Paged m (m.seek (m.maps.vmas i).file (m.maps.vmas i).offset) i :=
      (Paged.refl m i).congr rfl rfl rfl
    have hnot : dirtyEntry m.maps addr = none → m' = m ∧ w = 0 := by
      intro hclean
      rw [hdirty] at hclean
      cases hclean
    unfold filewrite at hok
    split at hok
    · cases hok
      exact ⟨hseek, hnot, fun _ hw => absurd hw (by decide)⟩
    · split at hok
      · cases hok
        exact ⟨hseek, hnot, fun _ hw => absurd hw (by decide)⟩
      · rename_i hneg
        cases hloop : writeLoop (m.maps.vmas i).file (m.maps.vmas i).len.toNat
            (m.seek (m.maps.vmas i).file (m.maps.vmas i).offset) (m.maps.vmas i).addr
            (m.maps.vmas i).len.toNat with
        | error e =>
          rw [hloop] at hok
          cases hok
        | ok r =>
          obtain ⟨done, m₁⟩ := r
          rw [hloop] at hok
          cases hok
          obtain ⟨hpaged, hpresent⟩ := writeLoop_paged (hseek.user huser)
            (fun k hk => ⟨k, by rw [hseek.entry]; omega, by rw [hseek.entry]⟩) hloop
          refine ⟨hseek.trans hpaged, hnot, ?_⟩
          intro _ hw
          have hdone : done = true := by
            by_contra hfailed
            rw [if_neg hfailed] at hw
            exact absurd hw (by decide)
          refine ⟨by omega, ?_⟩
          rintro va ⟨k, hk, rfl⟩
          exact hpresent hdone k (by omega)
  · rw [hclean] at hok
    cases hok
    exact ⟨Paged.refl _ i, fun _ => ⟨rfl, rfl⟩, fun hdirty => absurd hclean hdirty⟩

/-! ## The call -/

/-- A call of `umunmap` removes something: it finds entry `i`, which is not empty, and the
write-back, if there is one, succeeds. -/
structure Unmaps (m : Machine) (addr i : Int) : Prop where
  found : m.maps.findVma (u32 (pgroundup addr)) = some i
  nonempty : (m.maps.vmas i).len ≠ 0
  written : ∃ w m', m.writeBack addr = .ok (w, m') ∧ 0 ≤ w

/-- The pages that the loop of `umunmap` goes through (`sys_mmap.c:306-318`). -/
def Visited (v : Vma) (addr length p : Int) : Prop :=
  ∃ k : Nat, pgsize * k < v.len ∧ pgsize * k < pgroundup length ∧ pageOf (u32 (addr + pgsize * k)) = p

/-- What comes of a call of `umunmap`. -/
inductive Unmap (m : Machine) (addr length : Int) (r : Except Halt (Int × Machine)) : Prop
  | halted (e : Halt) (eq : r = .error e)
  | failed (m' : Machine) (none : ∀ i, ¬ m.Unmaps addr i) (eq : r = .ok (-1, m'))
      (kept : ∀ p e, m.dir.pte p = some e → m'.dir.pte p = some e) (free : m'.free ⊆ m.free)
  | done (i w : Int) (m₁ m' : Machine) (unmaps : m.Unmaps addr i) (wrote : Wrote m m₁ addr i w)
      (nonneg : 0 ≤ w) (eq : r = .ok (0, m'))
      (pte : ∀ p, (Visited (m.maps.vmas i) addr length p → m'.dir.pte p = none) ∧
        (¬ Visited (m.maps.vmas i) addr length p → m'.dir.pte p = m₁.dir.pte p))
      (free : ∀ f ∈ m'.free, f ∈ m₁.free ∨
        ∃ p e, Visited (m.maps.vmas i) addr length p ∧ m₁.dir.pte p = some e ∧ e.frame = f)

theorem mem_freed {addr size p : Int} :
    p ∈ (Table.freed addr size).map pageOf ↔
      ∃ k : Nat, pgsize * k < size ∧ pageOf (u32 (addr + pgsize * k)) = p := by
  unfold Table.freed
  rw [List.map_map, List.mem_map]
  unfold pgsize
  constructor
  · rintro ⟨k, hk, rfl⟩
    have hlt := List.mem_range.mp hk
    exact ⟨k, by omega, rfl⟩
  · rintro ⟨k, hk, rfl⟩
    exact ⟨k, List.mem_range.mpr (by omega), rfl⟩

/-- What the call does once the write-back has succeeded. -/
theorem Wrote.unmap {addr length w : Int} (h : Wrote m m₁ addr i w)
    (hwrite : m.writeBack addr = .ok (w, m₁))
    (hfind : m.maps.findVma (u32 (pgroundup addr)) = some i) :
    Unmap m addr length (m.umunmap addr length) := by
  have hentry := h.paged.entry
  have hfind' : m₁.maps.findVma (u32 (pgroundup addr)) = some i := by
    rw [← hfind]
    simp only [Table.findVma, h.paged.addr]
  have hr : m.umunmap addr length = .ok ((m₁.maps.umunmap addr length w).1,
      (m₁.maps.umunmap addr length w).2.2.foldl freePage
        { m₁ with maps := (m₁.maps.umunmap addr length w).2.1 }) := by
    unfold umunmap
    rw [hwrite]
  -- once the entry is found, it is removed if the write-back has succeeded
  have hdone {size : Int} (hfinds : m₁.maps.Finds addr w i)
      (hpages : (m₁.maps.umunmap addr length w).2.2 = Table.freed addr size)
      (hsize : ∀ x, x < size ↔ x < (m.maps.vmas i).len ∧ x < pgroundup length) :
      Unmap m addr length (m.umunmap addr length) := by
    have hnonneg : 0 ≤ w := by
      by_contra hneg
      rcases dirtyEntry_cases hfind with ⟨-, -, hflags⟩ | ⟨hclean, -⟩
      · rw [← hentry] at hflags
        exact hfinds.written ⟨hflags.1, hflags.2.1, hflags.2.2, by omega⟩
      · have := (h.clean hclean).2
        omega
    have hvisited (p : Int) : p ∈ (Table.freed addr size).map pageOf ↔
        Visited (m.maps.vmas i) addr length p := by
      rw [mem_freed]
      exact exists_congr fun k => by rw [hsize, and_assoc]
    have hfreed := freePages_freed { m₁ with maps := (m₁.maps.umunmap addr length w).2.1 }
      (m₁.maps.umunmap addr length w).2.2
    refine .done i w m₁ _ ⟨hfind, by rw [← hentry]; exact hfinds.nonempty, w, m₁, hwrite, hnonneg⟩
      h hnonneg (hr.trans (by rw [hfinds.result length])) ?_ ?_
    · intro p
      have hpte := hfreed.pte p
      rw [hpages] at hpte ⊢
      constructor
      · intro hp
        rw [hpte, if_pos ((hvisited p).mpr hp)]
      · intro hp
        rw [hpte, if_neg (mt (hvisited p).mp hp)]
    · intro f hf
      rw [hfreed.free] at hf
      rcases hf with hf | ⟨p, hp, e, he, hframe⟩
      · exact .inl hf
      · rw [hpages, hvisited] at hp
        exact .inr ⟨p, e, hp, he, hframe⟩
  cases m₁.maps.umunmap_cases addr length w with
  | failed eq none =>
    refine .failed m₁ ?_ ?_ h.paged.kept h.paged.free
    · rintro j ⟨hj, hlen, w', m₂, hwrite', hw'⟩
      cases hfind.symm.trans hj
      cases hwrite.symm.trans hwrite'
      exact none i ⟨hfind', by rw [hentry]; exact hlen, fun hneg => by have := hneg.2.2.2; omega⟩
    · rw [hr, eq]
      rfl
  | removed j removes eq =>
    obtain rfl : i = j := Option.some.inj (hfind'.symm.trans removes.found)
    have hwhole := removes.whole
    refine hdone removes.finds (congrArg (fun r => r.2.2) eq) ?_
    intro x
    rw [hentry] at hwhole ⊢
    omega
  | shortened j finds part eq =>
    obtain rfl : i = j := Option.some.inj (hfind'.symm.trans finds.found)
    refine hdone finds (congrArg (fun r => r.2.2) eq) ?_
    intro x
    rw [hentry] at part
    omega

theorem umunmap_unmap (m : Machine) (addr length : Int) (huser : ∀ i, UserEntry m.maps i) :
    Unmap m addr length (m.umunmap addr length) := by
  cases hwrite : m.writeBack addr with
  | error e =>
    refine .halted e ?_
    unfold umunmap
    rw [hwrite]
  | ok r =>
    obtain ⟨w, m₁⟩ := r
    cases hfind : m.maps.findVma (u32 (pgroundup addr)) with
    | some i => exact (writeBack_wrote (huser i) hfind hwrite).unmap hwrite hfind
    | none =>
      have hclean : dirtyEntry m.maps addr = none := by
        unfold dirtyEntry
        rw [hfind]
      have hnone (w : Int) : m.maps.umunmap addr length w = (-1, m.maps, []) := by
        unfold Table.umunmap
        simp only [hfind]
      refine .failed m ?_ ?_ (fun _ _ h => h) fun _ h => h
      · rintro j ⟨hj, -⟩
        rw [hfind] at hj
        cases hj
      · unfold umunmap writeBack
        rw [hclean]
        simp only
        rw [hnone]
        rfl

end Machine

/-! ## Own pages -/

/-- A page holds a part of a mapping, which begins at a page. -/
def Vma.HasPage (v : Vma) (p : Int) : Prop := v.addr ≤ p * pgsize ∧ p * pgsize < v.addr + v.len

namespace Table

/-- The live mappings lie in the user part, begin at a page each and have no page in common. -/
structure PageDisjoint (t : Table) : Prop where
  total_le : t.totalVmas ≤ 32
  aligned : ∀ i, t.Live i → pgsize ∣ (t.vmas i).addr
  addr_nonneg : ∀ i, t.Live i → 0 ≤ (t.vmas i).addr
  addr_lt : ∀ i, t.Live i → (t.vmas i).addr < kernBase
  end_le : ∀ i, t.Live i → (t.vmas i).addr + (t.vmas i).len ≤ kernBase
  disjoint : ∀ i j, t.Live i → t.Live j → i ≠ j → ∀ p, (t.vmas i).HasPage p → ¬ (t.vmas j).HasPage p

/-- Two mappings of a page each, one behind the other. -/
theorem pageDisjoint_two {t : Table} (htotal : t.totalVmas = 2)
    (haddr0 : (t.vmas 0).addr = 0x60000000) (hlen0 : (t.vmas 0).len = 4096)
    (haddr1 : (t.vmas 1).addr = 0x60001000) (hlen1 : (t.vmas 1).len = 4096) : t.PageDisjoint := by
  have hk : kernBase = 0x80000000 := rfl
  have hlive {i : Int} (h : t.Live i) : i = 0 ∨ i = 1 := by
    obtain ⟨h0, hlt⟩ := h
    omega
  refine ⟨by omega, ?_, ?_, ?_, ?_, ?_⟩
  · intro i hi
    rcases hlive hi with rfl | rfl
    · exact ⟨0x60000, haddr0⟩
    · exact ⟨0x60001, haddr1⟩
  · intro i hi
    rcases hlive hi with rfl | rfl <;> omega
  · intro i hi
    rcases hlive hi with rfl | rfl <;> omega
  · intro i hi
    rcases hlive hi with rfl | rfl <;> omega
  · intro i j hi hj hne p hp hp'
    unfold Vma.HasPage at hp hp'
    rcases hlive hi with rfl | rfl <;> rcases hlive hj with rfl | rfl <;> omega

end Table

namespace Machine

variable {m : Machine} {addr length : Int}

/-- A page of the part that a call of `umunmap` asks for, in the mapping that starts there. -/
def Own (m : Machine) (addr length p : Int) : Prop :=
  (addr ≤ p * pgsize ∧ p * pgsize < addr + alignUp pgsize length) ∧
    ∃ i, m.maps.Live i ∧ (m.maps.vmas i).addr = addr ∧ (m.maps.vmas i).HasPage p

/-- `umunmap` frees the pages asked for and nothing else: a frame that is free afterwards and was
not before is that of such a page; if the call succeeds none of them is present any more, and every
other page table entry is as it was; if it fails nothing is freed. -/
structure FreesOwn (m : Machine) (addr length : Int) : Prop where
  frames : ∀ r m', m.umunmap addr length = .ok (r, m') → ∀ f ∈ m'.free, f ∉ m.free →
    ∃ p e, m.Own addr length p ∧ m.dir.pte p = some e ∧ e.frame = f
  gone : ∀ m', m.umunmap addr length = .ok (0, m') → ∀ p, m.Own addr length p →
    m'.dir.pte p = none
  stays : ∀ m', m.umunmap addr length = .ok (0, m') → ∀ p, ¬ m.Own addr length p →
    m'.dir.pte p = m.dir.pte p
  failed : ∀ m', m.umunmap addr length = .ok (-1, m') → m'.free ⊆ m.free ∧
    ∀ p e, m.dir.pte p = some e → m'.dir.pte p = some e

/-- The calls that free the pages asked for and nothing else. With an aligned address and a live
entry there, the rounded length is not to be negative, unless nothing is mapped there and nothing
written back. With another entry, no page that is gone through is present. If the mapping is written
back, its pages that are not gone through are present. -/
structure FreesOk (m : Machine) (addr length : Int) : Prop where
  own : ∀ i, m.Unmaps addr i → pgsize ∣ addr → m.maps.Live i →
    2 ^ 31 - pgsize < length ∨ (m.maps.vmas i).len < 0 →
      dirtyEntry m.maps addr = none ∧ ∀ p, m.Own addr length p → m.dir.pte p = none
  stray : ∀ i, m.Unmaps addr i → ¬ (pgsize ∣ addr ∧ m.maps.Live i) →
    ∀ p, Visited (m.maps.vmas i) addr length p → m.dir.pte p = none
  rest : ∀ i, m.Unmaps addr i → dirtyEntry m.maps addr ≠ none →
    ∀ va, InEntry (m.maps.vmas i) va → ¬ Visited (m.maps.vmas i) addr length (pageOf va) →
      m.dir.pte (pageOf va) ≠ none

section

variable {i : Int}

/-- The entry that is found for an aligned address, if it is live. -/
theorem Unmaps.addr_eq (h : m.Unmaps addr i) (ht : m.maps.PageDisjoint) (haligned : pgsize ∣ addr)
    (hlive : m.maps.Live i) (hlo : -2 ^ 31 ≤ addr) (hhi : addr < 2 ^ 31) :
    (m.maps.vmas i).addr = addr := by
  have hk : kernBase = 0x80000000 := rfl
  have h0 := ht.addr_nonneg i hlive
  have hlt := ht.addr_lt i hlive
  obtain ⟨-, -, hfound, -⟩ := findFrom_eq_some h.found
  have heq := of_decide_eq_true hfound
  rw [pgroundup_of_dvd haligned hlo hhi, u32_of_mem h0 (by omega)] at heq
  unfold u32 at heq
  omega

/-- If the address is not aligned, or the entry found is not live, no mapping starts there. -/
theorem Unmaps.not_own (h : m.Unmaps addr i) (ht : m.maps.PageDisjoint)
    (hstray : ¬ (pgsize ∣ addr ∧ m.maps.Live i)) (hlo : -2 ^ 31 ≤ addr) (hhi : addr < 2 ^ 31)
    (p : Int) : ¬ m.Own addr length p := by
  rintro ⟨-, j, hlive, hstart, -⟩
  have haligned : pgsize ∣ addr := hstart ▸ ht.aligned j hlive
  have htotal := ht.total_le
  obtain ⟨hi0, -, hfound, hfirst⟩ := findFrom_eq_some h.found
  refine hstray ⟨haligned, hi0, ?_⟩
  -- the live entries come first
  by_contra hdead
  have hnot := of_decide_eq_false (hfirst j hlive.1 (by have := hlive.2; omega))
  rw [pgroundup_of_dvd haligned hlo hhi, hstart] at hnot
  exact hnot rfl

/-- With a live entry and a length that is not too long, the pages asked for are gone through. -/
theorem Unmaps.own_iff (h : m.Unmaps addr i) (ht : m.maps.PageDisjoint) (haligned : pgsize ∣ addr)
    (hlive : m.maps.Live i) (hlo : -2 ^ 31 ≤ addr) (hhi : addr < 2 ^ 31)
    (hlen : 0 ≤ (m.maps.vmas i).len) (hlo' : -2 ^ 31 ≤ length) (hhi' : length ≤ 2 ^ 31 - pgsize)
    (p : Int) : m.Own addr length p ↔ Visited (m.maps.vmas i) addr length p := by
  have hk : kernBase = 0x80000000 := rfl
  have hp : pgsize = 4096 := rfl
  have haddr := h.addr_eq ht haligned hlive hlo hhi
  have h0 := ht.addr_nonneg i hlive
  have hend := ht.end_le i hlive
  have hne := h.nonempty
  have hround : pgroundup length = alignUp pgsize length := by
    have hup := le_alignUp Span.pgsize_pos length
    have hup' : alignUp pgsize length ≤ 2 ^ 31 - pgsize :=
      alignUp_le Span.pgsize_pos _ (by decide) hhi'
    exact i32_of_mem (by omega) (by omega)
  -- the mapping that starts at the address is the one found
  have hown : m.Own addr length p ↔ (addr ≤ p * pgsize ∧ p * pgsize < addr + pgroundup length) ∧
      p * pgsize < addr + (m.maps.vmas i).len := by
    rw [hround]
    refine and_congr_right fun hmem => ?_
    constructor
    · rintro ⟨j, hj, hjaddr, hpage⟩
      by_cases hij : j = i
      · rw [← hjaddr, ← hij]
        exact hpage.2
      · refine absurd ⟨?_, ?_⟩ (ht.disjoint j i hj hlive hij (pageOf addr) ⟨?_, ?_⟩)
        all_goals
          have := hpage.1
          have := hpage.2
          rw [pageOf_mul_pgsize haligned]
          omega
    · intro hlt
      exact ⟨i, hlive, haddr, by rw [haddr]; exact hmem.1, by rw [haddr]; exact hlt⟩
  obtain ⟨c, hc⟩ := haligned
  rw [hown]
  unfold Visited pageOf
  rw [hp] at hc
  simp only [hp]
  constructor
  · rintro ⟨⟨hge, hlt⟩, hlt'⟩
    refine ⟨(p - c).toNat, by omega, by omega, ?_⟩
    rw [u32_of_mem (by omega) (by omega)]
    omega
  · rintro ⟨k, hk1, hk2, rfl⟩
    rw [u32_of_mem (by omega) (by omega)]
    omega

/-- A call that goes ahead succeeds. -/
theorem Unmaps.done (h : m.Unmaps addr i) (huser : ∀ i, UserEntry m.maps i) (length : Int) :
    ∃ w m₁ m', Wrote m m₁ addr i w ∧ 0 ≤ w ∧ m.umunmap addr length = .ok (0, m') ∧
      ∀ p, (Visited (m.maps.vmas i) addr length p → m'.dir.pte p = none) ∧
        (¬ Visited (m.maps.vmas i) addr length p → m'.dir.pte p = m₁.dir.pte p) := by
  obtain ⟨w, m₁, hwrite, -⟩ := h.written
  have hunmap : Unmap m addr length (m.umunmap addr length) :=
    (writeBack_wrote (huser i) h.found hwrite).unmap hwrite h.found
  cases hunmap with
  | halted e eq =>
    unfold umunmap at eq
    rw [hwrite] at eq
    cases eq
  | failed m' none eq kept free => exact absurd h (none i)
  | done j w' m₂ m' unmaps wrote nonneg eq pte free =>
    obtain rfl : i = j := Option.some.inj (h.found.symm.trans unmaps.found)
    exact ⟨w', m₂, m', wrote, nonneg, eq, pte⟩

/-- Where the rounded length is negative, no page is gone through. -/
theorem not_visited {v : Vma} (hmax : length < 2 ^ 31)
    (hbad : 2 ^ 31 - pgsize < length ∨ v.len < 0) (p : Int) : ¬ Visited v addr length p := by
  rintro ⟨k, hk, hk', -⟩
  rcases hbad with hlong | hneg
  · have hround : pgroundup length = -2 ^ 31 := by
      unfold pgroundup alignUp i32
      unfold pgsize at *
      omega
    unfold pgsize at hk'
    omega
  · unfold pgsize at hk
    omega

/-- A call that frees its own pages only is one of those described. -/
theorem FreesOwn.ok (hfrees : m.FreesOwn addr length) (ht : m.maps.PageDisjoint)
    (hlo : -2 ^ 31 ≤ addr) (hhi : addr < 2 ^ 31) (hhi' : length < 2 ^ 31) : m.FreesOk addr length := by
  have hk : kernBase = 0x80000000 := rfl
  have huser (i : Int) : UserEntry m.maps i :=
    fun hlive => ⟨ht.addr_nonneg i hlive, ht.end_le i hlive⟩
  refine ⟨?_, ?_, ?_⟩
  · intro i h haligned hlive hbad
    obtain ⟨w, m₁, m', hwrote, hnonneg, hok, hpte⟩ := h.done huser length
    have haddr := h.addr_eq ht haligned hlive hlo hhi
    have hsame (p : Int) : m'.dir.pte p = m₁.dir.pte p := (hpte p).2 (not_visited hhi' hbad p)
    refine ⟨?_, ?_⟩
    · -- the write-back has brought in the first page, which is not freed
      by_contra hdirty
      obtain ⟨hpos, hpresent⟩ := hwrote.dirty hdirty hnonneg
      have hend := ht.end_le i hlive
      have h0 := ht.addr_nonneg i hlive
      have hfirst : InEntry (m.maps.vmas i) addr :=
        ⟨0, by omega, by rw [haddr, u32_of_mem (by omega) (by omega)]; omega⟩
      have hround := le_alignUp Span.pgsize_pos length
      have hmul := pageOf_mul_pgsize haligned
      have hp : pgsize = 4096 := rfl
      have hown : m.Own addr length (pageOf addr) :=
        ⟨by omega, i, hlive, haddr, by rw [Vma.HasPage]; omega⟩
      have hgone := hfrees.gone m' hok _ hown
      rw [hsame] at hgone
      exact hpresent addr hfirst hgone
    · intro p hown
      have hgone := hfrees.gone m' hok p hown
      rw [hsame] at hgone
      cases hpte' : m.dir.pte p with
      | none => rfl
      | some e =>
        rw [hwrote.paged.kept p e hpte'] at hgone
        cases hgone
  · intro i h hstray p hvisited
    obtain ⟨w, m₁, m', hwrote, hnonneg, hok, hpte⟩ := h.done huser length
    rw [← hfrees.stays m' hok p (h.not_own ht hstray hlo hhi p)]
    exact (hpte p).1 hvisited
  · intro i h hdirty va hin hvisited
    obtain ⟨w, m₁, m', hwrote, hnonneg, hok, hpte⟩ := h.done huser length
    have hpresent := (hwrote.dirty hdirty hnonneg).2 va hin
    rw [← (hpte _).2 hvisited] at hpresent
    by_cases hown : m.Own addr length (pageOf va)
    · exact absurd (hfrees.gone m' hok _ hown) hpresent
    · rwa [hfrees.stays m' hok _ hown] at hpresent

/-- A page that is not gone through is as it was before the write-back. -/
theorem FreesOk.unvisited {m₁ : Machine} {w p : Int} (hok : m.FreesOk addr length)
    (h : m.Unmaps addr i) (hwrote : Wrote m m₁ addr i w)
    (hvisited : ¬ Visited (m.maps.vmas i) addr length p) : m₁.dir.pte p = m.dir.pte p := by
  by_cases hclean : dirtyEntry m.maps addr = none
  · rw [(hwrote.clean hclean).1]
  · by_cases hin : ∃ va, InEntry (m.maps.vmas i) va ∧ pageOf va = p
    · obtain ⟨va, hva, rfl⟩ := hin
      obtain ⟨e, he⟩ := Option.ne_none_iff_exists'.mp (hok.rest i h hclean va hva hvisited)
      rw [he, hwrote.paged.kept _ e he]
    · exact hwrote.paged.only p hin

/-- What the described calls do to the page tables. -/
theorem FreesOk.pte {m₁ m' : Machine} {w : Int} (hok : m.FreesOk addr length)
    (ht : m.maps.PageDisjoint) (hlo : -2 ^ 31 ≤ addr) (hhi : addr < 2 ^ 31)
    (hlo' : -2 ^ 31 ≤ length) (hhi' : length < 2 ^ 31) (h : m.Unmaps addr i)
    (hwrote : Wrote m m₁ addr i w)
    (hpte : ∀ p, (Visited (m.maps.vmas i) addr length p → m'.dir.pte p = none) ∧
      (¬ Visited (m.maps.vmas i) addr length p → m'.dir.pte p = m₁.dir.pte p)) (p : Int) :
    (m.Own addr length p → m'.dir.pte p = none) ∧
      (¬ m.Own addr length p → m'.dir.pte p = m.dir.pte p) := by
  have hunvisited (hp : ¬ Visited (m.maps.vmas i) addr length p) : m'.dir.pte p = m.dir.pte p :=
    ((hpte p).2 hp).trans (hok.unvisited h hwrote hp)
  by_cases hlive : pgsize ∣ addr ∧ m.maps.Live i
  · by_cases hbad : 2 ^ 31 - pgsize < length ∨ (m.maps.vmas i).len < 0
    · obtain ⟨-, hnone⟩ := hok.own i h hlive.1 hlive.2 hbad
      have hsame := hunvisited (not_visited hhi' hbad p)
      exact ⟨fun hown => hsame.trans (hnone p hown), fun _ => hsame⟩
    · have hown := h.own_iff ht hlive.1 hlive.2 hlo hhi (by omega) hlo' (by omega) p
      rw [hown]
      exact ⟨(hpte p).1, hunvisited⟩
  · refine ⟨fun hown => absurd hown (h.not_own ht hlive hlo hhi p), fun _ => ?_⟩
    by_cases hp : Visited (m.maps.vmas i) addr length p
    · rw [(hpte p).1 hp, hok.stray i h hlive p hp]
    · exact hunvisited hp

/-- The calls that free the pages asked for and nothing else. -/
theorem frees_own_iff (ht : m.maps.PageDisjoint) (hlo : -2 ^ 31 ≤ addr) (hhi : addr < 2 ^ 31)
    (hlo' : -2 ^ 31 ≤ length) (hhi' : length < 2 ^ 31) :
    m.FreesOwn addr length ↔ m.FreesOk addr length := by
  refine ⟨fun hfrees => hfrees.ok ht hlo hhi hhi', fun hok => ?_⟩
  have huser (i : Int) : UserEntry m.maps i :=
    fun hlive => ⟨ht.addr_nonneg i hlive, ht.end_le i hlive⟩
  cases m.umunmap_unmap addr length huser with
  | halted e eq =>
    have hnot (r : Int) (m' : Machine) : m.umunmap addr length ≠ .ok (r, m') := by
      rw [eq]
      exact fun h => nomatch h
    exact ⟨fun r m' h => absurd h (hnot r m'), fun m' h => absurd h (hnot 0 m'),
      fun m' h => absurd h (hnot 0 m'), fun m' h => absurd h (hnot (-1) m')⟩
  | failed m' none eq kept free =>
    refine ⟨?_, ?_, ?_, ?_⟩
    · intro r m₁ h f hf hnot
      cases eq.symm.trans h
      exact absurd (free hf) hnot
    · intro m₁ h
      cases eq.symm.trans h
    · intro m₁ h
      cases eq.symm.trans h
    · intro m₁ h
      cases eq.symm.trans h
      exact ⟨free, kept⟩
  | done i w m₁ m' unmaps wrote nonneg eq pte free =>
    have hpte := hok.pte ht hlo hhi hlo' hhi' unmaps wrote pte
    refine ⟨?_, ?_, ?_, ?_⟩
    · intro r m₂ h f hf hnot
      cases eq.symm.trans h
      rcases free f hf with hfree | ⟨p, e, hvisited, hp, hframe⟩
      · exact absurd (wrote.paged.free hfree) hnot
      · cases hbefore : m.dir.pte p with
        | none =>
          refine absurd ?_ hnot
          rw [← hframe]
          exact wrote.paged.frames p e hp hbefore
        | some e' =>
          cases (wrote.paged.kept p e' hbefore).symm.trans hp
          refine ⟨p, _, ?_, hbefore, hframe⟩
          by_contra hown
          have hsame := (hpte p).2 hown
          rw [(pte p).1 hvisited, hbefore] at hsame
          cases hsame
    · intro m₂ h p
      cases eq.symm.trans h
      exact (hpte p).1
    · intro m₂ h p
      cases eq.symm.trans h
      exact (hpte p).2
    · intro m₂ h
      cases eq.symm.trans h

end

theorem neighbours_backed (p : Int) (h : some 0 = (none : Option Nat)) :
    (if p = 0x60000 then some ⟨1, pteW ||| pteU⟩
      else if p = 0x60001 then some ⟨2, pteW ||| pteU⟩ else none : Option Pte) = none :=
  absurd h (Option.some_ne_none 0)

/-- A process that has mapped two pages, one behind the other, and has touched both. -/
def neighbours : Machine where
  free := []
  bytes := fun _ _ => 0
  dir := {
    table := fun _ => some 0
    pte := fun p => if p = 0x60000 then some ⟨1, pteW ||| pteU⟩
      else if p = 0x60001 then some ⟨2, pteW ||| pteU⟩ else none
    backed := neighbours_backed }
  maps := (Table.freshTable.next
    (.ummap 0 4096 protWrite (mapPrivate ||| mapAnonymous) 0 0)).next
      (.ummap 0 4096 protWrite (mapPrivate ||| mapAnonymous) 0 0)
  killed := false
  file := fun _ => ⟨true, true, 0, 0⟩
  data := fun _ => []

theorem neighbours_disjoint : neighbours.maps.PageDisjoint :=
  Table.pageDisjoint_two (by decide +kernel) (by decide +kernel) (by decide +kernel)
    (by decide +kernel) (by decide +kernel)

/-- The theorem at the second page. -/
theorem frees_own_iff_second_page : neighbours.FreesOwn 0x60001000 4096 :=
  (frees_own_iff neighbours_disjoint (by decide) (by decide) (by decide) (by decide)).mpr (by
    have hfind : neighbours.maps.findVma (u32 (pgroundup 0x60001000)) = some 1 := by
      decide +kernel
    have hlive : neighbours.maps.Live 1 := ⟨by decide, by decide +kernel⟩
    have hlen : (neighbours.maps.vmas 1).len = 4096 := by decide +kernel
    refine ⟨?_, ?_, ?_⟩
    · intro i h _ _ hbad
      obtain rfl : 1 = i := Option.some.inj (hfind.symm.trans h.found)
      rw [hlen] at hbad
      exact absurd hbad (by decide)
    · intro i h hstray
      obtain rfl : 1 = i := Option.some.inj (hfind.symm.trans h.found)
      exact absurd ⟨by decide, hlive⟩ hstray
    · intro i _ hdirty
      exact absurd (by decide +kernel) hdirty)

/-- An address below the second mapping finds it, and the page of the first mapping is freed. -/
theorem page_below_freed :
    ¬ ∀ (m : Machine) (addr length : Int), m.maps.PageDisjoint → -2 ^ 31 ≤ addr →
      addr < 2 ^ 31 → -2 ^ 31 ≤ length → length < 2 ^ 31 → m.FreesOwn addr length := by
  intro hall
  have hfrees := hall neighbours 0x60000f9c 4096 neighbours_disjoint (by decide) (by decide)
    (by decide) (by decide)
  have hok := hfrees.ok neighbours_disjoint (by decide) (by decide) (by decide)
  have hfind : neighbours.maps.findVma (u32 (pgroundup 0x60000f9c)) = some 1 := by decide +kernel
  have hclean : dirtyEntry neighbours.maps 0x60000f9c = none := by decide +kernel
  have hunmaps : neighbours.Unmaps 0x60000f9c 1 := by
    refine ⟨hfind, by decide +kernel, 0, neighbours, ?_, Int.le_refl 0⟩
    unfold writeBack
    rw [hclean]
  have hpage := hok.stray 1 hunmaps (fun h => absurd h.1 (by decide)) 0x60000
    ⟨0, by decide +kernel, by decide, by decide⟩
  exact absurd hpage (by decide)

end Machine

end Cs537.P5
