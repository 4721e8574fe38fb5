import Cs537.Lib.CInt
import Cs537.Lib.CString

/-!
# Decimal numbers

`atoi` reads the longest decimal number at the beginning of a string, behind white space and a sign.
It is a cast of what `strtol` returns, which stays in the range of a `long`.
-/

namespace Cs537.Lib

def isdigit (b : UInt8) : Bool := 48 ≤ b && b ≤ 57

def isspace (b : UInt8) : Bool := b == 32 || (9 ≤ b && b ≤ 13)

/-- The number that a sequence of digits stands for. -/
def decimal (ds : Bytes) : Nat := ds.foldl (fun n b => 10 * n + (b.toNat - 48)) 0

/-- The sign of a number, and its digits. -/
def signed : Bytes → Bool × Bytes
  | 45 :: s => (true, s.takeWhile isdigit)
  | 43 :: s => (false, s.takeWhile isdigit)
  | s => (false, s.takeWhile isdigit)

/-- `strtol` with base 10 and a `long` of 64 bits. -/
def strtol (s : Bytes) : Int :=
  match signed ((cstr s).dropWhile isspace) with
  | (true, ds) => max (-(decimal ds : Int)) (-2 ^ 63)
  | (false, ds) => min (decimal ds : Int) (2 ^ 63 - 1)

/-- `atoi` of glibc. -/
def atoi (s : Bytes) : Int := i32 (strtol s)

theorem atoi_append_terminator (s : Bytes) : atoi (s ++ [0]) = atoi s := by
  rw [atoi, strtol, cstr_append_terminator, ← strtol, ← atoi]

theorem ne_zero_of_isspace {b : UInt8} (h : isspace b = true) : b ≠ 0 := by
  rintro rfl
  exact absurd h (by decide)

theorem ne_zero_of_isdigit {b : UInt8} (h : isdigit b = true) : b ≠ 0 := by
  rintro rfl
  exact absurd h (by decide)

theorem isspace_of_isdigit {b : UInt8} (h : isdigit b = true) : isspace b = false := by
  simp only [isdigit, isspace, Bool.and_eq_true, decide_eq_true_eq, UInt8.le_iff_toNat_le] at h ⊢
  simp [← UInt8.toNat_inj] at h ⊢
  omega

/-- A number without a sign. -/
theorem signed_of_isdigit {s : Bytes} (h : ∀ b ∈ s.head?, isdigit b = true) :
    signed s = (false, s.takeWhile isdigit) := by
  cases s with
  | nil => rfl
  | cons b s =>
    have hb : isdigit b = true := h b rfl
    unfold signed
    split
    · rename_i heq
      rw [(List.cons.inj heq).1] at hb
      exact absurd hb (by decide)
    · rename_i heq
      rw [(List.cons.inj heq).1] at hb
      exact absurd hb (by decide)
    · rfl

/-- The digits in front of anything that is no digit. -/
theorem takeWhile_isdigit {ds behind : Bytes} (hds : ∀ b ∈ ds, isdigit b = true)
    (hbehind : ∀ b ∈ behind.head?, isdigit b = false) :
    (ds ++ cstr behind).takeWhile isdigit = ds := by
  rw [List.takeWhile_append_of_pos hds]
  cases behind with
  | nil => simp [cstr]
  | cons b behind =>
    have hb : isdigit b = false := hbehind b rfl
    by_cases hzero : b = 0
    · simp [cstr, hzero]
    · simp [cstr, hzero, hb]

/-- A number behind white space, in front of anything that is no digit. -/
theorem atoi_eq_decimal {gap ds behind : Bytes} (hgap : ∀ b ∈ gap, isspace b = true)
    (hds : ∀ b ∈ ds, isdigit b = true) (hne : ds ≠ [])
    (hbehind : ∀ b ∈ behind.head?, isdigit b = false) (hlt : decimal ds < 2 ^ 31) :
    atoi (gap ++ (ds ++ behind)) = decimal ds := by
  obtain ⟨d, ds', hcons⟩ := List.exists_cons_of_ne_nil hne
  have hd : isdigit d = true := hds d (by rw [hcons]; exact List.mem_cons_self)
  have hstring : cstr (gap ++ (ds ++ behind)) = gap ++ (ds ++ cstr behind) := by
    rw [cstr_append_of_zero_notMem fun h => ne_zero_of_isspace (hgap 0 h) rfl,
      cstr_append_of_zero_notMem fun h => ne_zero_of_isdigit (hds 0 h) rfl]
  have hskip : (gap ++ (ds ++ cstr behind)).dropWhile isspace = ds ++ cstr behind := by
    rw [List.dropWhile_append_of_pos hgap, hcons, List.cons_append,
      List.dropWhile_cons_of_neg (by simp [isspace_of_isdigit hd])]
  have hsigned : signed (ds ++ cstr behind) = (false, ds) := by
    rw [signed_of_isdigit, takeWhile_isdigit hds hbehind]
    intro b hb
    rw [hcons] at hb
    exact (Option.some.inj hb) ▸ hd
  have hlong : strtol (gap ++ (ds ++ behind)) = decimal ds := by
    rw [strtol, hstring, hskip, hsigned]
    simp only
    omega
  rw [atoi, hlong, i32_of_mem (by omega) (by omega)]

/-! ## Numbers as texts -/

/-- The texts for a sign, and whether the number behind it is negative. -/
inductive IsSign : Bytes → Bool → Prop
  | minus : IsSign [45] true
  | plus : IsSign [43] false
  | none : IsSign [] false

/-- What digits come to with a sign, first as a `long` and then as an `int`. -/
def signedValue (neg : Bool) (ds : Bytes) : Int :=
  i32 (if neg then max (-(decimal ds : Int)) (-2 ^ 63) else min (decimal ds : Int) (2 ^ 63 - 1))

/-- A text with this number at its beginning: white space, at most one sign, digits, and no digit
behind them. A text that has no digits there stands for 0. -/
inductive Spells : Bytes → Int → Prop
  | number {gap sign ds behind : Bytes} {neg : Bool} : (∀ b ∈ gap, isspace b = true) →
      IsSign sign neg → ds ≠ [] → (∀ b ∈ ds, isdigit b = true) →
      (∀ b ∈ behind.head?, isdigit b = false) →
      Spells (gap ++ (sign ++ (ds ++ behind))) (signedValue neg ds)
  | nothing {s : Bytes} : (∀ gap sign ds behind neg, s = gap ++ (sign ++ (ds ++ behind)) →
      (∀ b ∈ gap, isspace b = true) → IsSign sign neg → (∀ b ∈ ds, isdigit b = true) → ds = []) →
      Spells s 0

theorem atoi_of_signed {s ds : Bytes} {neg : Bool} (hfree : (0 : UInt8) ∉ s)
    (hsigned : signed (s.dropWhile isspace) = (neg, ds)) : atoi s = signedValue neg ds := by
  rw [atoi, strtol, cstr_of_zero_notMem hfree, hsigned]
  cases neg <;> rfl

/-- A sign in front of digits is read. -/
theorem signed_sign {sign ds behind : Bytes} {neg : Bool} (hsign : IsSign sign neg) (hne : ds ≠ [])
    (hds : ∀ b ∈ ds, isdigit b = true) :
    signed (sign ++ (ds ++ behind)) = (neg, ds ++ behind.takeWhile isdigit) := by
  have hdigits : (ds ++ behind).takeWhile isdigit = ds ++ behind.takeWhile isdigit :=
    List.takeWhile_append_of_pos hds
  cases hsign with
  | minus | plus => exact congrArg (Prod.mk _) hdigits
  | none =>
    obtain ⟨d, ds, rfl⟩ := List.exists_cons_of_ne_nil hne
    rw [List.nil_append, signed_of_isdigit, hdigits]
    intro b hb
    obtain rfl := Option.some.inj hb
    exact hds d List.mem_cons_self

theorem signed_cases (s : Bytes) :
    ∃ sign t neg, IsSign sign neg ∧ s = sign ++ t ∧ signed s = (neg, t.takeWhile isdigit) := by
  unfold signed
  split
  · exact ⟨[45], _, true, .minus, rfl, rfl⟩
  · exact ⟨[43], _, false, .plus, rfl, rfl⟩
  · exact ⟨[], _, false, .none, rfl, rfl⟩

/-- The white space in front of a number. -/
theorem dropWhile_isspace {gap sign ds behind : Bytes} {neg : Bool}
    (hgap : ∀ b ∈ gap, isspace b = true) (hsign : IsSign sign neg) (hne : ds ≠ [])
    (hds : ∀ b ∈ ds, isdigit b = true) :
    (gap ++ (sign ++ (ds ++ behind))).dropWhile isspace = sign ++ (ds ++ behind) := by
  rw [List.dropWhile_append_of_pos hgap]
  cases hsign with
  | minus | plus => exact List.dropWhile_cons_of_neg (by decide)
  | none =>
    obtain ⟨d, ds, rfl⟩ := List.exists_cons_of_ne_nil hne
    have hd : isspace d = false := isspace_of_isdigit (hds d List.mem_cons_self)
    exact List.dropWhile_cons_of_neg (by simp [hd])

/-- `atoi` returns the number at the beginning of a text. -/
theorem spells_iff {s : Bytes} (hfree : (0 : UInt8) ∉ s) {n : Int} : Spells s n ↔ atoi s = n := by
  obtain ⟨sign, t, neg, hsign, hrest, hsigned⟩ := signed_cases (s.dropWhile isspace)
  have hsplit : s =
      s.takeWhile isspace ++ (sign ++ (t.takeWhile isdigit ++ t.dropWhile isdigit)) := by
    rw [List.takeWhile_append_dropWhile, ← hrest, List.takeWhile_append_dropWhile]
  have hgap : ∀ b ∈ s.takeWhile isspace, isspace b = true := fun b hb => List.mem_takeWhile_imp hb
  have hds : ∀ b ∈ t.takeWhile isdigit, isdigit b = true := fun b hb => List.mem_takeWhile_imp hb
  have hvalue := atoi_of_signed hfree hsigned
  constructor
  · intro h
    cases h with
    | @number gap sign' ds behind neg' hgap' hsign' hne hds' hbehind =>
      refine atoi_of_signed hfree ?_
      rw [dropWhile_isspace hgap' hsign' hne hds', signed_sign hsign' hne hds']
      cases behind with
      | nil => simp
      | cons b behind =>
        have hb : isdigit b = false := hbehind b rfl
        simp [hb]
    | nothing hnone =>
      rw [hvalue, hnone _ _ _ _ _ hsplit hgap hsign hds]
      cases neg <;> rfl
  · rintro rfl
    rw [hvalue]
    by_cases hne : t.takeWhile isdigit = []
    · have hzero : signedValue neg (t.takeWhile isdigit) = 0 := by
        rw [hne]
        cases neg <;> rfl
      rw [hzero]
      refine .nothing fun gap' sign' ds' behind' neg' heq hgap' hsign' hds' => ?_
      by_contra hne'
      have hread : signed (sign' ++ (ds' ++ behind')) = (neg', ds' ++ behind'.takeWhile isdigit) :=
        signed_sign hsign' hne' hds'
      rw [← dropWhile_isspace hgap' hsign' hne' hds', ← heq, hsigned, hne] at hread
      exact hne' (List.append_eq_nil_iff.mp (Prod.mk.inj hread).2.symm).1
    · have hbehind : ∀ b ∈ (t.dropWhile isdigit).head?, isdigit b = false := by
        intro b hb
        have hhead := List.head?_dropWhile_not isdigit t
        rw [Option.mem_def.mp hb] at hhead
        exact hhead
      have h := Spells.number hgap hsign hne hds hbehind
      rwa [← hsplit] at h

end Cs537.Lib
