import Mathlib.Data.List.Basic

/-!
# Loops that may stop

A loop over a list whose body may stop with an error is a `foldlM` in `Except`. Its rules: an
invariant of the body holds after a loop that went through; what one round establishes and the
others keep holds after it; and it goes through if every round does. `Yields` is a statement about
both ways in which a computation may end, and `Mirrors` one about two computations.
-/

namespace Cs537.Lib

variable {α σ ε : Type*} {f : σ → α → Except ε σ} {s s' : σ} {l : List α}

theorem foldlM_cons_ok {a : α} :
    (a :: l).foldlM f s = .ok s' ↔ ∃ t, f s a = .ok t ∧ l.foldlM f t = .ok s' := by
  rw [List.foldlM_cons]
  cases hbody : f s a with
  | error e =>
    constructor
    · intro h
      cases h
    · rintro ⟨t, ht, -⟩
      cases ht
  | ok t =>
    constructor
    · intro h
      exact ⟨t, rfl, h⟩
    · rintro ⟨t', ht, h⟩
      cases ht
      exact h

/-- Two nested loops are one over all the rounds of the inner ones. -/
theorem foldlM_flatMap {β : Type*} (g : β → List α) (is : List β) :
    is.foldlM (fun s i => (g i).foldlM f s) s = (is.flatMap g).foldlM f s := by
  induction is generalizing s with
  | nil => rfl
  | cons i is ih =>
    rw [List.flatMap_cons, List.foldlM_append, List.foldlM_cons]
    exact bind_congr fun t => ih

/-- An invariant of the body is one of the loop. -/
theorem foldlM_invariant (P : σ → Prop) (hok : l.foldlM f s = .ok s') (init : P s)
    (keep : ∀ a ∈ l, ∀ t t', P t → f t a = .ok t' → P t') : P s' := by
  induction l generalizing s with
  | nil =>
    cases hok
    exact init
  | cons a l ih =>
    obtain ⟨t, hbody, hrest⟩ := foldlM_cons_ok.mp hok
    exact ih hrest (keep a List.mem_cons_self s t init hbody)
      fun x hx => keep x (List.mem_cons_of_mem a hx)

/-- What the round for one element establishes holds at the end, if the other rounds keep it. -/
theorem foldlM_established (P : σ → Prop) {a : α} (hok : l.foldlM f s = .ok s') (ha : a ∈ l)
    (establish : ∀ t t', f t a = .ok t' → P t')
    (keep : ∀ x ∈ l, ∀ t t', P t → f t x = .ok t' → P t') : P s' := by
  induction l generalizing s with
  | nil => cases ha
  | cons x l ih =>
    obtain ⟨t, hbody, hrest⟩ := foldlM_cons_ok.mp hok
    have hkeep : ∀ y ∈ l, ∀ t t', P t → f t y = .ok t' → P t' :=
      fun y hy => keep y (List.mem_cons_of_mem x hy)
    rcases List.mem_cons.mp ha with rfl | ha
    · exact foldlM_invariant P hrest (establish s t hbody) hkeep
    · exact ih hrest ha hkeep

/-- A loop goes through if every round does, `I` saying what is left to do and what holds. -/
theorem foldlM_ok (I : List α → σ → Prop) (init : I l s)
    (round : ∀ a l t, I (a :: l) t → ∃ t', f t a = .ok t' ∧ I l t') :
    ∃ t, l.foldlM f s = .ok t ∧ I [] t := by
  induction l generalizing s with
  | nil => exact ⟨s, rfl, init⟩
  | cons a l ih =>
    obtain ⟨t, hbody, ht⟩ := round a l s init
    obtain ⟨u, hrest, hu⟩ := ih ht
    exact ⟨u, foldlM_cons_ok.mpr ⟨t, hbody, hrest⟩, hu⟩

/-- A statement about the rounds done so far. -/
theorem foldlM_prefix (P : List α → σ → Prop) (hok : l.foldlM f s = .ok s') (init : P [] s)
    (round : ∀ done a, a ∈ l → ∀ t t', P done t → f t a = .ok t' → P (done ++ [a]) t') : P l s' := by
  have hgeneral : ∀ (rest done : List α) (t : σ), rest.foldlM f t = .ok s' → P done t →
      (∀ a ∈ rest, a ∈ l) → P (done ++ rest) s' := by
    intro rest
    induction rest with
    | nil =>
      intro done t ht hdone _
      cases ht
      rw [List.append_nil]
      exact hdone
    | cons a rest ih =>
      intro done t ht hdone hsub
      obtain ⟨u, hbody, hrest⟩ := foldlM_cons_ok.mp ht
      have hnext := ih (done ++ [a]) u hrest
        (round done a (hsub a List.mem_cons_self) t u hdone hbody)
        fun x hx => hsub x (List.mem_cons_of_mem a hx)
      rwa [List.append_assoc] at hnext
  exact hgeneral l [] s hok init fun _ ha => ha

/-- A loop that stopped did so in one of its rounds, where an invariant still held. -/
theorem foldlM_error {e : ε} (P : σ → Prop) (herror : l.foldlM f s = .error e) (init : P s)
    (keep : ∀ a ∈ l, ∀ t t', P t → f t a = .ok t' → P t') :
    ∃ a ∈ l, ∃ t, P t ∧ f t a = .error e := by
  induction l generalizing s with
  | nil => cases herror
  | cons a l ih =>
    rw [List.foldlM_cons] at herror
    cases hbody : f s a with
    | error e' =>
      rw [hbody] at herror
      cases herror
      exact ⟨a, List.mem_cons_self, s, init, hbody⟩
    | ok t =>
      rw [hbody] at herror
      obtain ⟨x, hx, u, hu, hfails⟩ := ih herror (keep a List.mem_cons_self s t init hbody)
        fun x hx => keep x (List.mem_cons_of_mem a hx)
      exact ⟨x, List.mem_cons_of_mem a hx, u, hu, hfails⟩

/-! ## Both outcomes -/

/-- The computation returns a value with the property `P`, or it stops with an error with the
property `E`. -/
def Yields (P : σ → Prop) (E : ε → Prop) : Except ε σ → Prop
  | .ok s => P s
  | .error e => E e

namespace Yields

universe u

variable {σ τ : Type u} {ε : Type*} {P : σ → Prop} {Q : τ → Prop} {E : ε → Prop} {r : Except ε σ}

theorem error_of_no_value (h : Yields (fun _ => False) E r) : ∃ e, r = .error e ∧ E e := by
  cases r with
  | ok s => exact h.elim
  | error e => exact ⟨e, rfl, h⟩

/-- One computation after another. -/
theorem bind {g : σ → Except ε τ} (h : Yields P E r) (hg : ∀ s, P s → Yields Q E (g s)) :
    Yields Q E (r >>= g) := by
  cases r with
  | ok s => exact hg s h
  | error e => exact h

/-- An invariant of the rounds of a loop, each of which may stop. -/
theorem foldlM {α : Type*} {f : σ → α → Except ε σ} {l : List α} {s : σ} (I : σ → Prop) (init : I s)
    (keep : ∀ a ∈ l, ∀ t, I t → Yields I E (f t a)) : Yields I E (l.foldlM f s) := by
  induction l generalizing s with
  | nil => exact init
  | cons a l ih =>
    rw [List.foldlM_cons]
    refine bind (keep a List.mem_cons_self s init) fun t ht => ?_
    exact ih ht fun x hx => keep x (List.mem_cons_of_mem a hx)

/-- A statement about the rounds done so far, each of which may stop. -/
theorem foldlM_prefix {α : Type*} {f : σ → α → Except ε σ} {l : List α} {s : σ}
    (I : List α → σ → Prop) (init : I [] s)
    (round : ∀ done a rest t, l = done ++ a :: rest → I done t →
      Yields (I (done ++ [a])) E (f t a)) : Yields (I l) E (l.foldlM f s) := by
  have hgeneral : ∀ (rest done : List α) (t : σ), l = done ++ rest → I done t →
      Yields (I l) E (rest.foldlM f t) := by
    intro rest
    induction rest with
    | nil =>
      intro done t hl hdone
      rw [hl, List.append_nil]
      exact hdone
    | cons a rest ih =>
      intro done t hl hdone
      rw [List.foldlM_cons]
      refine bind (round done a rest t hl hdone) fun u hu => ?_
      exact ih (done ++ [a]) u (by rw [hl, List.append_assoc]; rfl) hu
  exact hgeneral l [] s rfl init

end Yields

/-! ## Two computations -/

/-- `q` is `r` with less in its states: where `r` returns a value, which has the property `P`, `q`
ends with the view of it, and where `r` stops with an error that `fail` knows, `q` stops with what
`fail` makes of it. -/
def Mirrors {δ τ : Type*} (P : σ → Prop) (view : σ → Except δ τ) (fail : ε → Option δ) :
    Except ε σ → Except δ τ → Prop
  | .ok s, q => P s ∧ q = view s
  | .error e, q => ∀ d, fail e = some d → q = .error d

namespace Mirrors

variable {δ τ : Type*} {P : σ → Prop} {view : σ → τ} {fail : ε → Option δ}

/-- Two loops over the same list, round by round. `I` says what holds of the rounds done so far. -/
theorem foldlM {g : τ → α → Except δ τ} (I : List α → σ → Prop) (init : I [] s)
    (round : ∀ done a, a ∈ l → ∀ t, I done t →
      Mirrors (I (done ++ [a])) (fun t => .ok (view t)) fail (f t a) (g (view t) a)) :
    Mirrors (I l) (fun t => .ok (view t)) fail (l.foldlM f s) (l.foldlM g (view s)) := by
  have hgeneral : ∀ (rest done : List α) (t : σ), (∀ a ∈ rest, a ∈ l) → I done t →
      Mirrors (I (done ++ rest)) (fun t => .ok (view t)) fail (rest.foldlM f t)
        (rest.foldlM g (view t)) := by
    intro rest
    induction rest with
    | nil =>
      intro done t _ hdone
      rw [List.append_nil]
      exact ⟨hdone, rfl⟩
    | cons a rest ih =>
      intro done t hsub hdone
      have hround := round done a (hsub a List.mem_cons_self) t hdone
      rw [List.foldlM_cons, List.foldlM_cons]
      cases hf : f t a with
      | error e =>
        rw [hf] at hround
        intro d hd
        rw [hround d hd]
        rfl
      | ok u =>
        rw [hf] at hround
        obtain ⟨hdone', heq⟩ := hround
        rw [heq]
        have hrest := ih (done ++ [a]) u (fun x hx => hsub x (List.mem_cons_of_mem a hx)) hdone'
        rw [List.append_assoc] at hrest
        exact hrest
  exact hgeneral l [] s (fun _ ha => ha) init

end Mirrors

end Cs537.Lib
