import Cs537.Lib.CString

/-!
# `getlastcat`

`exec` leaves four global variables behind when it starts `cat`, and `sys_getlastcat` answers
from them. One of them, `file_DNE`, is set by `exec` only and cleared by the reader only, so the
answer depends on more than the last `cat`: a nonexistent file of an earlier `cat` is reported
until somebody asks, and after that the last `cat` looks as if all its files existed.
-/

namespace Cs537.P2

open Cs537.Lib

/-- A call of `exec`: the strings of `argv`, the string at address 0 of the calling process, which
is what a null `argv[0]` points to, whether the call gets as far as `exec.c:93`, and the paths
that `namei` finds at that moment. -/
structure ExecCall where
  argv : List Bytes
  atNull : Bytes
  loads : Bool
  namei : Bytes → Bool

/-- The global variables that `exec` sets for `cat` (`sysproc.c:10-13`). -/
structure CatVars where
  argNum : Int
  catS : Bytes
  indicator : Int
  fileDNE : Int

/-- The variables after booting. -/
def boot : CatVars where
  argNum := 0
  catS := List.replicate 1024 0
  indicator := 0
  fileDNE := 0

namespace ExecCall

/-- The test of `exec.c:94`; `sizeof(argv[0])` is 4. -/
def isCat (c : ExecCall) : Bool := strncmp (c.argv.headD c.atNull) (ascii "cat") 4 = 0

/-- The loop over the arguments of `cat` (`exec.c:99-104`): some argument is not found. -/
def missing (c : ExecCall) : Bool := c.argv.tail.any fun arg => ! c.namei (cstr arg)

/-- The string `argv[argc - 1]`. -/
def lastArg (c : ExecCall) : Bytes := cstr (c.argv.getLastD [])

end ExecCall

/-- What `exec` does to the variables (`exec.c:93-108`). -/
def exec (c : ExecCall) (s : CatVars) : CatVars :=
  if c.loads && c.isCat then
    let s := { s with indicator := 1 }
    if 1 < c.argv.length then
      let s := { s with catS := strncpy c.lastArg 1024, argNum := 1 }
      if c.missing then { s with fileDNE := 1 } else s
    else { s with argNum := 0 }
  else s

/-- `sys_getlastcat` with a buffer (`sysproc.c:98-124`): the string written and the variables. -/
def sysGetlastcat (s : CatVars) : Bytes × CatVars :=
  if s.fileDNE = 1 then
    (safestrcpy (ascii "Invalid filename") 1024, { s with fileDNE := 0 })
  else if s.indicator = 0 then (safestrcpy (ascii "Cat has not yet been called") 1024, s)
  else if s.argNum = 0 then (safestrcpy (ascii "No args were passed") 1024, s)
  else (safestrcpy s.catS 1024, s)

/-- What happens to the variables. -/
inductive Event where
  | exec (c : ExecCall)
  | getlastcat

/-- One event. -/
def step (s : CatVars) : Event → CatVars
  | .exec c => exec c s
  | .getlastcat => (sysGetlastcat s).2

/-- The variables after a sequence of events since booting. -/
def varsAfter (es : List Event) : CatVars := es.foldl step boot

/-- The string that `sys_getlastcat` writes after a sequence of events. -/
def answer (es : List Event) : Bytes := (sysGetlastcat (varsAfter es)).1

/-! ## The history -/

/-- A call of `exec` whose `argv[0]` is `cat`. -/
def Event.cat? : Event → Option ExecCall
  | .exec c => if c.argv.head?.map cstr = some (ascii "cat") then some c else none
  | .getlastcat => none

/-- A call of `exec` that leaves its traces in the variables. -/
def Event.recorded? : Event → Option ExecCall
  | .exec c => if c.loads && c.isCat then some c else none
  | .getlastcat => none

/-- The most recent `exec` whose `argv[0]` is `cat`. -/
def lastCat (es : List Event) : Option ExecCall := es.reverse.findSome? Event.cat?

/-- The most recent `exec` that left its traces. -/
def lastRecorded (es : List Event) : Option ExecCall := es.reverse.findSome? Event.recorded?

/-- Since the last `getlastcat`, some `cat` had a nonexistent file. -/
def unreportedMissing (es : List Event) : Bool :=
  (es.reverse.takeWhile fun e => e matches .exec _).any fun e => match e.recorded? with
    | some c => c.missing
    | none => false

/-- What `getlastcat` is to answer, given the most recent `cat` alone. -/
def expected : Option ExecCall → Bytes
  | none => ascii "Cat has not yet been called"
  | some c =>
    if c.argv.length = 1 then ascii "No args were passed"
    else if c.missing then ascii "Invalid filename"
    else c.lastArg

/-- The variables are those of the history. -/
structure Reflects (es : List Event) (s : CatVars) : Prop where
  fileDNE : s.fileDNE = if unreportedMissing es then 1 else 0
  indicator : s.indicator = if (lastRecorded es).isSome then 1 else 0
  argNum : ∀ c, lastRecorded es = some c → s.argNum = if 1 < c.argv.length then 1 else 0
  catS : ∀ c, lastRecorded es = some c → 1 < c.argv.length → s.catS = strncpy c.lastArg 1024

theorem lastRecorded_snoc (es : List Event) (e : Event) :
    lastRecorded (es ++ [e]) = e.recorded?.or (lastRecorded es) := by
  unfold lastRecorded
  rw [List.reverse_append, List.reverse_singleton, List.singleton_append, List.findSome?_cons]
  cases e.recorded? <;> rfl

theorem unreportedMissing_exec (es : List Event) (c : ExecCall) :
    unreportedMissing (es ++ [.exec c]) =
      ((c.loads && c.isCat && c.missing) || unreportedMissing es) := by
  unfold unreportedMissing
  rw [List.reverse_append, List.reverse_singleton, List.singleton_append,
    List.takeWhile_cons_of_pos rfl, List.any_cons]
  congr 1
  by_cases hrec : (c.loads && c.isCat) = true
  · have hcall : Event.recorded? (.exec c) = some c := if_pos hrec
    rw [hcall, hrec, Bool.true_and]
  · have hcall : Event.recorded? (.exec c) = none := if_neg hrec
    rw [Bool.not_eq_true] at hrec
    rw [hcall, hrec, Bool.false_and]

theorem unreportedMissing_getlastcat (es : List Event) :
    unreportedMissing (es ++ [.getlastcat]) = false := by
  unfold unreportedMissing
  rw [List.reverse_append, List.reverse_singleton, List.singleton_append,
    List.takeWhile_cons_of_neg (by simp), List.any_nil]

/-- An argument that is missing is an argument. -/
theorem ExecCall.length_of_missing {c : ExecCall} (h : c.missing = true) : 1 < c.argv.length := by
  obtain ⟨arg, harg, -⟩ := List.any_eq_true.mp h
  have := List.length_pos_of_mem harg
  rw [List.length_tail] at this
  omega

theorem Reflects.exec {es : List Event} {s : CatVars} (h : Reflects es s) (c : ExecCall) :
    Reflects (es ++ [.exec c]) (exec c s) := by
  have hlast := lastRecorded_snoc es (.exec c)
  have hmissing := unreportedMissing_exec es c
  unfold P2.exec
  by_cases hrec : (c.loads && c.isCat) = true
  · rw [if_pos hrec]
    have hcall : Event.recorded? (.exec c) = some c := if_pos hrec
    rw [hcall, Option.some_or] at hlast
    rw [hrec, Bool.true_and] at hmissing
    by_cases hargs : 1 < c.argv.length
    · simp only [if_pos hargs]
      cases hm : c.missing with
      | true =>
        rw [hm, Bool.true_or] at hmissing
        constructor
        · simp [hmissing]
        · simp [hlast]
        · simp [hlast, hargs]
        · simp [hlast]
      | false =>
        rw [hm, Bool.false_or] at hmissing
        constructor
        · simp [hmissing, h.fileDNE]
        · simp [hlast]
        · simp [hlast, hargs]
        · simp [hlast]
    · have hm : c.missing = false := by
        by_contra hne
        exact hargs (ExecCall.length_of_missing (by simpa using hne))
      rw [hm, Bool.false_or] at hmissing
      simp only [if_neg hargs]
      constructor
      · simp [hmissing, h.fileDNE]
      · simp [hlast]
      · intro d hd
        rw [hlast, Option.some.injEq] at hd
        rw [← hd, if_neg hargs]
      · intro d hd hlen
        rw [hlast, Option.some.injEq] at hd
        exact absurd (hd ▸ hlen) hargs
  · have hcall : Event.recorded? (.exec c) = none := if_neg hrec
    rw [if_neg hrec]
    rw [hcall, Option.none_or] at hlast
    rw [Bool.not_eq_true] at hrec
    rw [hrec, Bool.false_and, Bool.false_or] at hmissing
    refine ⟨?_, ?_, ?_, ?_⟩
    · rw [hmissing]
      exact h.fileDNE
    · rw [hlast]
      exact h.indicator
    · rw [hlast]
      exact h.argNum
    · rw [hlast]
      exact h.catS

theorem Reflects.getlastcat {es : List Event} {s : CatVars} (h : Reflects es s) :
    Reflects (es ++ [.getlastcat]) (sysGetlastcat s).2 := by
  have hlast : lastRecorded (es ++ [.getlastcat]) = lastRecorded es := lastRecorded_snoc es _
  have hother : (sysGetlastcat s).2 = { s with fileDNE := 0 } := by
    unfold sysGetlastcat
    split
    · rfl
    · rename_i hzero
      have h0 : s.fileDNE = 0 := by
        rw [h.fileDNE] at hzero ⊢
        split at hzero
        · exact absurd rfl hzero
        · rename_i hm
          rw [if_neg hm]
      have hsame : s = { s with fileDNE := 0 } := by rw [← h0]
      split
      · exact hsame
      · split
        · exact hsame
        · exact hsame
  rw [hother]
  refine ⟨?_, ?_, ?_, ?_⟩
  · rw [unreportedMissing_getlastcat]
    rfl
  · rw [hlast]
    exact h.indicator
  · rw [hlast]
    exact h.argNum
  · rw [hlast]
    exact h.catS

/-- After every sequence of events the variables are those of the history. -/
theorem reflects_varsAfter (es : List Event) : Reflects es (varsAfter es) := by
  induction es using List.reverseRecOn with
  | nil =>
    refine ⟨rfl, rfl, ?_, ?_⟩
    · intro c hc
      cases hc
    · intro c hc
      cases hc
  | append_singleton es e ih =>
    unfold varsAfter
    rw [List.foldl_append]
    cases e with
    | exec c => exact ih.exec c
    | getlastcat => exact ih.getlastcat

/-! ## The answer -/

theorem lastRecorded_of_unreportedMissing {es : List Event} (h : unreportedMissing es = true) :
    (lastRecorded es).isSome = true := by
  obtain ⟨e, he, hmissing⟩ := List.any_eq_true.mp h
  have hmem : e ∈ es.reverse := List.takeWhile_sublist _ |>.subset he
  unfold lastRecorded
  rw [List.findSome?_isSome_iff]
  refine ⟨e, hmem, ?_⟩
  cases hrec : e.recorded? with
  | none => simp [hrec] at hmissing
  | some c => rfl

/-- The test compares the whole of `argv[0]`, because four bytes reach behind the end of `cat`. -/
theorem ExecCall.isCat_iff (c : ExecCall) :
    c.isCat = true ↔ cstr (c.argv.headD c.atNull) = ascii "cat" := by
  have hcat : (cstr (ascii "cat")).take 4 = ascii "cat" := by decide
  unfold ExecCall.isCat
  rw [decide_eq_true_eq, strncmp_eq_zero_iff, hcat]
  constructor
  · intro h
    have hlength := congrArg List.length h
    have hthree : (ascii "cat").length = 3 := by decide
    rw [List.length_take, hthree] at hlength
    rwa [List.take_of_length_le (by omega)] at h
  · intro h
    rw [h]
    decide

/-- The answer in terms of the history. -/
theorem answer_eq (es : List Event) :
    answer es =
      if unreportedMissing es then ascii "Invalid filename"
      else match lastRecorded es with
        | none => ascii "Cat has not yet been called"
        | some c =>
          if 1 < c.argv.length then c.lastArg.take 1023 else ascii "No args were passed" := by
  have h := reflects_varsAfter es
  have hdne := h.fileDNE
  have hind := h.indicator
  unfold answer sysGetlastcat
  cases hm : unreportedMissing es with
  | true =>
    rw [hm, if_pos rfl] at hdne
    rw [if_pos hdne]
    simp only [if_true]
    decide
  | false =>
    rw [hm] at hdne
    rw [if_neg (by rw [hdne]; decide)]
    simp only [Bool.false_eq_true, if_false]
    cases hlast : lastRecorded es with
    | none =>
      have h0 : (varsAfter es).indicator = 0 := by rw [hind, hlast]; rfl
      rw [if_pos h0]
      show safestrcpy (ascii "Cat has not yet been called") 1024 = _
      decide
    | some c =>
      have h1 : (varsAfter es).indicator = 1 := by rw [hind, hlast]; rfl
      have harg := h.argNum c hlast
      rw [if_neg (by rw [h1]; decide)]
      by_cases hargs : 1 < c.argv.length
      · rw [if_pos hargs] at harg
        rw [if_neg (by rw [harg]; decide)]
        simp only [if_pos hargs]
        have hfree : cstr c.lastArg = c.lastArg := cstr_of_zero_notMem (zero_notMem_cstr _)
        rw [h.catS c hlast hargs, safestrcpy, cstr_strncpy, hfree, List.take_take]
        rfl
      · rw [if_neg hargs] at harg
        rw [if_pos harg]
        simp only [if_neg hargs]
        decide

/-- When the history gives the answer for the most recent `cat`, by what that `cat` is. The most
recent `exec` that left its traces may be an earlier one. -/
def ReportsLastCat (es : List Event) : Prop :=
  match lastCat es with
  | none => lastRecorded es = none
  | some c =>
    if c.argv.length = 1 then
      unreportedMissing es = false ∧ ∃ r, lastRecorded es = some r ∧
        (r.argv.length ≤ 1 ∨ r.lastArg = ascii "No args were passed")
    else if c.missing then
      unreportedMissing es = true ∨ ∃ r, lastRecorded es = some r ∧ 1 < r.argv.length ∧
        r.lastArg = ascii "Invalid filename"
    else if unreportedMissing es then c.lastArg = ascii "Invalid filename"
    else
      match lastRecorded es with
      | none => c.lastArg = ascii "Cat has not yet been called"
      | some r =>
        if 1 < r.argv.length then c.lastArg = r.lastArg.take 1023
        else c.lastArg = ascii "No args were passed"

/-- Without a `cat` only an `exec` without an `argv[0]` leaves traces. -/
theorem argv_of_lastCat_none {es : List Event} {r : ExecCall} (hnone : lastCat es = none)
    (hr : lastRecorded es = some r) : r.argv = [] := by
  obtain ⟨e, he, hrec⟩ := List.exists_of_findSome?_eq_some hr
  have hcat : e.cat? = none := List.findSome?_eq_none_iff.mp hnone e he
  cases e with
  | getlastcat => cases hrec
  | exec c =>
    obtain ⟨hwhole, hsame⟩ := Option.ite_none_right_eq_some.mp hrec
    obtain rfl := Option.some.inj hsame
    have hname := c.isCat_iff.mp (Bool.and_eq_true_iff.mp hwhole).2
    cases hargv : c.argv with
    | nil => rfl
    | cons arg args =>
      rw [hargv, List.headD_cons] at hname
      simp [Event.cat?, hargv, hname] at hcat

/-- What `cat_s` keeps of an argument is a short text only if the argument is. -/
theorem take_eq_short_iff {arg text : Bytes} (hshort : text.length < 1023) :
    arg.take 1023 = text ↔ arg = text := by
  constructor
  · intro h
    have hlen : arg.length ≤ 1023 := by
      by_contra hlong
      have := congrArg List.length h
      rw [List.length_take, min_eq_left (by omega)] at this
      omega
    rwa [List.take_of_length_le hlen] at h
  · rintro rfl
    exact List.take_of_length_le (by omega)

/-- After every sequence of `exec` and `getlastcat` calls the answer is the one for the most recent
`cat` alone exactly if `ReportsLastCat` holds. -/
theorem answer_eq_expected_iff (es : List Event) :
    answer es = expected (lastCat es) ↔ ReportsLastCat es := by
  have htraces : lastRecorded es = none → unreportedMissing es = false := by
    intro hnone
    by_contra hne
    have h := lastRecorded_of_unreportedMissing (Bool.not_eq_false _ ▸ hne)
    rw [hnone] at h
    cases h
  rw [answer_eq]
  unfold ReportsLastCat
  cases hcat : lastCat es with
  | none =>
    simp only [expected]
    cases hr : lastRecorded es with
    | none => simp [htraces hr]
    | some r =>
      have hargv : r.argv = [] := argv_of_lastCat_none hcat hr
      refine iff_of_false ?_ nofun
      split
      · decide
      · simp only [hargv, List.length_nil, Nat.not_lt_zero, if_false]
        decide
  | some c =>
    simp only [expected]
    by_cases hone : c.argv.length = 1
    · rw [if_pos hone, if_pos hone]
      cases hm : unreportedMissing es with
      | true =>
        rw [if_pos rfl]
        exact iff_of_false (by decide) fun h => Bool.noConfusion h.1
      | false =>
        simp only [Bool.false_eq_true, if_false, true_and]
        cases hr : lastRecorded es with
        | none => exact iff_of_false (by decide) nofun
        | some r =>
          simp only [Option.some.injEq, exists_eq_left']
          by_cases hargs : 1 < r.argv.length
          · rw [if_pos hargs, take_eq_short_iff (by decide)]
            exact ⟨.inr, fun h => h.resolve_left (by omega)⟩
          · rw [if_neg hargs]
            exact iff_of_true rfl (.inl (by omega))
    · rw [if_neg hone, if_neg hone]
      cases hmiss : c.missing with
      | true =>
        simp only [if_true]
        cases hm : unreportedMissing es with
        | true => simp
        | false =>
          simp only [Bool.false_eq_true, if_false, false_or]
          cases hr : lastRecorded es with
          | none => exact iff_of_false (by decide) nofun
          | some r =>
            simp only [Option.some.injEq, exists_eq_left']
            by_cases hargs : 1 < r.argv.length
            · rw [if_pos hargs, take_eq_short_iff (by decide)]
              exact (and_iff_right hargs).symm
            · rw [if_neg hargs]
              exact iff_of_false (by decide) fun h => hargs h.1
      | false =>
        simp only [Bool.false_eq_true, if_false]
        cases hm : unreportedMissing es with
        | true => simp [eq_comm]
        | false =>
          simp only [Bool.false_eq_true, if_false]
          cases hr : lastRecorded es with
          | none => exact eq_comm
          | some r =>
            dsimp only
            split
            · exact eq_comm
            · exact eq_comm

/-- `cat` with some arguments, of which those in `files` exist. -/
def catOf (args files : List Bytes) : ExecCall where
  argv := ascii "cat" :: args
  atNull := []
  loads := true
  namei path := files.contains path

/-- `cat README`, `README` being a file. -/
def catReadme : ExecCall := catOf [ascii "README"] [ascii "README"]

/-- A `cat README` that has no memory for its stack. -/
def failingCat : ExecCall := { catReadme with loads := false }

/-- The theorem at a `cat README` that is followed by one that fails. -/
theorem answer_eq_expected_iff_readme :
    answer [.exec catReadme, .exec failingCat] = ascii "README" := by
  have hcat : lastCat [.exec catReadme, .exec failingCat] = some failingCat := rfl
  have hrec : lastRecorded [.exec catReadme, .exec failingCat] = some catReadme := rfl
  have hreports : ReportsLastCat [.exec catReadme, .exec failingCat] := by
    rw [ReportsLastCat, hcat, hrec]
    dsimp only
    rw [if_neg (by decide), if_neg (by decide), if_neg (by decide), if_pos (by decide)]
    decide
  rw [(answer_eq_expected_iff _).mpr hreports, hcat]
  decide

/-- `cat nofile`, then `cat README`. -/
def badThenGood : List Event := [.exec (catOf [ascii "nofile"] []), .exec catReadme]

/-- The answer after that is about the first of them. -/
theorem answer_not_expected_after_badThenGood :
    ¬ ∀ es : List Event, answer es = expected (lastCat es) := by
  intro hall
  have hanswer : answer badThenGood = ascii "Invalid filename" := by decide
  have hexpected : expected (lastCat badThenGood) = ascii "README" := by decide
  have heq := hall badThenGood
  rw [hanswer, hexpected] at heq
  exact absurd heq (by decide)

-- a second question after `cat nofile` is answered with the name of the file
example : answer [.exec (catOf [ascii "nofile"] []), .getlastcat] = ascii "nofile" := by decide

end Cs537.P2
